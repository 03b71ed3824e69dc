import Ccmchain.Common.Types

/-!
# `common/math` and the `math/big` accessors the VM uses

A `big.Int` is an `Int`. `U256` keeps the low 256 bits of the two's complement form, which is
the value modulo `2 ^ 256`; `S256` reads a 256-bit word as signed. `Exp` is the square and
multiply loop of `common/math/big.go`, over the 64-bit words of the exponent.

The `uint64` arithmetic of `SafeAdd` and `SafeMul` wraps, and the flag says whether it did.
-/

namespace Ccmchain.Common

/-! ### `common/math/integer.go` -/

/-- `math.MaxUint64`. -/
def MaxUint64 : UInt64 := 0xFFFFFFFFFFFFFFFF

/-- `SafeAdd`: the wrapped sum and whether it overflowed. -/
def SafeAdd (x y : UInt64) : UInt64 × Bool := (x + y, y > MaxUint64 - x)

/-- `SafeMul`: the wrapped product and whether it overflowed. -/
def SafeMul (x y : UInt64) : UInt64 × Bool :=
  if x = 0 ∨ y = 0 then (0, false) else (x * y, y > MaxUint64 / x)

theorem toNat_maxUint64 : MaxUint64.toNat = 2 ^ 64 - 1 := rfl

theorem safeAdd_overflow_iff (x y : UInt64) :
    (SafeAdd x y).2 = true ↔ 2 ^ 64 ≤ x.toNat + y.toNat := by
  have hx := x.toNat_lt
  have hsub : (MaxUint64 - x).toNat = 2 ^ 64 - 1 - x.toNat := by
    rw [UInt64.toNat_sub_of_le _ _ (UInt64.le_iff_toNat_le.mpr (by rw [toNat_maxUint64]; omega)),
      toNat_maxUint64]
  simp only [SafeAdd, decide_eq_true_eq, UInt64.lt_iff_toNat_lt, hsub]
  omega

theorem toNat_safeAdd {x y : UInt64} (h : (SafeAdd x y).2 = false) :
    (SafeAdd x y).1.toNat = x.toNat + y.toNat := by
  have hlt : x.toNat + y.toNat < 2 ^ 64 := by
    have := (safeAdd_overflow_iff x y).not.mp (by simp [h])
    omega
  simp only [SafeAdd, UInt64.toNat_add]
  exact Nat.mod_eq_of_lt hlt

theorem safeMul_overflow_iff (x y : UInt64) :
    (SafeMul x y).2 = true ↔ 2 ^ 64 ≤ x.toNat * y.toNat := by
  unfold SafeMul
  split
  · rename_i h
    have h0 : x.toNat = 0 ∨ y.toNat = 0 := by
      rcases h with h | h
      · exact .inl (by simp [h])
      · exact .inr (by simp [h])
    simp only [Bool.false_eq_true, false_iff, not_le]
    rcases h0 with h0 | h0 <;> simp [h0]
  · rename_i h
    have hx : 0 < x.toNat := by
      rcases Nat.eq_zero_or_pos x.toNat with h0 | h0
      · exact absurd (.inl (UInt64.toNat_inj.mp (by simpa using h0))) h
      · exact h0
    simp only [decide_eq_true_eq, UInt64.lt_iff_toNat_lt, UInt64.toNat_div, toNat_maxUint64]
    rw [Nat.div_lt_iff_lt_mul hx, Nat.mul_comm]
    omega

theorem toNat_safeMul {x y : UInt64} (h : (SafeMul x y).2 = false) :
    (SafeMul x y).1.toNat = x.toNat * y.toNat := by
  have hlt : x.toNat * y.toNat < 2 ^ 64 := by
    have := (safeMul_overflow_iff x y).not.mp (by simp [h])
    omega
  unfold SafeMul
  split
  · rename_i h0
    rcases h0 with h0 | h0 <;> simp [h0]
  · simp only [UInt64.toNat_mul]
    exact Nat.mod_eq_of_lt hlt

/-! ### `math/big` accessors -/

/-- `big.Int.IsUint64`. -/
def IsUint64 (x : Int) : Bool := 0 ≤ x && x < 2 ^ 64

/-- `big.Int.Uint64`: the low 64 bits of the absolute value. -/
def Uint64 (x : Int) : UInt64 := UInt64.ofNat x.natAbs

/-- `int64(v)` for a `uint64` value `v`. -/
def toInt64 (v : Nat) : Int := if v < 2 ^ 63 then v else (v : Int) - 2 ^ 64

/-- `big.Int.Int64`: the low 64 bits of the absolute value as an `int64`, negated (with
wrap-around) for a negative number. -/
def Int64 (x : Int) : Int :=
  let v := toInt64 (x.natAbs % 2 ^ 64)
  if x < 0 then toInt64 ((-v) % 2 ^ 64).toNat else v

/-- `big.Int.BitLen`: the bit length of the absolute value. -/
def BitLen (x : Int) : Nat := x.natAbs.size

theorem isUint64_iff (x : Int) : IsUint64 x = true ↔ 0 ≤ x ∧ x < 2 ^ 64 := by
  simp [IsUint64]

theorem toNat_uint64 {x : Int} (h : IsUint64 x = true) : ((Uint64 x).toNat : Int) = x := by
  rw [isUint64_iff] at h
  simp only [Uint64, UInt64.toNat_ofNat']
  omega

theorem isUint64_natCast (n : Nat) : IsUint64 n = decide (n < 2 ^ 64) := by
  simp [IsUint64]

theorem toNat_uint64_natCast {n : Nat} (h : n < 2 ^ 64) : (Uint64 n).toNat = n := by
  simpa [Uint64] using h

/-- A natural number has more than `k` bits exactly from `2 ^ k` on. -/
theorem bitLen_natCast_ge_iff (n k : Nat) : k + 1 ≤ BitLen n ↔ 2 ^ k ≤ n := by
  rw [BitLen, Int.natAbs_natCast, Nat.add_one_le_iff, Nat.lt_size]

theorem int64_of_lt {x : Int} (h0 : 0 ≤ x) (h : x < 2 ^ 63) : Int64 x = x := by
  simp only [Int64, toInt64]
  rw [if_neg (by omega)]
  rw [if_pos (by omega)]
  omega

/-! ### `common/math/big.go` -/

/-- `U256`: `x & (2^256 - 1)`, the low 256 bits of the two's complement form. -/
def U256 (x : Int) : Int := x % 2 ^ 256

/-- `S256`: a 256-bit word read as a two's complement number. -/
def S256 (x : Int) : Int := if x < 2 ^ 255 then x else x - 2 ^ 256

/-- The inner loop of `Exp` over one 64-bit word of the exponent, low bit first. -/
def expWord (word : Nat) : Nat → Int × Int → Int × Int
  | 0, rb => rb
  | i + 1, (result, base) =>
    let result := if word % 2 = 1 then U256 (result * base) else result
    expWord (word / 2) i (result, U256 (base * base))

/-- `Exp`: square and multiply over every bit of every word of `exponent.Bits()`, the 64-bit
words of its absolute value, least significant first. -/
def Exp (base exponent : Int) : Int :=
  ((Nat.digits (2 ^ 64) exponent.natAbs).foldl (fun rb word => expWord word 64 rb) (1, base)).1

/-- `bigEndianByteAt`: byte `n` of the absolute value, counting from the least significant.
Go finds it in word `n / 8` of `Bits()`, and gives `0` past the last word, which is the same
byte. -/
def bigEndianByteAt (x : Int) (n : Nat) : UInt8 := (x.natAbs / 256 ^ n % 256).toUInt8

/-- `Byte`: byte `n` of the `padlength`-byte big-endian form, `0` is the most significant. -/
def Byte (x : Int) (padlength n : Int) : UInt8 :=
  if n ≥ padlength then 0 else bigEndianByteAt x (padlength - 1 - n).toNat

theorem u256_nonneg (x : Int) : 0 ≤ U256 x := Int.emod_nonneg _ (by norm_num)

theorem u256_lt (x : Int) : U256 x < 2 ^ 256 := Int.emod_lt_of_pos _ (by norm_num)

theorem u256_of_lt {x : Int} (h0 : 0 ≤ x) (h : x < 2 ^ 256) : U256 x = x :=
  Int.emod_eq_of_lt h0 h

@[simp] theorem u256_u256 (x : Int) : U256 (U256 x) = U256 x :=
  u256_of_lt (u256_nonneg x) (u256_lt x)

/-! ### `Exp` is the power modulo `2 ^ 256` -/

theorem u256_modEq (x : Int) : U256 x ≡ x [ZMOD 2 ^ 256] := Int.mod_modEq x _

/-- After `k` bits of `word`, the result has gained the factor `base ^ (word % 2 ^ k)` and the
base has been squared `k` times, up to the reductions. -/
theorem expWord_modEq (word k : Nat) (r b : Int) :
    (expWord word k (r, b)).1 ≡ r * b ^ (word % 2 ^ k) [ZMOD 2 ^ 256] ∧
      (expWord word k (r, b)).2 ≡ b ^ 2 ^ k [ZMOD 2 ^ 256] := by
  induction k generalizing word r b with
  | zero => simp [expWord, Nat.mod_one, Int.ModEq.refl]
  | succ k ih =>
    obtain ⟨hres, hbase⟩ := ih (word / 2) (if word % 2 = 1 then U256 (r * b) else r) (U256 (b * b))
    have hbit : word % 2 ^ (k + 1) = word % 2 + 2 * (word / 2 % 2 ^ k) := by
      rw [pow_succ', Nat.mod_mul]
    have hr : (if word % 2 = 1 then U256 (r * b) else r) ≡ r * b ^ (word % 2) [ZMOD 2 ^ 256] := by
      rcases Nat.mod_two_eq_zero_or_one word with h | h
      · simp [h, Int.ModEq.refl]
      · simpa [h] using u256_modEq (r * b)
    have hb : U256 (b * b) ≡ b ^ 2 [ZMOD 2 ^ 256] := by
      rw [sq]
      exact u256_modEq _
    refine ⟨?_, ?_⟩
    · calc (expWord word (k + 1) (r, b)).1
          = (expWord (word / 2) k
              (if word % 2 = 1 then U256 (r * b) else r, U256 (b * b))).1 := rfl
        _ ≡ (if word % 2 = 1 then U256 (r * b) else r) * U256 (b * b) ^ (word / 2 % 2 ^ k)
            [ZMOD 2 ^ 256] := hres
        _ ≡ r * b ^ (word % 2) * (b ^ 2) ^ (word / 2 % 2 ^ k) [ZMOD 2 ^ 256] := hr.mul (hb.pow _)
        _ = r * b ^ (word % 2 ^ (k + 1)) := by
          rw [hbit, pow_add, pow_mul, mul_assoc]
    · calc (expWord word (k + 1) (r, b)).2
          = (expWord (word / 2) k
              (if word % 2 = 1 then U256 (r * b) else r, U256 (b * b))).2 := rfl
        _ ≡ U256 (b * b) ^ 2 ^ k [ZMOD 2 ^ 256] := hbase
        _ ≡ (b ^ 2) ^ 2 ^ k [ZMOD 2 ^ 256] := hb.pow _
        _ = b ^ 2 ^ (k + 1) := by rw [← pow_mul, pow_succ']

/-- The result stays a 256-bit word. -/
theorem expWord_fst_mem (word k : Nat) {r : Int} (h0 : 0 ≤ r) (h : r < 2 ^ 256) (b : Int) :
    0 ≤ (expWord word k (r, b)).1 ∧ (expWord word k (r, b)).1 < 2 ^ 256 := by
  induction k generalizing word r b with
  | zero => exact ⟨h0, h⟩
  | succ k ih =>
    apply ih
    · split
      · exact u256_nonneg _
      · exact h0
    · split
      · exact u256_lt _
      · exact h

/-- The loop over the words: each word multiplies in `base ^ word` and raises the base to the
power `2 ^ 64`, which is the power of the number the words are the digits of. -/
theorem foldl_expWord_modEq (ws : List Nat) (hws : ∀ w ∈ ws, w < 2 ^ 64) (r b : Int) :
    (ws.foldl (fun rb word => expWord word 64 rb) (r, b)).1 ≡
      r * b ^ Nat.ofDigits (2 ^ 64) ws [ZMOD 2 ^ 256] := by
  induction ws generalizing r b with
  | nil => simp [Int.ModEq.refl]
  | cons w ws ih =>
    obtain ⟨hres, hbase⟩ := expWord_modEq w 64 r b
    have hw : w % 2 ^ 64 = w := Nat.mod_eq_of_lt (hws w (by simp))
    rw [hw] at hres
    have hrest := ih (fun v hv => hws v (by simp [hv])) (expWord w 64 (r, b)).1 (expWord w 64 (r, b)).2
    calc (List.foldl (fun rb word => expWord word 64 rb) (r, b) (w :: ws)).1
        = (List.foldl (fun rb word => expWord word 64 rb)
            ((expWord w 64 (r, b)).1, (expWord w 64 (r, b)).2) ws).1 := rfl
      _ ≡ (expWord w 64 (r, b)).1 * (expWord w 64 (r, b)).2 ^ Nat.ofDigits (2 ^ 64) ws
          [ZMOD 2 ^ 256] := hrest
      _ ≡ r * b ^ w * (b ^ 2 ^ 64) ^ Nat.ofDigits (2 ^ 64) ws [ZMOD 2 ^ 256] :=
          hres.mul (hbase.pow _)
      _ = r * b ^ Nat.ofDigits (2 ^ 64) (w :: ws) := by
          rw [Nat.ofDigits_cons, pow_add, pow_mul, mul_assoc]

theorem foldl_expWord_mem (ws : List Nat) {r : Int} (h0 : 0 ≤ r) (h : r < 2 ^ 256) (b : Int) :
    0 ≤ (ws.foldl (fun rb word => expWord word 64 rb) (r, b)).1 ∧
      (ws.foldl (fun rb word => expWord word 64 rb) (r, b)).1 < 2 ^ 256 := by
  induction ws generalizing r b with
  | nil => exact ⟨h0, h⟩
  | cons w ws ih =>
    obtain ⟨hw0, hw⟩ := expWord_fst_mem w 64 h0 h b
    exact ih hw0 hw _

/-- `Exp` is the power modulo `2 ^ 256`, for every base and every exponent, `0 ^ 0` being `1`. -/
theorem exp_eq (b : Int) (e : Nat) : Exp b e = b ^ e % 2 ^ 256 := by
  have hdigits : ∀ w ∈ Nat.digits (2 ^ 64) e, w < 2 ^ 64 :=
    fun w hw => Nat.digits_lt_base (by norm_num) hw
  have hmod := foldl_expWord_modEq _ hdigits 1 b
  obtain ⟨h0, hlt⟩ := foldl_expWord_mem (Nat.digits (2 ^ 64) e) (r := 1) (by norm_num) (by norm_num) b
  rw [Nat.ofDigits_digits, one_mul] at hmod
  unfold Exp
  rw [Int.natAbs_natCast, ← Int.emod_eq_of_lt h0 hlt]
  exact hmod

end Ccmchain.Common
