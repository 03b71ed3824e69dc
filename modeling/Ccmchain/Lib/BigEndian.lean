import Mathlib

/-!
# Big-endian byte strings

A natural number written as bytes, most significant first, with no leading zero byte: the
length field of a length-prefixed encoding. `ofNat` and `toNat` are inverse on such strings,
and the length of `ofNat n` is the least `k` with `n < 256 ^ k`.
-/

namespace BigEndian

/-- The value of a big-endian byte string. -/
def toNat (l : List UInt8) : Nat :=
  Nat.ofDigits 256 (l.reverse.map UInt8.toNat)

/-- The shortest big-endian byte string of `n`; empty for zero. -/
def ofNat (n : Nat) : List UInt8 :=
  ((Nat.digits 256 n).map Nat.toUInt8).reverse

theorem toNat_cons (b : UInt8) (l : List UInt8) :
    toNat (b :: l) = b.toNat * 256 ^ l.length + toNat l := by
  simp only [toNat, List.reverse_cons, List.map_append, List.map_reverse, List.map_cons,
    List.map_nil, Nat.ofDigits_append, List.length_reverse, List.length_map, Nat.ofDigits_singleton]
  ring

@[simp] theorem toNat_nil : toNat [] = 0 := rfl

theorem toNat_append (l r : List UInt8) : toNat (l ++ r) = toNat l * 256 ^ r.length + toNat r := by
  induction l with
  | nil => simp
  | cons b l ih =>
    rw [List.cons_append, toNat_cons, toNat_cons, ih, List.length_append, pow_add]
    ring

/-- Leading zero bytes do not change the value. -/
theorem toNat_replicate_zero_append (k : Nat) (l : List UInt8) :
    toNat (List.replicate k 0 ++ l) = toNat l := by
  induction k with
  | zero => simp
  | succ k ih =>
    rw [List.replicate_succ, List.cons_append, toNat_cons, ih]
    simp

theorem toNat_lt (l : List UInt8) : toNat l < 256 ^ l.length := by
  have h := Nat.ofDigits_lt_base_pow_length (b := 256) (l := l.reverse.map UInt8.toNat) (by norm_num)
    (by simp only [List.mem_map, List.mem_reverse]; rintro _ ⟨b, -, rfl⟩; exact b.toNat_lt)
  unfold toNat
  simpa using h

theorem toNat_ofNat (n : Nat) : toNat (ofNat n) = n := by
  have hd : ∀ d ∈ Nat.digits 256 n, (UInt8.toNat ∘ Nat.toUInt8) d = id d := by
    intro d hd
    have := Nat.digits_lt_base (by norm_num) hd
    simp only [Function.comp_apply, Nat.toUInt8, UInt8.toNat_ofNat', id]
    omega
  rw [toNat, ofNat, List.reverse_reverse, List.map_map, List.map_congr_left (g := id) hd,
    List.map_id, Nat.ofDigits_digits]

theorem length_ofNat (n : Nat) : (ofNat n).length = (Nat.digits 256 n).length := by
  simp [ofNat]

/-- `ofNat n` fits in `k` bytes exactly when `n < 256 ^ k`. -/
theorem length_ofNat_le_iff (n k : Nat) : (ofNat n).length ≤ k ↔ n < 256 ^ k := by
  rw [length_ofNat]
  exact Nat.digits_length_le_iff (by norm_num) n

theorem ofNat_eq_nil_iff (n : Nat) : ofNat n = [] ↔ n = 0 := by
  simp [ofNat, Nat.digits_eq_nil_iff_eq_zero]

/-- The shortest string of a positive number starts with a non-zero byte. -/
theorem head_ofNat_ne_zero {n : Nat} {b : UInt8} {l : List UInt8} (h : ofNat n = b :: l) : b ≠ 0 := by
  have hn : n ≠ 0 := by
    intro h0
    rw [h0] at h
    simp [ofNat] at h
  have hlast := Nat.getLast_digit_ne_zero 256 hn
  have hb : b = ((Nat.digits 256 n).getLast (Nat.digits_ne_nil_iff_ne_zero.mpr hn)).toUInt8 := by
    have := congrArg List.head? h
    simp only [ofNat, List.head?_reverse, List.getLast?_map, List.head?_cons] at this
    rw [List.getLast?_eq_some_getLast (Nat.digits_ne_nil_iff_ne_zero.mpr hn)] at this
    simpa using this.symm
  have hlt := Nat.digits_lt_base (b := 256) (by norm_num)
    (List.getLast_mem (Nat.digits_ne_nil_iff_ne_zero.mpr hn))
  rw [hb]
  intro h0
  apply hlast
  have := congrArg UInt8.toNat h0
  simp only [Nat.toUInt8, UInt8.toNat_ofNat', UInt8.toNat_zero] at this
  omega

/-- A string with no leading zero byte is the shortest string of its value. -/
theorem ofNat_toNat {l : List UInt8} (h : l.head? ≠ some 0) : ofNat (toNat l) = l := by
  have hw₁ : ∀ d ∈ l.reverse.map UInt8.toNat, d < 256 := by
    simp only [List.mem_map, List.mem_reverse]
    rintro _ ⟨b, -, rfl⟩
    exact b.toNat_lt
  have hw₂ : ∀ (hne : l.reverse.map UInt8.toNat ≠ []), (l.reverse.map UInt8.toNat).getLast hne ≠ 0 := by
    intro hne
    cases l with
    | nil => simp at hne
    | cons b l =>
      simp only [List.reverse_cons, List.map_append, List.map_reverse, List.map_cons, List.map_nil]
      intro h0
      apply h
      simp only [List.head?_cons, Option.some.injEq]
      exact UInt8.toNat_inj.mp (by simpa using h0)
  rw [ofNat, toNat, Nat.digits_ofDigits 256 (by norm_num) _ hw₁ hw₂, List.map_map]
  have : (Nat.toUInt8 ∘ UInt8.toNat) = id := by
    funext b
    simp [Nat.toUInt8]
  rw [this, List.map_id, List.reverse_reverse]

/-- Bit `p` of a number written in base-256 digits, least significant first, is bit `p % 8` of
digit `p / 8`. -/
theorem testBit_ofDigits (ds : List Nat) (hds : ∀ d ∈ ds, d < 256) (p : Nat) :
    (Nat.ofDigits 256 ds).testBit p = (ds.getD (p / 8) 0).testBit (p % 8) := by
  induction ds generalizing p with
  | nil => simp
  | cons d ds ih =>
    have hd : d < 2 ^ 8 := hds d (by simp)
    rw [Nat.ofDigits_cons, show d + 256 * Nat.ofDigits 256 ds = 2 ^ 8 * Nat.ofDigits 256 ds + d by ring,
      Nat.testBit_two_pow_mul_add _ hd]
    split_ifs with hp
    · have h0 : p / 8 = 0 := by omega
      rw [h0, Nat.mod_eq_of_lt hp]
      rfl
    · have hs : p / 8 = (p - 8) / 8 + 1 := by omega
      rw [ih (fun d' hd' => hds d' (by simp [hd'])) (p - 8), hs, List.getD_cons_succ]
      congr 1
      omega

/-- Bit `p` of a big-endian byte string is bit `p % 8` of its `p / 8`-th byte from the end. -/
theorem testBit_toNat (l : List UInt8) (p : Nat) :
    (toNat l).testBit p = (l.reverse.getD (p / 8) 0).toNat.testBit (p % 8) := by
  have hds : ∀ d ∈ l.reverse.map UInt8.toNat, d < 256 := by
    simp only [List.mem_map, List.mem_reverse]
    rintro _ ⟨b, -, rfl⟩
    exact b.toNat_lt
  rw [toNat, testBit_ofDigits _ hds, ← UInt8.toNat_zero, List.getD_map]

end BigEndian
