import Ccmchain.Rlp.Decode
import Ccmchain.Rlp.Raw

/-!
# Unsigned integers (`rlp/encode.go`, `rlp/decode.go`)

`writeUint` encodes a `uint64` as the shortest big-endian string of its value: zero is the
empty string, and a number below 128 stands for itself. `Stream.uint(maxbits)` reads such a
string back, and refuses every other form. It refuses the byte zero, a one-byte string below
128 and a leading zero byte, and content longer than `maxbits / 8` bytes (`errUintOverflow`).
So the stream reads back what `writeUint` wrote (`uint_writeUint`), and what it accepts is
`writeUint`'s output (`uint_sound`).
-/

namespace Ccmchain.Rlp

open EStateM

/-- `writeUint`. -/
def writeUint (i : UInt64) (w : Encbuf) : Encbuf :=
  if i = 0 then { w with str := w.str ++ [0x80] }
  else if i < 128 then { w with str := w.str ++ [i.toUInt8] }
  else
    let s := putint i.toNat
    { w with str := w.str ++ ((0x80 + s.length.toUInt8) :: s) }

/-- `Stream.uint(maxbits)`. -/
def Stream.uint (maxbits : Nat) : StreamM Nat := do
  let (kind, size) ← Stream.Kind
  match kind with
  | .byte =>
    let s ← get
    if s.byteval = 0 then throw .canonInt
    set { s with kind := none }
    pure s.byteval.toNat
  | .string =>
    if size > maxbits / 8 then throw .uintOverflow
    match ← attempt (readUint size) with
    | .error .canonSize => throw .canonInt
    | .error err => throw err
    | .ok v => if size > 0 ∧ v < 128 then throw .canonSize else pure v
  | .list => throw .expectedString

/-- `uint` once `Kind` has read a byte: the byte, unless it is zero. -/
theorem uint_of_kind_byte {s s₁ : Stream} {maxbits size : Nat}
    (h : Stream.Kind s = .ok (.byte, size) s₁) :
    Stream.uint maxbits s =
      if s₁.byteval = 0 then .error .canonInt s₁
      else .ok s₁.byteval.toNat { s₁ with kind := none } := by
  rw [Stream.uint, bind_of_ok h]
  dsimp only
  rw [get_bind_apply, ite_apply_state]
  split <;> rfl

/-- `uint` once `Kind` has read a string header: at most `maxbits / 8` bytes, read by `readUint`,
whose leading zero is `ErrCanonInt`, and not a single byte below 128. -/
theorem uint_of_kind_string {s s₁ : Stream} {maxbits size : Nat}
    (h : Stream.Kind s = .ok (.string, size) s₁) :
    Stream.uint maxbits s =
      if size > maxbits / 8 then .error .uintOverflow s₁
      else match readUint size s₁ with
        | .error .canonSize s₂ => .error .canonInt s₂
        | .error e s₂ => .error e s₂
        | .ok v s₂ => if size > 0 ∧ v < 128 then .error .canonSize s₂ else .ok v s₂ := by
  rw [Stream.uint, bind_of_ok h]
  dsimp only
  rw [ite_apply_state]
  split
  · rfl
  · rw [bind_apply]
    rcases hr : readUint size s₁ with ⟨v, s₂⟩ | ⟨e, s₂⟩
    · rw [attempt_of_ok hr]
      dsimp only
      rw [ite_apply_state]
      split <;> rfl
    · rw [attempt_of_error hr]
      cases e <;> rfl

theorem uint_of_kind_list {s s₁ : Stream} {maxbits size : Nat}
    (h : Stream.Kind s = .ok (.list, size) s₁) :
    Stream.uint maxbits s = .error .expectedString s₁ := by
  rw [Stream.uint, bind_of_ok h]
  rfl

theorem readUint_zero (s : Stream) : readUint 0 s = .ok 0 { s with kind := none } := rfl

/-! ### What `writeUint` writes -/

/-- The canonical encoding of a `uint64`: the empty string for zero, the byte itself below 128,
and otherwise a string header over the shortest big-endian bytes. -/
theorem writeUint_str (x : UInt64) (w : Encbuf) :
    (writeUint x w).str = w.str ++
      if x = 0 then header 0x80 0
      else if x < 128 then [x.toUInt8]
      else header 0x80 (BigEndian.ofNat x.toNat).length ++ BigEndian.ofNat x.toNat := by
  unfold writeUint
  split_ifs with h0 h128
  · rfl
  · rfl
  · have hpos : 0 < x.toNat := by
      rw [← UInt64.toNat_inj] at h0
      simp only [UInt64.toNat_zero] at h0
      omega
    have hlen : (BigEndian.ofNat x.toNat).length ≤ 8 :=
      (BigEndian.length_ofNat_le_iff _ 8).2 (by simpa using x.toNat_lt)
    rw [putint_eq_ofNat hpos x.toNat_lt,
      header_short (by omega : (BigEndian.ofNat x.toNat).length < 56)]
    rfl

theorem length_ofNat_of_ge {x : UInt64} (h128 : ¬x < 128) :
    1 ≤ (BigEndian.ofNat x.toNat).length ∧ (BigEndian.ofNat x.toNat).length ≤ 8 ∧
      (BigEndian.ofNat x.toNat).head? ≠ some 0 ∧ 128 ≤ x.toNat := by
  have hge : 128 ≤ x.toNat := by
    rw [UInt64.lt_iff_toNat_lt] at h128
    simpa using h128
  exact ofNat_size_field (by omega) x.toNat_lt |>.imp id (·.imp id (⟨·, hge⟩))

/-! ### Reading back -/

/-- `uint` reads back what `writeUint` wrote, from anywhere in a stream, when it fits
`maxbits / 8` bytes. -/
theorem uint_writeUint {maxbits : Nat} {x : UInt64} (hx : x.toNat < 256 ^ (maxbits / 8))
    {s : Stream} {rest : Bytes} (hk : s.kind = none)
    (hs : s.r = (writeUint x .empty).str ++ rest)
    (hroom : s.Room (writeUint x .empty).str.length) :
    ∃ s', Stream.uint maxbits s = .ok x.toNat s' ∧ s'.r = rest := by
  rw [writeUint_str] at hs hroom
  simp only [Encbuf.empty, List.nil_append] at hs hroom
  split_ifs at hs hroom with h0 h128
  · -- zero is the empty string
    subst h0
    obtain ⟨s₁, hkind, hr, -⟩ :=
      kind_of_header hk (.string (by norm_num)) (by simpa using hroom) hs
    refine ⟨{ s₁ with kind := none }, ?_, hr⟩
    rw [uint_of_kind_string hkind, if_neg (by omega), readUint_zero]
    rfl
  · -- a number below 128 is its own byte
    have hb : x.toUInt8 < 0x80 := by
      rw [UInt8.lt_iff_toNat_lt, UInt64.toNat_toUInt8]
      rw [UInt64.lt_iff_toNat_lt] at h128
      simp only [UInt64.toNat_ofNat] at h128
      simp
      omega
    obtain ⟨s₁, hkind, hr, -, hbv, -⟩ :=
      kind_of_header hk (.byte hb) (by simpa using hroom) (by simpa using hs)
    have hx0 : x.toUInt8 ≠ 0 := by
      intro hz
      have h := congrArg UInt8.toNat hz
      rw [UInt64.toNat_toUInt8] at h
      apply h0
      rw [← UInt64.toNat_inj]
      rw [UInt64.lt_iff_toNat_lt] at h128
      simp only [UInt64.toNat_ofNat, UInt8.toNat_zero] at h128 h ⊢
      omega
    refine ⟨{ s₁ with kind := none }, ?_, hr⟩
    rw [uint_of_kind_byte hkind, hbv, if_neg hx0, UInt64.toNat_toUInt8, Nat.mod_eq_of_lt]
    rw [UInt64.lt_iff_toNat_lt] at h128
    simpa using h128.trans (by norm_num : 128 < 2 ^ 8)
  · -- the shortest big-endian bytes, under a header counting them
    obtain ⟨h1, h8, hz, hge⟩ := length_ofNat_of_ge h128
    have hn : (BigEndian.ofNat x.toNat).length ≤ maxbits / 8 :=
      (BigEndian.length_ofNat_le_iff _ _).2 hx
    obtain ⟨s₁, hkind, hr, hadv, -⟩ :=
      kind_of_header hk (.string (by omega : (BigEndian.ofNat x.toNat).length < 2 ^ 64))
        (by simpa using hroom) (by rw [hs, List.append_assoc])
    have hroom₁ : s₁.Room (BigEndian.ofNat x.toNat).length := hadv.room (by simpa using hroom)
    have hread := (readUint_eq_ok h1 h8).2 ⟨hroom₁, _, rest, rfl, .inr hz, hr, rfl, rfl⟩
    refine ⟨{ s₁.charge (BigEndian.ofNat x.toNat).length with r := rest }, ?_, rfl⟩
    rw [uint_of_kind_string hkind, if_neg (by omega), hread, BigEndian.toNat_ofNat]
    dsimp only
    rw [if_neg (by omega)]

/-- A number below `2 ^ 64` with the given canonical encoding. -/
theorem writeUint_of_toNat {v : Nat} {buf : Bytes} (hbuf : BigEndian.ofNat v = buf)
    (h128 : 128 ≤ v) (h64 : v < 2 ^ 64) :
    (writeUint (UInt64.ofNat v) .empty).str = header 0x80 buf.length ++ buf := by
  have hx : (UInt64.ofNat v).toNat = v := UInt64.toNat_ofNat_of_lt' h64
  have hne : ¬UInt64.ofNat v < 128 := by
    rw [UInt64.lt_iff_toNat_lt, hx]
    simpa using h128
  have h0 : UInt64.ofNat v ≠ 0 := by
    intro h
    rw [← UInt64.toNat_inj, hx] at h
    simp at h
    omega
  rw [writeUint_str, if_neg h0, if_neg hne, hx, hbuf]
  rfl

/-- What `uint` accepts is `writeUint`'s encoding of the number it returns, which fits
`maxbits / 8` bytes; the stream is left after it. -/
theorem uint_sound {maxbits : Nat} (h8 : 8 ≤ maxbits) (h64 : maxbits ≤ 64) {s s' : Stream}
    {v : Nat} (hk : s.kind = none) (h : Stream.uint maxbits s = .ok v s') :
    ∃ x : UInt64, x.toNat = v ∧ v < 256 ^ (maxbits / 8) ∧
      s.r = (writeUint x .empty).str ++ s'.r := by
  have hw1 : 1 ≤ maxbits / 8 := by omega
  have hw8 : maxbits / 8 ≤ 8 := by omega
  obtain ⟨⟨k, size⟩, s₁, hkind, -⟩ := bind_eq_ok.1 (by rw [Stream.uint] at h; exact h)
  obtain ⟨bv, hdr, hh, hs, hadv, hbv, -⟩ := kind_header hk hkind
  cases hh with
  | byte hb =>
    -- a byte stands for itself, and zero is refused
    rw [uint_of_kind_byte hkind, hbv] at h
    split_ifs at h with hb0
    cases h
    have hbv : bv.toNat < 128 := by simpa [UInt8.lt_iff_toNat_lt] using hb
    have hx0 : bv.toUInt64 ≠ 0 := by
      intro hz
      apply hb0
      rw [← UInt8.toNat_inj]
      simpa [← UInt64.toNat_inj] using hz
    have hx128 : bv.toUInt64 < 128 := by
      rw [UInt64.lt_iff_toNat_lt, UInt8.toNat_toUInt64]
      simpa using hbv
    refine ⟨bv.toUInt64, UInt8.toNat_toUInt64 bv, ?_, ?_⟩
    · calc bv.toNat < 256 ^ 1 := by omega
        _ ≤ 256 ^ (maxbits / 8) := Nat.pow_le_pow_right (by norm_num) hw1
    · rw [writeUint_str, if_neg hx0, if_pos hx128, UInt8.toUInt8_toUInt64, hs]
      rfl
  | string hn =>
    -- a string of at most `maxbits / 8` bytes, read by `readUint`
    rw [uint_of_kind_string hkind] at h
    split_ifs at h with hover
    rcases hr : readUint size s₁ with ⟨v₀, s₂⟩ | ⟨e, s₂⟩
    · rw [hr] at h
      dsimp only at h
      split_ifs at h with hsmall
      cases h
      rcases Nat.eq_zero_or_pos size with rfl | hpos
      · -- the empty string is zero
        rw [readUint_zero] at hr
        cases hr
        refine ⟨0, rfl, Nat.pow_pos (by norm_num), ?_⟩
        rw [writeUint_str, if_pos rfl, hs]
        rfl
      · obtain ⟨-, buf, rest, hlen, hcanon, hs₁, rfl, rfl⟩ := (readUint_eq_ok hpos (by omega)).1 hr
        have hlt : BigEndian.toNat buf < 256 ^ size := hlen ▸ BigEndian.toNat_lt buf
        have hge : 128 ≤ BigEndian.toNat buf := by omega
        -- a leading zero would make a one-byte string zero
        have hhead : buf.head? ≠ some 0 := by
          rcases hcanon with rfl | hz
          · obtain ⟨c, rfl⟩ := List.length_eq_one_iff.mp hlen
            rintro ⟨⟩
            simp [BigEndian.toNat_cons] at hge
          · exact hz
        have h64 : BigEndian.toNat buf < 2 ^ 64 :=
          calc BigEndian.toNat buf < 256 ^ size := hlt
            _ ≤ 256 ^ 8 := Nat.pow_le_pow_right (by norm_num) (by omega)
            _ = 2 ^ 64 := by norm_num
        refine ⟨UInt64.ofNat (BigEndian.toNat buf), UInt64.toNat_ofNat_of_lt' h64,
          lt_of_lt_of_le hlt (Nat.pow_le_pow_right (by norm_num) (by omega)), ?_⟩
        rw [writeUint_of_toNat (BigEndian.ofNat_toNat hhead) hge h64, hs, hs₁, hlen,
          List.append_assoc]
    · rw [hr] at h
      cases e <;> cases h
  | list hn =>
    rw [uint_of_kind_list hkind] at h
    cases h

/-- Content of more than `maxbits / 8` bytes is `errUintOverflow`. -/
theorem uint_overflow {maxbits n : Nat} (hn : maxbits / 8 < n) (h64 : n < 2 ^ 64) {s : Stream}
    {content rest : Bytes} (hk : s.kind = none) (hs : s.r = header 0x80 n ++ content ++ rest)
    (hroom : s.Room ((header 0x80 n).length + n)) :
    ∃ s', Stream.uint maxbits s = .error .uintOverflow s' := by
  obtain ⟨s₁, hkind, -⟩ := kind_of_header hk (.string h64) hroom (by rw [hs, List.append_assoc])
  exact ⟨s₁, by rw [uint_of_kind_string hkind, if_pos hn]⟩

theorem two_pow_width {w : Nat} (hw : w = 8 ∨ w = 16 ∨ w = 32 ∨ w = 64) :
    2 ^ w = 256 ^ (w / 8) ∧ 8 ≤ w ∧ w ≤ 64 := by
  rcases hw with rfl | rfl | rfl | rfl <;> norm_num

/-- At the widths 8, 16, 32 and 64, a stream over `writeUint`'s output reads the number back;
what `uint` accepts from a byte string starts with `writeUint`'s encoding of the number it
returns; and content longer than `w / 8` bytes is `errUintOverflow`. -/
theorem uint_roundtrip_canonical (w : Nat) (hw : w = 8 ∨ w = 16 ∨ w = 32 ∨ w = 64) :
    (∀ x : UInt64, x.toNat < 2 ^ w →
      ∃ s', Stream.uint w (Stream.reset (writeUint x .empty).str
        (writeUint x .empty).str.length) = .ok x.toNat s') ∧
    (∀ (b : Bytes) (v : Nat) (s' : Stream), Stream.uint w (Stream.reset b b.length) = .ok v s' →
      ∃ x : UInt64, x.toNat = v ∧ v < 2 ^ w ∧ b = (writeUint x .empty).str ++ s'.r) ∧
    (∀ (n : Nat) (content rest : Bytes), w / 8 < n → n < 2 ^ 64 → content.length = n →
      ∃ s', Stream.uint w (Stream.reset (header 0x80 n ++ content ++ rest)
        (header 0x80 n ++ content ++ rest).length) = .error .uintOverflow s') := by
  obtain ⟨hpow, h8, h64⟩ := two_pow_width hw
  refine ⟨fun x hx => ?_, fun b v s' h => ?_, fun n content rest hn hn64 hlen => ?_⟩
  · obtain ⟨s', h, -⟩ := @uint_writeUint w x (hpow ▸ hx) _ [] rfl (by simp [Stream.reset])
      (room_reset _)
    exact ⟨s', h⟩
  · obtain ⟨x, hx, hv, hb⟩ := uint_sound h8 h64 rfl h
    exact ⟨x, hx, hpow ▸ hv, hb⟩
  · refine uint_overflow hn hn64 rfl rfl ((room_reset _).mono ?_)
    simp [hlen]

theorem uint_roundtrip_canonical_three_hundred :
    ∃ s', Stream.uint 64 (Stream.reset (writeUint 300 .empty).str
      (writeUint 300 .empty).str.length) = .ok (300 : UInt64).toNat s' :=
  (uint_roundtrip_canonical 64 (by decide)).1 300 (by decide)

/-! ### Into a `uint64` -/

/-- `decodeUint` into a `uint64`, as `Decode` runs it on a fresh stream: `s.uint(64)`, with the
errors `wrapStreamError` gives for that type, where an overflowing string is "input string too
long". -/
def decodeUint : StreamM UInt64 :=
  adaptExcept
    (fun err => if err = .uintOverflow then .decodeError "input string too long" []
      else wrapStreamError err)
    (Nat.toUInt64 <$> Stream.uint 64)

/-- A reader that has not been given a limit takes the length of its bytes. -/
theorem reset_zero (b : Bytes) : Stream.reset b 0 = Stream.reset b b.length := by
  simp only [Stream.reset, gt_iff_lt, Nat.lt_irrefl, if_false]
  split <;> rfl

/-- Decoding a message code reads back what `writeUint` wrote at the front of a buffer, and
leaves the rest of it. -/
theorem decodeUint_writeUint (x : UInt64) (rest : Bytes) :
    ∃ s', decodeUint (Stream.reset ((writeUint x .empty).str ++ rest) 0) = .ok x s' ∧
      s'.r = rest := by
  have hx : x.toNat < 256 ^ (64 / 8) := by simpa using x.toNat_lt
  have hroom := room_reset ((writeUint x .empty).str ++ rest)
  rw [List.length_append] at hroom
  obtain ⟨s', h, hr⟩ := @uint_writeUint 64 x hx (Stream.reset _ 0) rest rfl rfl
    (by rw [reset_zero, List.length_append]; exact hroom.mono (Nat.le_add_right _ _))
  refine ⟨s', ?_, hr⟩
  simp only [decodeUint, adaptExcept_eq_ok, Functor.map, EStateM.map, h, UInt64.ofNat_toNat]

end Ccmchain.Rlp
