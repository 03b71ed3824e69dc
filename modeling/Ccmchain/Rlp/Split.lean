import Ccmchain.Rlp.Raw
import Ccmchain.Rlp.Encode

/-!
# `SplitString`, `SplitList` and `CountValues` (`rlp/raw.go`)

The readers of `raw.go` that the trie node decoder calls, on top of `Split`. Each value `Split`
accepts takes at least one byte, so what follows it is shorter than the input; the decoder's
recursion and the loop of `CountValues` rest on that. On the encoding of a value, `Split` reads
back its kind and content (`split_enc_append`), so the three readers take apart what
`rlp.Encode` writes.

As for `Split`, an error of the outer `Except` is a Go panic, and the `Option RlpError` is the
error Go returns.
-/

namespace Ccmchain.Rlp

/-- The message of an error the readers return. -/
def RlpError.message : RlpError → String
  | .eol => "rlp: end of list"
  | .expectedString => "rlp: expected String or Byte"
  | .expectedList => "rlp: expected List"
  | .canonInt => "rlp: non-canonical integer format"
  | .canonSize => "rlp: non-canonical size information"
  | .elemTooLarge => "rlp: element is larger than containing list"
  | .valueTooLarge => "rlp: value size exceeds available input length"
  | .moreThanOneValue => "rlp: input contains more than one value"
  | .notInList => "rlp: call of ListEnd outside of any list"
  | .notAtEOL => "rlp: call of ListEnd not positioned at EOL"
  | .uintOverflow => "rlp: uint overflow"
  | .eof => "EOF"
  | .unexpectedEOF => "unexpected EOF"
  | .decodeError msg _ => "rlp: " ++ msg
  | .outOfFuel => "rlp: out of fuel"

/-- `SplitString`: the content of the string or byte at the start of `b` and what follows it. -/
def SplitString (b : Bytes) : Except String (Bytes × Bytes × Option RlpError) := do
  let (k, content, rest, err) ← Split b
  match err with
  | some err => pure ([], b, some err)
  | none => if k = .list then pure ([], b, some .expectedString) else pure (content, rest, none)

/-- `SplitList`: the payload of the list at the start of `b` and what follows it. -/
def SplitList (b : Bytes) : Except String (Bytes × Bytes × Option RlpError) := do
  let (k, content, rest, err) ← Split b
  match err with
  | some err => pure ([], b, some err)
  | none => if k ≠ .list then pure ([], b, some .expectedList) else pure (content, rest, none)

/-! ### What the readers consume -/

theorem readSize_eq_ok {b : Bytes} {slen : Nat} {s : UInt64} (h : Raw.readSize b slen = .ok s) :
    slen ≤ b.length := by
  by_contra hc
  rw [Raw.readSize, if_pos (by omega)] at h
  cases h

theorem toNat_tagSize (x : UInt8) : (x.toUInt64 + 1).toNat = x.toNat + 1 := by
  have := x.toNat_lt
  rw [UInt64.toNat_add, UInt8.toNat_toUInt64]
  simp only [UInt64.reduceToNat]
  omega

/-- What the switch of `readKind` returns when it accepts. -/
theorem readTag_eq_ok {c : UInt8} {rest : Bytes} {k : Kind} {ts cs : UInt64}
    (h : Raw.readTag c rest = .ok (k, ts, cs)) :
    (k = .byte ∧ ts = 0 ∧ cs = 1) ∨ (k ≠ .byte ∧ 0 < ts.toNat ∧ ts.toNat ≤ rest.length + 1) := by
  unfold Raw.readTag at h
  by_cases h80 : c < 0x80
  · rw [if_pos h80] at h
    cases h
    exact .inl ⟨rfl, rfl, rfl⟩
  rw [if_neg h80] at h
  by_cases hB8 : c < 0xB8
  · rw [if_pos hB8] at h
    dsimp only at h
    split_ifs at h
    cases h
    exact .inr ⟨by decide, by decide, by simp⟩
  rw [if_neg hB8] at h
  -- a long header reads its size field before the content
  have hlong : ∀ {k' : Kind} {d : UInt8},
      (do let contentsize ← Raw.readSize rest d.toNat; pure (k', d.toUInt64 + 1, contentsize) :
        Except RlpError (Kind × UInt64 × UInt64)) = .ok (k, ts, cs) →
      k' ≠ .byte → k ≠ .byte ∧ 0 < ts.toNat ∧ ts.toNat ≤ rest.length + 1 := by
    intro k' d h hk'
    simp only [bind, Except.bind] at h
    cases hs : Raw.readSize rest d.toNat with
    | error e =>
      rw [hs] at h
      cases h
    | ok s =>
      rw [hs] at h
      cases h
      have := readSize_eq_ok hs
      refine ⟨hk', ?_, ?_⟩ <;> rw [toNat_tagSize] <;> omega
  by_cases hC0 : c < 0xC0
  · rw [if_pos hC0] at h
    exact .inr (hlong h (by decide))
  rw [if_neg hC0] at h
  by_cases hF8 : c < 0xF8
  · rw [if_pos hF8] at h
    cases h
    exact .inr ⟨by decide, by decide, by simp⟩
  rw [if_neg hF8] at h
  exact .inr (hlong h (by decide))

/-- What `readKind` returns when it accepts: one byte that is its own value, or a header of a
string or a list that fits the input, followed by a size that fits what is left. -/
theorem readKind_eq_ok {b : Bytes} {k : Kind} {ts cs : UInt64} (h : Raw.readKind b = .ok (k, ts, cs)) :
    b ≠ [] ∧ ((k = .byte ∧ ts = 0 ∧ cs = 1) ∨
      (k ≠ .byte ∧ 0 < ts.toNat ∧ ts.toNat ≤ b.length ∧ cs ≤ b.length.toUInt64 - ts)) := by
  cases b with
  | nil => cases h
  | cons c rest =>
    refine ⟨List.cons_ne_nil _ _, ?_⟩
    simp only [Raw.readKind, bind, Except.bind] at h
    cases ht : Raw.readTag c rest with
    | error e =>
      rw [ht] at h
      cases h
    | ok r =>
      obtain ⟨k', ts', cs'⟩ := r
      rw [ht] at h
      dsimp only at h
      split_ifs at h with hfit
      cases h
      rcases readTag_eq_ok ht with hb | ⟨hk, h0, hle⟩
      · exact .inl hb
      · exact .inr ⟨hk, h0, by simpa using hle, UInt64.not_lt.mp hfit⟩

theorem slice_eq_ok {b r : Bytes} {lo hi : UInt64} (h : slice b lo hi = .ok r) :
    lo ≤ hi ∧ hi.toNat ≤ b.length ∧ r = (b.take hi.toNat).drop lo.toNat := by
  unfold slice at h
  split_ifs at h with hs
  cases h
  exact ⟨hs.1, hs.2, rfl⟩

/-- A value `Split` accepts is not empty, so what follows it is shorter than the input, and so
is the content of a string or a list, which comes after a tag byte. -/
theorem split_eq_ok_none {b c r : Bytes} {k : Kind} (h : Split b = .ok (k, c, r, none)) :
    r.length < b.length ∧ (k ≠ .byte → c.length < b.length) := by
  unfold Split at h
  cases hk : Raw.readKind b with
  | error e =>
    rw [hk] at h
    cases h
  | ok v =>
    obtain ⟨k', ts, cs⟩ := v
    rw [hk] at h
    simp only [bind, Except.bind] at h
    cases hc : slice b ts (ts + cs) with
    | error e =>
      rw [hc] at h
      cases h
    | ok c' =>
      rw [hc] at h
      cases hr : slice b (ts + cs) b.length.toUInt64 with
      | error e =>
        rw [hr] at h
        cases h
      | ok r' =>
        rw [hr] at h
        cases h
        obtain ⟨hle, hhi, rfl⟩ := slice_eq_ok hc
        obtain ⟨-, hL, rfl⟩ := slice_eq_ok hr
        have hle' := UInt64.le_iff_toNat_le.mp hle
        obtain ⟨hne, hkind⟩ := readKind_eq_ok hk
        have hlen := List.length_pos_iff.mpr hne
        rcases hkind with ⟨rfl, rfl, rfl⟩ | ⟨hkb, h0, -, -⟩
        · refine ⟨?_, fun h => absurd rfl h⟩
          simp only [List.length_drop, List.length_take]
          have : (0 + 1 : UInt64).toNat = 1 := rfl
          omega
        · refine ⟨?_, fun _ => ?_⟩ <;> simp only [List.length_drop, List.length_take] <;> omega

/-- `countValues b i`, the loop of `CountValues` with `i` values counted: each turn reads a
header and drops the value it starts. -/
theorem countValues_step_lt {b b' : Bytes} {k : Kind} {ts cs : UInt64}
    (hk : Raw.readKind b = .ok (k, ts, cs)) (hs : slice b (ts + cs) b.length.toUInt64 = .ok b') :
    b'.length < b.length := by
  obtain ⟨-, hL, rfl⟩ := slice_eq_ok hs
  obtain ⟨hne, hkind⟩ := readKind_eq_ok hk
  have hlen := List.length_pos_iff.mpr hne
  simp only [List.length_drop, List.length_take]
  by_cases h64 : b.length < 2 ^ 64
  · have hLn : b.length.toUInt64.toNat = b.length := by
      simp only [Nat.toUInt64]
      exact Nat.mod_eq_of_lt h64
    rcases hkind with ⟨-, rfl, rfl⟩ | ⟨-, h0, hts, hcs⟩
    · have : (0 + 1 : UInt64).toNat = 1 := rfl
      omega
    · -- the size fits after the tag, so the sum of the two does not wrap
      have hcs' : cs.toNat ≤ b.length - ts.toNat := by
        rw [UInt64.le_iff_toNat_le, UInt64.toNat_sub_of_le _ _ (UInt64.le_iff_toNat_le.mpr
          (by omega)), hLn] at hcs
        exact hcs
      have hsum : (ts + cs).toNat = ts.toNat + cs.toNat := by
        rw [UInt64.toNat_add]
        exact Nat.mod_eq_of_lt (by omega)
      omega
  · have : b.length.toUInt64.toNat < b.length := by
      simp only [Nat.toUInt64]
      exact Nat.lt_of_lt_of_le (Nat.mod_lt _ (by norm_num)) (by omega)
    omega

/-- The loop of `CountValues`, with `i` values counted so far: each turn reads a header and
drops the value it starts. -/
def countValues (b : Bytes) (i : Nat) : Except String (Nat × Option RlpError) :=
  if b.length > 0 then
    match _hk : Raw.readKind b with
    | .error err => pure (0, some err)
    | .ok (_, tagsize, size) =>
      match hs : slice b (tagsize + size) b.length.toUInt64 with
      | .error e => .error e
      | .ok rest => countValues rest (i + 1)
  else pure (i, none)
termination_by b.length
decreasing_by exact countValues_step_lt _hk hs

/-- `CountValues`: the number of values encoded one after the other in `b`. -/
def CountValues (b : Bytes) : Except String (Nat × Option RlpError) :=
  countValues b 0

/-! ### The readers never panic

On any input a Go slice can hold. -/

theorem split_ok {b : Bytes} (hb : b.length < 2 ^ 63) : ∃ v, Split b = .ok v :=
  ⟨_, split_eq_head b hb⟩

theorem splitString_ok {b : Bytes} (hb : b.length < 2 ^ 63) : ∃ v, SplitString b = .ok v := by
  obtain ⟨⟨k, c, r, err⟩, hs⟩ := split_ok hb
  unfold SplitString
  rw [hs]
  cases err with
  | some e => exact ⟨_, rfl⟩
  | none => by_cases hk : k = .list <;> simp [bind, Except.bind, hk]

theorem splitList_ok {b : Bytes} (hb : b.length < 2 ^ 63) : ∃ v, SplitList b = .ok v := by
  obtain ⟨⟨k, c, r, err⟩, hs⟩ := split_ok hb
  unfold SplitList
  rw [hs]
  cases err with
  | some e => exact ⟨_, rfl⟩
  | none => by_cases hk : k = .list <;> simp [bind, Except.bind, hk]

/-- Where `readKind` accepts, the slice `countValues` takes after the value does not panic: it is
the second slice of `Split`, which never panics. -/
theorem slice_rest_ok {b : Bytes} (hb : b.length < 2 ^ 63) {k : Kind} {ts cs : UInt64}
    (hk : Raw.readKind b = .ok (k, ts, cs)) :
    ∃ rest, slice b (ts + cs) b.length.toUInt64 = .ok rest := by
  obtain ⟨v, hs⟩ := split_ok hb
  unfold Split at hs
  rw [hk] at hs
  simp only [bind, Except.bind] at hs
  cases hc : slice b ts (ts + cs) with
  | error e =>
    rw [hc] at hs
    cases hs
  | ok c =>
    rw [hc] at hs
    cases hr : slice b (ts + cs) b.length.toUInt64 with
    | error e =>
      rw [hr] at hs
      cases hs
    | ok r => exact ⟨r, rfl⟩

theorem countValues_ok (b : Bytes) (i : Nat) (hb : b.length < 2 ^ 63) :
    ∃ r, countValues b i = .ok r := by
  unfold countValues
  split_ifs with h0
  · split
    · exact ⟨_, rfl⟩
    · rename_i k ts cs hk
      obtain ⟨rest, hr⟩ := slice_rest_ok hb hk
      split
      · rename_i e he
        rw [hr] at he
        cases he
      · rename_i rest' hr'
        have hlt := countValues_step_lt hk hr'
        exact countValues_ok rest' (i + 1) (by omega)
  · exact ⟨_, rfl⟩
termination_by b.length

theorem splitList_lt {b c r : Bytes} (h : SplitList b = .ok (c, r, none)) : c.length < b.length := by
  unfold SplitList at h
  cases hs : Split b with
  | error e =>
    rw [hs] at h
    cases h
  | ok v =>
    obtain ⟨k, c', r', err⟩ := v
    rw [hs] at h
    cases err with
    | some e => cases h
    | none =>
      by_cases hk : k = .list
      · simp only [bind, Except.bind, hk, ne_eq, not_true_eq_false, if_false] at h
        cases h
        exact (split_eq_ok_none hs).2 (by rw [hk]; decide)
      · simp [bind, Except.bind, hk] at h

theorem splitString_rest_lt {b c r : Bytes} (h : SplitString b = .ok (c, r, none)) :
    r.length < b.length := by
  unfold SplitString at h
  cases hs : Split b with
  | error e =>
    rw [hs] at h
    cases h
  | ok v =>
    obtain ⟨k, c', r', err⟩ := v
    rw [hs] at h
    cases err with
    | some e => cases h
    | none =>
      by_cases hk : k = .list
      · simp [bind, Except.bind, hk] at h
      · simp only [bind, Except.bind, hk, if_false] at h
        cases h
        exact (split_eq_ok_none hs).1

/-! ### The readers on encodings -/

theorem head_header_append {k : Kind} {base : UInt8}
    (hk : k = .string ∧ base = 0x80 ∨ k = .list ∧ base = 0xC0) {n : Nat} (hn : n < 2 ^ 64)
    (rest : Bytes) : head (header base n ++ rest) = .header k (header base n).length n := by
  rcases Nat.lt_or_ge n 56 with h56 | h56
  · rw [header_short h56]
    rcases hk with ⟨rfl, rfl⟩ | ⟨rfl, rfl⟩
    · have hb : (0x80 + n.toUInt8 : UInt8).toNat = 128 + n :=
        toNat_tag (by simp only [UInt8.reduceToNat]; omega)
      simp only [List.cons_append, head, lt_of_toNat hb, UInt8.reduceToNat,
        toNat_sub_of_toNat hb (show (0x80 : UInt8).toNat ≤ 128 + n by simp)]
      rw [if_neg (by omega), if_pos (by omega)]
      simp
    · have hb : (0xC0 + n.toUInt8 : UInt8).toNat = 192 + n :=
        toNat_tag (by simp only [UInt8.reduceToNat]; omega)
      simp only [List.cons_append, head, lt_of_toNat hb, UInt8.reduceToNat,
        toNat_sub_of_toNat hb (show (0xC0 : UInt8).toNat ≤ 192 + n by simp)]
      rw [if_neg (by omega), if_neg (by omega), if_neg (by omega), if_pos (by omega)]
      simp
  · obtain ⟨h1, h8, hz⟩ := ofNat_size_field h56 hn
    rw [header_long h56]
    have hlong : longHead k (BigEndian.ofNat n).length (BigEndian.ofNat n ++ rest) =
        .header k ((BigEndian.ofNat n).length + 1) n := by
      unfold longHead
      have hne : BigEndian.ofNat n ≠ [] := List.ne_nil_of_length_pos (by omega)
      rw [List.take_left, BigEndian.toNat_ofNat, if_neg (by simp),
        if_neg (not_or.mpr ⟨by omega, by rw [List.head?_append_of_ne_nil _ hne]; exact hz⟩)]
    rcases hk with ⟨rfl, rfl⟩ | ⟨rfl, rfl⟩
    · have hb : ((0x80 : UInt8) + 55 + (BigEndian.ofNat n).length.toUInt8).toNat =
          183 + (BigEndian.ofNat n).length :=
        toNat_tag (by rw [show ((0x80 : UInt8) + 55).toNat = 183 from rfl]; omega)
      simp only [List.cons_append, head, lt_of_toNat hb, UInt8.reduceToNat,
        toNat_sub_of_toNat hb (show (0xB7 : UInt8).toNat ≤ 183 + (BigEndian.ofNat n).length by simp)]
      rw [if_neg (by omega), if_neg (by omega), if_pos (by omega)]
      simp only [Nat.add_sub_cancel_left, hlong, List.length_cons]
    · have hb : ((0xC0 : UInt8) + 55 + (BigEndian.ofNat n).length.toUInt8).toNat =
          247 + (BigEndian.ofNat n).length :=
        toNat_tag (by rw [show ((0xC0 : UInt8) + 55).toNat = 247 from rfl]; omega)
      simp only [List.cons_append, head, lt_of_toNat hb, UInt8.reduceToNat,
        toNat_sub_of_toNat hb (show (0xF7 : UInt8).toNat ≤ 247 + (BigEndian.ofNat n).length by simp)]
      rw [if_neg (by omega), if_neg (by omega), if_neg (by omega), if_neg (by omega)]
      simp only [Nat.add_sub_cancel_left, hlong, List.length_cons]

/-- The kind `Split` reads at the start of a value's encoding. -/
def RlpValue.kind : RlpValue → Kind
  | .str b => if isByte b then .byte else .string
  | .list _ => .list

/-- The content `Split` returns for a value: a string's bytes, a list's payload. -/
def RlpValue.content : RlpValue → Bytes
  | .str b => b
  | .list xs => encList xs

/-- `Split` reads back the value an encoding starts with. -/
theorem split_enc_append {v : RlpValue} (hv : v.Fits) (rest : Bytes)
    (hb : (v.enc ++ rest).length < 2 ^ 63) :
    Split (v.enc ++ rest) = .ok (v.kind, v.content, rest, none) := by
  rw [split_eq_head _ hb]
  cases v with
  | str b =>
    by_cases hbyte : isByte b
    · obtain ⟨x, rfl, hx⟩ : ∃ x, b = [x] ∧ x < 0x80 := by
        match b, hbyte with
        | [x], h => exact ⟨x, rfl, by simpa [isByte] using h⟩
      have hhead : head (x :: rest) = .byte := by simp [head, hx]
      simp [encString, hbyte, hhead, RlpValue.kind, RlpValue.content]
    · have hh := head_header_append (.inl ⟨rfl, rfl⟩) (show b.length < 2 ^ 64 from hv) (b ++ rest)
      simp only [enc_str, encString, hbyte, Bool.false_eq_true, if_false, List.append_assoc, hh]
      rw [List.drop_left, List.take_left, if_neg (by simp [hbyte]), if_neg (by simp)]
      simp [RlpValue.kind, RlpValue.content, hbyte, List.drop_append]
  | list xs =>
    have hh := head_header_append (.inr ⟨rfl, rfl⟩) hv.1 (encList xs ++ rest)
    simp only [enc_list, List.append_assoc, hh]
    rw [if_neg (by simp), if_neg (by simp)]
    simp [RlpValue.kind, RlpValue.content, List.drop_append]

theorem splitString_enc {b : Bytes} (hv : (RlpValue.str b).Fits) (rest : Bytes)
    (hb : ((RlpValue.str b).enc ++ rest).length < 2 ^ 63) :
    SplitString ((RlpValue.str b).enc ++ rest) = .ok (b, rest, none) := by
  unfold SplitString
  rw [split_enc_append hv rest hb]
  have hk : (RlpValue.str b).kind ≠ .list := by
    simp only [RlpValue.kind]
    split <;> decide
  simp [bind, Except.bind, hk, RlpValue.content]

theorem splitList_enc {xs : List RlpValue} (hv : (RlpValue.list xs).Fits) (rest : Bytes)
    (hb : ((RlpValue.list xs).enc ++ rest).length < 2 ^ 63) :
    SplitList ((RlpValue.list xs).enc ++ rest) = .ok (encList xs, rest, none) := by
  unfold SplitList
  rw [split_enc_append hv rest hb]
  simp [bind, Except.bind, RlpValue.kind, RlpValue.content]

/-- One turn of `countValues` drops the value `Split` reads. -/
theorem countValues_of_split {b c r : Bytes} {k : Kind} (h : Split b = .ok (k, c, r, none)) (i : Nat) :
    countValues b i = countValues r (i + 1) := by
  have hlt := (split_eq_ok_none h).1
  unfold Split at h
  rw [countValues, if_pos (by omega)]
  split
  · rename_i err he
    rw [he] at h
    cases h
  · rename_i k' ts cs hk
    rw [hk] at h
    simp only [bind, Except.bind] at h
    cases hc : slice b ts (ts + cs) with
    | error e =>
      rw [hc] at h
      cases h
    | ok c' =>
      rw [hc] at h
      cases hr : slice b (ts + cs) b.length.toUInt64 with
      | error e =>
        rw [hr] at h
        cases h
      | ok r' =>
        rw [hr] at h
        cases h
        rfl

/-- `CountValues` counts the elements of a list payload. -/
theorem countValues_encList : ∀ (xs : List RlpValue), FitsList xs → (encList xs).length < 2 ^ 63 →
    ∀ i, countValues (encList xs) i = .ok (i + xs.length, none)
  | [], _, _, i => by
    rw [countValues]
    simp
  | x :: xs, hf, hb, i => by
    rw [encList_cons] at hb ⊢
    rw [countValues_of_split (split_enc_append hf.1 _ hb),
      countValues_encList xs hf.2 (by simp at hb; omega) (i + 1)]
    simp only [List.length_cons]
    congr 2
    omega

end Ccmchain.Rlp
