import Mathlib.Data.Nat.Digits.Lemmas

/-!
# Hex quantities (`common/hexutil/hexutil.go`)

RPC quantities travel as `0x`-prefixed hex numbers without leading zero digits. `DecodeBig`
reads the digit string right to left in chunks of `bigWordNibbles` digits, one `big.Word` each,
and `SetBits` reads the words back as little-endian digits. A chunk never holds more digits than
a word, so the word arithmetic never wraps, and the value is the one the digits denote: the
decoder accepts exactly the canonical quantities up to 256 bits, and reads back what `EncodeBig`
and `EncodeUint64` write.

A Go string is its bytes here; strings are compared byte by byte, as Go indexes them.
-/

namespace Ccmchain.Hexutil

/-- A Go `string`, as its bytes. -/
abbrev Str := List UInt8

/-- The bytes of an ASCII literal. -/
def str (s : String) : Str := s.toList.map Char.toUInt8

/-- The errors the quantity decoders return. -/
inductive DecError where
  | emptyString
  | syntaxError
  | missingPrefix
  | emptyNumber
  | leadingZero
  | uint64Range
  | big256Range
  deriving DecidableEq, Repr

/-- `decError.Error`. -/
def DecError.message : DecError → String
  | .emptyString => "empty hex string"
  | .syntaxError => "invalid hex string"
  | .missingPrefix => "hex string without 0x prefix"
  | .emptyNumber => "hex string \"0x\""
  | .leadingZero => "hex number with leading zero digits"
  | .uint64Range => "hex number > 64 bits"
  | .big256Range => "hex number > 256 bits"

/-- `has0xPrefix`. -/
def has0xPrefix (input : Str) : Bool :=
  match input with
  | c0 :: c1 :: _ => c0 == '0'.toUInt8 && (c1 == 'x'.toUInt8 || c1 == 'X'.toUInt8)
  | _ => false

/-- `checkNumber`: the digits after the prefix. -/
def checkNumber (input : Str) : Except DecError Str :=
  if input.length = 0 then .error .emptyString
  else if !has0xPrefix input then .error .missingPrefix
  else
    let input := input.drop 2
    if input.length = 0 then .error .emptyNumber
    else if input.length > 1 ∧ input.head? = some '0'.toUInt8 then .error .leadingZero
    else .ok input

/-- `decodeNibble`; `none` is `badNibble`. -/
def decodeNibble (c : UInt8) : Option Nat :=
  if '0'.toUInt8 ≤ c ∧ c ≤ '9'.toUInt8 then some (c - '0'.toUInt8).toNat
  else if 'A'.toUInt8 ≤ c ∧ c ≤ 'F'.toUInt8 then some (c - 'A'.toUInt8 + 10).toNat
  else if 'a'.toUInt8 ≤ c ∧ c ≤ 'f'.toUInt8 then some (c - 'a'.toUInt8 + 10).toNat
  else none

/-- `bigWordNibbles` on a 64-bit platform, where a `big.Word` holds sixteen nibbles. -/
def bigWordNibbles : Nat := 16

/-- One word of `DecodeBig`: `words[i] *= 16; words[i] += nib` over the chunk, in a `big.Word`. -/
def decodeWord (chunk : Str) : Option Nat :=
  chunk.foldlM (fun w c => (decodeNibble c).map fun nib => (w * 16 + nib) % 16 ^ bigWordNibbles) 0

/-- The loop of `DecodeBig` over `count` words, the first one ending at `stop` (Go's `end`): each
word takes the `bigWordNibbles` digits before `stop`, or all of them if fewer are left. -/
def decodeWords (raw : Str) : Nat → Nat → Option (List Nat)
  | 0, _ => some []
  | count + 1, stop =>
    -- `start` is clamped at zero, as Go's `if start < 0`
    let start := stop - bigWordNibbles
    do
      let w ← decodeWord ((raw.take stop).drop start)
      let ws ← decodeWords raw count start
      pure (w :: ws)

/-- `big.Int.SetBits`: the words are the little-endian digits of the value. -/
def SetBits (words : List Nat) : Nat := Nat.ofDigits (16 ^ bigWordNibbles) words

/-- `DecodeBig`. -/
def DecodeBig (input : Str) : Except DecError Nat := do
  let raw ← checkNumber input
  if raw.length > 64 then throw .big256Range
  match decodeWords raw (raw.length / bigWordNibbles + 1) raw.length with
  | none => throw .syntaxError
  | some words => pure (SetBits words)

/-- The lowercase digits of `x`, most significant first, without leading zeros. -/
def hexDigits (x : Nat) : Str := (Nat.digits 16 x).reverse.map fun d => (Nat.digitChar d).toUInt8

/-- `EncodeBig` of a non-negative integer: `fmt.Sprintf("%#x", bigint)`. -/
def EncodeBig (x : Nat) : Str :=
  if x = 0 then str "0x0" else str "0x" ++ hexDigits x

/-- The loop of `strconv.ParseUint(raw, 16, 64)`: a digit that is not hex is a syntax error, a
value past 64 bits a range error, whichever comes first from the left. -/
def parseUintLoop : Str → Nat → Except DecError Nat
  | [], n => .ok n
  | c :: rest, n =>
    match decodeNibble c with
    | none => .error .syntaxError
    | some d =>
      -- `cutoff` is `maxUint64 / 16 + 1`: at or above it `n * 16` overflows
      if n ≥ (2 ^ 64 - 1) / 16 + 1 then .error .uint64Range
      else if n * 16 + d > 2 ^ 64 - 1 then .error .uint64Range
      else parseUintLoop rest (n * 16 + d)

/-- `DecodeUint64`. `checkNumber` leaves at least one digit, so `ParseUint`'s check of an empty
string never fires. -/
def DecodeUint64 (input : Str) : Except DecError UInt64 := do
  let raw ← checkNumber input
  let dec ← parseUintLoop raw 0
  pure dec.toUInt64

/-- `EncodeUint64`: `strconv.AppendUint(enc, i, 16)` after the prefix. -/
def EncodeUint64 (i : UInt64) : Str :=
  str "0x" ++ if i = 0 then str "0" else hexDigits i.toNat

/-! ### Digits -/

/-- The value of a hex digit. -/
def nibbleVal (c : UInt8) : Nat := (decodeNibble c).getD 0

/-- Every byte of `d` is a hex digit. -/
def IsDigits (d : Str) : Prop := ∀ c ∈ d, (decodeNibble c).isSome

instance : DecidablePred IsDigits := fun d => inferInstanceAs (Decidable (∀ c ∈ d, _))

/-- The number the hex digits `d` denote, most significant first. -/
def hexValue (d : Str) : Nat := Nat.ofDigits 16 (d.map nibbleVal).reverse

/-- The hex digits are the sixteen `Nat.digitChar`s, in either case. -/
theorem decodeNibble_digitChar : ∀ v : Fin 16,
    decodeNibble (Nat.digitChar v).toUInt8 = some v ∧
      decodeNibble (Nat.digitChar v).toUpper.toUInt8 = some v := by
  decide

/-- No other byte is a hex digit. -/
theorem decodeNibble_eq_some (c : UInt8) (v : Nat) (h : decodeNibble c = some v) :
    v < 16 ∧ (c = (Nat.digitChar v).toUInt8 ∨ c = (Nat.digitChar v).toUpper.toUInt8) := by
  -- the 256 bytes, each checked against the three ranges `decodeNibble` tests
  have table : ∀ n : Fin 256, (decodeNibble (UInt8.ofNat n)).all (fun v =>
      decide (v < 16 ∧ (UInt8.ofNat n = (Nat.digitChar v).toUInt8 ∨
        UInt8.ofNat n = (Nat.digitChar v).toUpper.toUInt8))) := by
    decide +kernel
  have hc := table ⟨c.toNat, c.toNat_lt⟩
  simp only [UInt8.ofNat_toNat, h] at hc
  simpa using hc

theorem decodeNibble_eq_some_iff (c : UInt8) (v : Nat) : decodeNibble c = some v ↔
    v < 16 ∧ (c = (Nat.digitChar v).toUInt8 ∨ c = (Nat.digitChar v).toUpper.toUInt8) := by
  constructor
  · exact decodeNibble_eq_some c v
  · rintro ⟨hv, rfl | rfl⟩
    · exact (decodeNibble_digitChar ⟨v, hv⟩).1
    · exact (decodeNibble_digitChar ⟨v, hv⟩).2

theorem nibbleVal_lt (c : UInt8) : nibbleVal c < 16 := by
  unfold nibbleVal
  cases h : decodeNibble c with
  | none => decide
  | some v => exact (decodeNibble_eq_some c v h).1

theorem hexValue_append (a b : Str) : hexValue (a ++ b) = hexValue a * 16 ^ b.length + hexValue b := by
  simp only [hexValue, List.map_append, List.reverse_append, Nat.ofDigits_append, List.length_reverse,
    List.length_map]
  ring

theorem hexValue_lt (d : Str) : hexValue d < 16 ^ d.length := by
  have h := Nat.ofDigits_lt_base_pow_length (b := 16) (l := (d.map nibbleVal).reverse) (by decide)
    (fun x hx => by
      obtain ⟨c, -, rfl⟩ := List.mem_map.mp (List.mem_reverse.mp hx)
      exact nibbleVal_lt c)
  simpa [hexValue] using h

theorem hexValue_cons {c : UInt8} {v : Nat} (h : decodeNibble c = some v) (d : Str) :
    hexValue (c :: d) = v * 16 ^ d.length + hexValue d := by
  rw [← List.singleton_append, hexValue_append]
  simp [hexValue, nibbleVal, h]

/-- Reading one more digit into a value that, with the digits after it, stays below `bound`
keeps the value below `bound` too. -/
theorem digit_fits {acc v r k bound : Nat} (h : acc * 16 ^ (k + 1) + (v * 16 ^ k + r) < bound) :
    acc * 16 + v < bound ∧ (acc * 16 + v) * 16 ^ k + r < bound := by
  have hpos : 1 ≤ 16 ^ k := Nat.one_le_pow _ _ (by decide)
  have heq : acc * 16 ^ (k + 1) + (v * 16 ^ k + r) = (acc * 16 + v) * 16 ^ k + r := by
    rw [pow_succ]
    ring
  rw [heq] at h
  constructor
  · nlinarith
  · exact h

/-! ### `DecodeBig` -/

/-- The word loop from `acc` on a chunk of digits whose value fits the word after `acc`'s: the
word never wraps, and ends at `acc` followed by the chunk's digits. -/
theorem foldlM_decodeWord (chunk : Str) (hd : IsDigits chunk) : ∀ acc : Nat,
    acc * 16 ^ chunk.length + hexValue chunk < 16 ^ bigWordNibbles →
    chunk.foldlM (fun w c => (decodeNibble c).map fun nib => (w * 16 + nib) % 16 ^ bigWordNibbles) acc =
      some (acc * 16 ^ chunk.length + hexValue chunk) := by
  induction chunk with
  | nil => intro acc _; simp [hexValue]
  | cons c cs ih =>
    intro acc hfit
    obtain ⟨v, hv⟩ := Option.isSome_iff_exists.mp (hd c (by simp))
    rw [hexValue_cons hv] at hfit ⊢
    simp only [List.length_cons] at hfit ⊢
    obtain ⟨hstep, hnext⟩ := digit_fits hfit
    rw [List.foldlM_cons, hv, Option.map_some, Nat.mod_eq_of_lt hstep]
    rw [Option.bind_eq_bind, Option.bind_some, ih (fun c hc => hd c (by simp [hc])) _ hnext]
    congr 1
    rw [pow_succ]
    ring

theorem decodeWord_digits {chunk : Str} (hd : IsDigits chunk) (hl : chunk.length ≤ bigWordNibbles) :
    decodeWord chunk = some (hexValue chunk) := by
  have hlt : hexValue chunk < 16 ^ bigWordNibbles :=
    lt_of_lt_of_le (hexValue_lt chunk) (Nat.pow_le_pow_right (by decide) hl)
  have h := foldlM_decodeWord chunk hd 0 (by simpa using hlt)
  simpa [decodeWord] using h

theorem decodeWord_of_not_digits {chunk : Str} (h : ¬ IsDigits chunk) : decodeWord chunk = none := by
  suffices ∀ acc : Nat, chunk.foldlM
      (fun w c => (decodeNibble c).map fun nib => (w * 16 + nib) % 16 ^ bigWordNibbles) acc = none from
    this 0
  induction chunk with
  | nil => exact absurd (fun c hc => absurd hc List.not_mem_nil) h
  | cons c cs ih =>
    intro acc
    rw [List.foldlM_cons]
    cases hv : decodeNibble c with
    | none => rfl
    | some v =>
      have hcs : ¬ IsDigits cs := fun hd => h fun x hx => by
        rcases List.mem_cons.mp hx with rfl | hx
        · simp [hv]
        · exact hd x hx
      exact ih hcs _

theorem take_eq_take_append_chunk (raw : Str) (stop : Nat) :
    raw.take stop = raw.take (stop - bigWordNibbles) ++ (raw.take stop).drop (stop - bigWordNibbles) := by
  conv_lhs => rw [← List.take_append_drop (stop - bigWordNibbles) (raw.take stop)]
  rw [List.take_take, Nat.min_eq_left (Nat.sub_le _ _)]

theorem IsDigits.mono {a b : Str} (h : IsDigits b) (hab : ∀ c ∈ a, c ∈ b) : IsDigits a :=
  fun c hc => h c (hab c hc)

/-- On digits, the loop of `DecodeBig` covers the first `stop` digits with its words, and the
words read back as their value. -/
theorem decodeWords_digits {raw : Str} (hd : IsDigits raw) : ∀ count stop : Nat,
    stop ≤ raw.length → stop ≤ count * bigWordNibbles →
    ∃ ws, decodeWords raw count stop = some ws ∧ SetBits ws = hexValue (raw.take stop) := by
  intro count
  induction count with
  | zero =>
    intro stop _ hstop
    obtain rfl : stop = 0 := by omega
    exact ⟨[], rfl, by simp [SetBits, hexValue]⟩
  | succ k ih =>
    intro stop hraw hstop
    have hchunk : IsDigits ((raw.take stop).drop (stop - bigWordNibbles)) :=
      hd.mono fun c hc => List.mem_of_mem_take (List.mem_of_mem_drop hc)
    have hlen : ((raw.take stop).drop (stop - bigWordNibbles)).length ≤ bigWordNibbles := by
      simp only [List.length_drop, List.length_take]
      omega
    obtain ⟨ws, hws, hval⟩ := ih (stop - bigWordNibbles) (by omega) (by rw [Nat.succ_mul] at hstop; omega)
    refine ⟨hexValue ((raw.take stop).drop (stop - bigWordNibbles)) :: ws, ?_, ?_⟩
    · simp only [decodeWords, decodeWord_digits hchunk hlen, hws]
      rfl
    · have hsplit := congrArg hexValue (take_eq_take_append_chunk raw stop)
      rw [hexValue_append] at hsplit
      rw [SetBits, Nat.ofDigits_cons, ← SetBits, hval, hsplit]
      -- the chunk is a full word, or it starts at the first digit and nothing lies before it
      by_cases hfull : bigWordNibbles ≤ stop
      · have : ((raw.take stop).drop (stop - bigWordNibbles)).length = bigWordNibbles := by
          simp only [List.length_drop, List.length_take]
          omega
        rw [this]
        ring
      · have h0 : stop - bigWordNibbles = 0 := by omega
        simp [h0, hexValue]

theorem decodeWords_of_not_digits {raw : Str} : ∀ count stop : Nat,
    stop ≤ count * bigWordNibbles → ¬ IsDigits (raw.take stop) → decodeWords raw count stop = none := by
  intro count
  induction count with
  | zero =>
    intro stop hstop hd
    obtain rfl : stop = 0 := by omega
    exact absurd (fun c hc => by simp at hc) hd
  | succ k ih =>
    intro stop hstop hd
    by_cases hchunk : IsDigits ((raw.take stop).drop (stop - bigWordNibbles))
    · -- the bad digit lies before the chunk, in what the later words read
      have hbefore : ¬ IsDigits (raw.take (stop - bigWordNibbles)) := fun hb => hd fun c hc => by
        rw [take_eq_take_append_chunk raw stop] at hc
        rcases List.mem_append.mp hc with hc | hc
        · exact hb c hc
        · exact hchunk c hc
      have hrest := ih (stop - bigWordNibbles) (by rw [Nat.succ_mul] at hstop; omega) hbefore
      simp only [decodeWords, hrest]
      cases decodeWord ((raw.take stop).drop (stop - bigWordNibbles)) <;> rfl
    · simp only [decodeWords, decodeWord_of_not_digits hchunk]
      rfl

theorem str_0x : str "0x" = ['0'.toUInt8, 'x'.toUInt8] := rfl
theorem str_0X : str "0X" = ['0'.toUInt8, 'X'.toUInt8] := rfl

theorem has0xPrefix_iff (input : Str) :
    has0xPrefix input = true ↔ ∃ rest, input = str "0x" ++ rest ∨ input = str "0X" ++ rest := by
  rw [str_0x, str_0X]
  constructor
  · intro h
    match input, h with
    | c0 :: c1 :: rest, h =>
      simp only [has0xPrefix, Bool.and_eq_true, beq_iff_eq, Bool.or_eq_true] at h
      obtain ⟨rfl, rfl | rfl⟩ := h
      · exact ⟨rest, .inl rfl⟩
      · exact ⟨rest, .inr rfl⟩
  · rintro ⟨rest, rfl | rfl⟩ <;> rfl

/-- `checkNumber` accepts the prefix and a non-empty digit string without a leading zero, and
returns the digit string. -/
theorem checkNumber_eq_ok (input raw : Str) :
    checkNumber input = .ok raw ↔ (input = str "0x" ++ raw ∨ input = str "0X" ++ raw) ∧
      raw ≠ [] ∧ (1 < raw.length → raw.head? ≠ some '0'.toUInt8) := by
  constructor
  · intro h
    unfold checkNumber at h
    dsimp only at h
    split_ifs at h with h0 hp he hz
    cases h
    obtain ⟨rest, hr⟩ := (has0xPrefix_iff input).mp (by simpa using hp)
    have hdrop : input.drop 2 = rest := by
      rcases hr with rfl | rfl <;> simp [str_0x, str_0X]
    rw [hdrop] at he hz ⊢
    refine ⟨hr, List.ne_nil_of_length_pos (by omega), fun h1 h0' => hz ⟨h1, h0'⟩⟩
  · rintro ⟨hin, hne, hlead⟩
    have hp : has0xPrefix input = true := (has0xPrefix_iff input).mpr ⟨raw, hin⟩
    have hdrop : input.drop 2 = raw := by
      rcases hin with rfl | rfl <;> simp [str_0x, str_0X]
    have hlen : raw.length ≠ 0 := fun h => hne (List.eq_nil_of_length_eq_zero h)
    unfold checkNumber
    rw [if_neg (by rcases hin with rfl | rfl <;> simp [str_0x, str_0X]), if_neg (by simp [hp])]
    dsimp only
    rw [hdrop, if_neg hlen, if_neg (fun h => hlead h.1 h.2)]

theorem length_le_words (raw : Str) :
    raw.length ≤ (raw.length / bigWordNibbles + 1) * bigWordNibbles := by
  unfold bigWordNibbles
  omega

/-- `DecodeBig` after `checkNumber`. -/
theorem decodeBig_of_checkNumber {input raw : Str} (hc : checkNumber input = .ok raw) :
    DecodeBig input = if raw.length > 64 then .error .big256Range else
      match decodeWords raw (raw.length / bigWordNibbles + 1) raw.length with
      | none => .error .syntaxError
      | some words => .ok (SetBits words) := by
  simp only [DecodeBig, hc, bind, Except.bind]
  split_ifs <;> rfl

/-- `DecodeBig` accepts exactly the prefix and one to 64 hex digits in either case, without a
leading zero, and returns the number they denote. -/
theorem decodeBig_eq_ok_iff (input : Str) (v : Nat) :
    DecodeBig input = .ok v ↔ ∃ d, (input = str "0x" ++ d ∨ input = str "0X" ++ d) ∧ d ≠ [] ∧
      (1 < d.length → d.head? ≠ some '0'.toUInt8) ∧ d.length ≤ 64 ∧ IsDigits d ∧ v = hexValue d := by
  constructor
  · intro h
    cases hc : checkNumber input with
    | error e => simp [DecodeBig, hc, bind, Except.bind] at h
    | ok raw =>
      obtain ⟨hin, hne, hlead⟩ := (checkNumber_eq_ok input raw).mp hc
      rw [decodeBig_of_checkNumber hc] at h
      by_cases h64 : raw.length > 64
      · simp [h64] at h
      rw [if_neg h64] at h
      by_cases hd : IsDigits raw
      · obtain ⟨ws, hws, hval⟩ := decodeWords_digits hd _ _ le_rfl (length_le_words raw)
        rw [hws] at h
        cases h
        rw [List.take_length] at hval
        exact ⟨raw, hin, hne, hlead, by omega, hd, hval⟩
      · have hnone := decodeWords_of_not_digits _ _ (length_le_words raw) (by rw [List.take_length]; exact hd)
        rw [hnone] at h
        cases h
  · rintro ⟨d, hin, hne, hlead, h64, hd, rfl⟩
    have hc := (checkNumber_eq_ok input d).mpr ⟨hin, hne, hlead⟩
    obtain ⟨ws, hws, hval⟩ := decodeWords_digits hd _ _ le_rfl (length_le_words d)
    rw [decodeBig_of_checkNumber hc, if_neg (by omega), hws]
    rw [List.take_length] at hval
    exact congrArg Except.ok hval

/-! ### What the encoders write -/

theorem decodeNibble_of_digit {d : Nat} (hd : d < 16) : decodeNibble (Nat.digitChar d).toUInt8 = some d :=
  (decodeNibble_digitChar ⟨d, hd⟩).1

theorem isDigits_hexDigits (x : Nat) : IsDigits (hexDigits x) := by
  intro c hc
  obtain ⟨d, hd, rfl⟩ := List.mem_map.mp hc
  rw [decodeNibble_of_digit (Nat.digits_lt_base (by decide) (List.mem_reverse.mp hd))]
  rfl

theorem hexValue_hexDigits (x : Nat) : hexValue (hexDigits x) = x := by
  have hmap : (hexDigits x).map nibbleVal = (Nat.digits 16 x).reverse := by
    rw [hexDigits, List.map_map]
    conv_rhs => rw [← List.map_id (Nat.digits 16 x).reverse]
    refine List.map_congr_left fun d hd => ?_
    simp [nibbleVal, decodeNibble_of_digit (Nat.digits_lt_base (by decide) (List.mem_reverse.mp hd))]
  rw [hexValue, hmap, List.reverse_reverse, Nat.ofDigits_digits]

theorem length_hexDigits (x : Nat) : (hexDigits x).length = (Nat.digits 16 x).length := by
  simp [hexDigits]

/-- The first digit `hexDigits` writes is not zero. -/
theorem head_hexDigits {x : Nat} (hx : x ≠ 0) : (hexDigits x).head? ≠ some '0'.toUInt8 := by
  have hne : Nat.digits 16 x ≠ [] := Nat.digits_ne_nil_iff_ne_zero.mpr hx
  have hlast := Nat.getLast_digit_ne_zero 16 hx
  have hlt : (Nat.digits 16 x).getLast hne < 16 :=
    Nat.digits_lt_base (by decide) (List.getLast_mem hne)
  rw [hexDigits, List.head?_map, List.head?_reverse, List.getLast?_eq_some_getLast hne, Option.map_some]
  intro h
  -- a digit written as `'0'` reads back as zero
  have h0 := decodeNibble_of_digit hlt
  rw [Option.some.inj h] at h0
  exact hlast (Option.some.inj h0).symm

theorem decodeBig_encodeBig {x : Nat} (hx : x < 2 ^ 256) : DecodeBig (EncodeBig x) = .ok x := by
  by_cases h0 : x = 0
  · subst h0
    exact (decodeBig_eq_ok_iff _ _).mpr ⟨str "0", .inl rfl, by decide, by decide, by decide,
      by decide +kernel, rfl⟩
  · have hlen : (hexDigits x).length ≤ 64 := by
      rw [length_hexDigits, Nat.digits_length_le_iff (by decide)]
      simpa using hx
    refine (decodeBig_eq_ok_iff _ _).mpr ⟨hexDigits x, .inl (if_neg h0), ?_, fun _ => head_hexDigits h0,
      hlen, isDigits_hexDigits x, (hexValue_hexDigits x).symm⟩
    rw [← List.length_pos_iff, length_hexDigits, List.length_pos_iff]
    exact Nat.digits_ne_nil_iff_ne_zero.mpr h0

/-- The loop of `ParseUint` on digits whose value fits 64 bits. -/
theorem parseUintLoop_digits (d : Str) (hd : IsDigits d) : ∀ n : Nat,
    n * 16 ^ d.length + hexValue d < 2 ^ 64 → parseUintLoop d n = .ok (n * 16 ^ d.length + hexValue d) := by
  induction d with
  | nil => intro n _; simp [parseUintLoop, hexValue]
  | cons c cs ih =>
    intro n hfit
    obtain ⟨v, hv⟩ := Option.isSome_iff_exists.mp (hd c (by simp))
    rw [hexValue_cons hv] at hfit ⊢
    simp only [List.length_cons] at hfit ⊢
    obtain ⟨hstep, hnext⟩ := digit_fits hfit
    rw [parseUintLoop, hv]
    dsimp only
    rw [if_neg (by omega), if_neg (by omega), ih (fun c hc => hd c (by simp [hc])) _ hnext]
    congr 1
    rw [pow_succ]
    ring

theorem decodeUint64_encodeUint64 (i : UInt64) : DecodeUint64 (EncodeUint64 i) = .ok i := by
  -- the digits `EncodeUint64` writes, and their value
  obtain ⟨d, hd, hne, hlead, hval⟩ : ∃ d, EncodeUint64 i = str "0x" ++ d ∧ d ≠ [] ∧
      (1 < d.length → d.head? ≠ some '0'.toUInt8) ∧ (IsDigits d ∧ hexValue d = i.toNat) := by
    by_cases h0 : i = 0
    · subst h0
      exact ⟨str "0", rfl, by decide, by decide, by decide +kernel, rfl⟩
    · have hx : i.toNat ≠ 0 := fun h => h0 (UInt64.toNat_inj.mp h)
      refine ⟨hexDigits i.toNat, by simp [EncodeUint64, h0], ?_, fun _ => head_hexDigits hx,
        isDigits_hexDigits _, hexValue_hexDigits _⟩
      rw [← List.length_pos_iff, length_hexDigits, List.length_pos_iff]
      exact Nat.digits_ne_nil_iff_ne_zero.mpr hx
  have hc := (checkNumber_eq_ok _ d).mpr ⟨.inl hd, hne, hlead⟩
  have hp := parseUintLoop_digits d hval.1 0 (by rw [hval.2]; simpa using i.toNat_lt)
  simp only [DecodeUint64, hc, hp, bind, Except.bind, zero_mul, zero_add, hval.2]
  exact congrArg Except.ok (UInt64.ofNat_toNat)

theorem hex_quantity_decoding_exact :
    (∀ (c : UInt8) (v : Nat), decodeNibble c = some v ↔
      v < 16 ∧ (c = (Nat.digitChar v).toUInt8 ∨ c = (Nat.digitChar v).toUpper.toUInt8)) ∧
    (∀ (s : Str) (v : Nat), DecodeBig s = .ok v ↔
      ∃ d, (s = str "0x" ++ d ∨ s = str "0X" ++ d) ∧ d ≠ [] ∧ (1 < d.length → d.head? ≠ some '0'.toUInt8) ∧
        d.length ≤ 64 ∧ IsDigits d ∧ v = hexValue d) ∧
    (∀ x : Nat, x < 2 ^ 256 → DecodeBig (EncodeBig x) = .ok x) ∧
    (∀ n : UInt64, DecodeUint64 (EncodeUint64 n) = .ok n) :=
  ⟨decodeNibble_eq_some_iff, decodeBig_eq_ok_iff, fun _ hx => decodeBig_encodeBig hx,
    decodeUint64_encodeUint64⟩

end Ccmchain.Hexutil
