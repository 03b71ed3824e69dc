import Ccmchain.Rlp.Value
import Ccmchain.Lib.EStateM

/-!
# The decoding stream (`rlp/decode.go`)

`Stream` reads one value at a time from a `bytes.Reader`. `Kind` reads a header and caches its
kind and size until the value is read; `List` pushes the list's payload size on a stack, every
read is charged to the innermost list by `willRead`, and `ListEnd` pops it once the list has
been read to its end, charging the whole payload to the enclosing list. At the top level the
input limit takes the place of the list.

Methods mutate the stream and return an error as well; they are `EStateM` computations whose
errors keep the state, as a Go method keeps its receiver's changes. The stack holds the
innermost list first; `kind = none` is Go's rearmed `kind = -1`.
-/

namespace Ccmchain.Rlp

/-- The errors of `Stream`, and of `DecodeBytes` into an `interface{}`. -/
inductive RlpError where
  /-- `EOL`: the end of the current list. -/
  | eol
  | expectedString
  | expectedList
  | canonInt
  | canonSize
  | elemTooLarge
  | valueTooLarge
  | moreThanOneValue
  | notInList
  | notAtEOL
  /-- `errUintOverflow`, of `Stream.uint`. -/
  | uintOverflow
  /-- `io.EOF` and `io.ErrUnexpectedEOF` of the reader. -/
  | eof
  | unexpectedEOF
  /-- A `*decodeError` for `[]interface {}`, made by `wrapStreamError`: its message and the
  context `addErrorContext` and `Decode` append. -/
  | decodeError (msg : String) (ctx : List String)
  /-- Not Go's: the decoder's recursion budget ran out (never, with the budget `DecodeBytes`
  gives). -/
  | outOfFuel
  deriving DecidableEq, Repr

/-- `Kind`: the kind of value ahead. -/
inductive Kind where
  | byte
  | string
  | list
  deriving DecidableEq, Repr

/-- `listpos`: bytes read so far in a list, and its payload size. -/
structure Listpos where
  pos : Nat
  size : Nat
  deriving DecidableEq, Repr

/-- `Stream` over a `bytes.Reader`, whose unread bytes are `r`. -/
@[ext] structure Stream where
  r : Bytes
  remaining : Nat
  limited : Bool
  kind : Option Kind
  size : Nat
  byteval : UInt8
  kinderr : Option RlpError
  stack : List Listpos

abbrev StreamM := EStateM RlpError Stream

open EStateM

/-- `Reset` with a `bytes.Reader` over `b`: the limit is `inputLimit`, or the reader's length
when that is zero. -/
def Stream.reset (b : Bytes) (inputLimit : Nat) : Stream :=
  { r := b, remaining := if inputLimit > 0 then inputLimit else b.length, limited := true,
    kind := none, size := 0, byteval := 0, kinderr := none, stack := [] }

/-- `willRead`: charges `n` bytes to the innermost list and to the input limit. -/
def willRead (n : Nat) : StreamM Unit := do
  modify fun s => { s with kind := none }
  let s ← get
  match s.stack with
  | tos :: rest =>
    if n > tos.size - tos.pos then throw .elemTooLarge
    set { s with stack := { tos with pos := tos.pos + n } :: rest }
  | [] => pure ()
  let s ← get
  if s.limited then
    if n > s.remaining then throw .valueTooLarge
    set { s with remaining := s.remaining - n }

def readByte : StreamM UInt8 := do
  willRead 1
  let s ← get
  match s.r with
  | [] => throw .unexpectedEOF
  | b :: rest =>
    set { s with r := rest }
    pure b

/-- `readFull` of an `n`-byte buffer, returning the buffer. -/
def readFull (n : Nat) : StreamM Bytes := do
  willRead n
  let s ← get
  if n ≤ s.r.length then
    set { s with r := s.r.drop n }
    pure (s.r.take n)
  else
    set { s with r := [] }
    throw .unexpectedEOF

/-- `readUint`: a big-endian size of `size` bytes, without a leading zero byte. -/
def readUint (size : Nat) : StreamM Nat :=
  match size with
  | 0 => do
    modify fun s => { s with kind := none }
    pure 0
  | 1 => do
    let b ← readByte
    pure b.toNat
  | size => do
    let buf ← readFull size
    if buf[0]! = 0 then throw .canonSize
    pure (BigEndian.toNat (List.replicate (8 - size) 0 ++ buf))

/-- At the top level an input that ends early is `io.EOF`. -/
def toplevelErr : RlpError → RlpError
  | .unexpectedEOF => .eof
  | .valueTooLarge => .eof
  | e => e

/-- The two long-form cases of `readKind`: a size field of `len` bytes, whose value must be at
least 56. -/
def readLongSize (k : Kind) (len : Nat) : StreamM (Kind × Nat × Option RlpError) := do
  match ← attempt (readUint len) with
  | .error err => pure (k, 0, some err)
  | .ok size => pure (k, size, if size < 56 then some .canonSize else none)

/-- The switch of `readKind` on the first byte `b` of a header. -/
def readTag (b : UInt8) : StreamM (Kind × Nat × Option RlpError) := do
  if b < 0x80 then
    modify fun s => { s with byteval := b }
    pure (.byte, 0, none)
  else if b < 0xB8 then pure (.string, (b - 0x80).toNat, none)
  else if b < 0xC0 then readLongSize .string (b - 0xB7).toNat
  else if b < 0xF8 then pure (.list, (b - 0xC0).toNat, none)
  else readLongSize .list (b - 0xF7).toNat

/-- `readKind`: the kind, size and error of the header ahead. -/
def readKind : StreamM (Kind × Nat × Option RlpError) := do
  match ← attempt readByte with
  | .error err =>
    let s ← get
    pure (.byte, 0, some (if s.stack = [] then toplevelErr err else err))
  | .ok b =>
    modify fun s => { s with byteval := 0 }
    readTag b

/-- The check `Kind` makes of a size read without error: the value must fit the remaining
input at the top level, and the rest of the innermost list inside one. -/
def sizeErr (s : Stream) (size : Nat) : Option RlpError :=
  match s.stack with
  | [] => if s.limited ∧ size > s.remaining then some .valueTooLarge else none
  | tos :: _ => if size > tos.size - tos.pos then some .elemTooLarge else none

/-- `Kind`: the kind and size of the value ahead, read once and cached until it is read. -/
def Stream.Kind : StreamM (Kind × Nat) := do
  let s ← get
  match s.kind with
  | some k =>
    match s.kinderr with
    | some e => throw e
    | none => pure (k, s.size)
  | none =>
    set { s with kinderr := none }
    match s.stack with
    | tos :: _ => if tos.pos = tos.size then throw .eol
    | [] => pure ()
    let (k, size, err) ← readKind
    let s ← get
    let err := match err with
      | some e => some e
      | none => sizeErr s size
    set { s with kind := some k, size := size, kinderr := err }
    match err with
    | some e => throw e
    | none => pure (k, size)

/-- `Bytes`: the contents of the string ahead. -/
def Stream.Bytes : StreamM Bytes := do
  let (kind, size) ← Stream.Kind
  match kind with
  | .byte =>
    modify fun s => { s with kind := none }
    let s ← get
    pure [s.byteval]
  | .string =>
    let b ← readFull size
    if size = 1 ∧ b[0]! < 128 then throw .canonSize
    pure b
  | .list => throw .expectedString

/-- `List`: enters the list ahead, returning its payload size. -/
def Stream.List : StreamM Nat := do
  let (kind, size) ← Stream.Kind
  if kind ≠ .list then throw .expectedList
  modify fun s => { s with stack := { pos := 0, size := size } :: s.stack, kind := none, size := 0 }
  pure size

/-- `ListEnd`: leaves a list read to its end. -/
def Stream.ListEnd : StreamM Unit := do
  let s ← get
  match s.stack with
  | [] => throw .notInList
  | tos :: rest =>
    if tos.pos ≠ tos.size then throw .notAtEOL
    let rest := match rest with
      | p :: ps => { p with pos := p.pos + tos.size } :: ps
      | [] => []
    set { s with stack := rest, kind := none, size := 0 }

/-! ### The reads one value makes -/

/-- The list positions after `n` more bytes are read in the innermost list. -/
def chargeTop : List Listpos → Nat → List Listpos
  | tos :: rest, n => { tos with pos := tos.pos + n } :: rest
  | [], _ => []

/-- `n` more bytes fit in the innermost list. -/
def roomTop : List Listpos → Nat → Prop
  | tos :: _, n => n ≤ tos.size - tos.pos
  | [], _ => True

/-- The innermost list has been read to its end. -/
def atEOL : List Listpos → Prop
  | tos :: _ => tos.pos = tos.size
  | [] => False

/-- The stream after `willRead n` succeeds. -/
def Stream.charge (s : Stream) (n : Nat) : Stream :=
  { s with kind := none, stack := chargeTop s.stack n,
           remaining := if s.limited then s.remaining - n else s.remaining }

/-- `willRead n` succeeds. -/
def Stream.Room (s : Stream) (n : Nat) : Prop :=
  roomTop s.stack n ∧ (s.limited = true → n ≤ s.remaining)

@[simp] theorem chargeTop_nil (n : Nat) : chargeTop [] n = [] := rfl

@[simp] theorem chargeTop_cons (tos : Listpos) (rest : List Listpos) (n : Nat) :
    chargeTop (tos :: rest) n = { tos with pos := tos.pos + n } :: rest := rfl

@[simp] theorem chargeTop_zero (st : List Listpos) : chargeTop st 0 = st := by
  cases st <;> simp

theorem chargeTop_chargeTop (st : List Listpos) (m n : Nat) :
    chargeTop (chargeTop st m) n = chargeTop st (m + n) := by
  cases st <;> simp [Nat.add_assoc]

@[simp] theorem charge_r (s : Stream) (n : Nat) : (s.charge n).r = s.r := rfl
@[simp] theorem charge_limited (s : Stream) (n : Nat) : (s.charge n).limited = s.limited := rfl
@[simp] theorem charge_kind (s : Stream) (n : Nat) : (s.charge n).kind = none := rfl
@[simp] theorem charge_size (s : Stream) (n : Nat) : (s.charge n).size = s.size := rfl
@[simp] theorem charge_byteval (s : Stream) (n : Nat) : (s.charge n).byteval = s.byteval := rfl
@[simp] theorem charge_kinderr (s : Stream) (n : Nat) : (s.charge n).kinderr = s.kinderr := rfl
@[simp] theorem charge_stack (s : Stream) (n : Nat) :
    (s.charge n).stack = chargeTop s.stack n := rfl
@[simp] theorem charge_remaining (s : Stream) (n : Nat) :
    (s.charge n).remaining = if s.limited then s.remaining - n else s.remaining := rfl

theorem charge_charge (s : Stream) (m n : Nat) : (s.charge m).charge n = s.charge (m + n) := by
  cases s
  simp only [Stream.charge, chargeTop_chargeTop, Stream.mk.injEq, true_and]
  split <;> simp [Nat.sub_sub]

theorem room_add {s : Stream} {m n : Nat} : s.Room (m + n) ↔ s.Room m ∧ (s.charge m).Room n := by
  rcases s with ⟨r, remaining, limited, kind, size, byteval, kinderr, stack⟩
  cases stack <;> cases limited <;> simp [Stream.Room, roomTop, Stream.charge] <;> omega

theorem Stream.Room.mono {s : Stream} {m n : Nat} (h : s.Room n) (hmn : m ≤ n) : s.Room m := by
  obtain ⟨k, rfl⟩ := Nat.exists_eq_add_of_le hmn
  exact (room_add.mp h).1

open EStateM

theorem willRead_eq_ok {n : Nat} {s s' : Stream} {u : Unit} :
    willRead n s = .ok u s' ↔ s.Room n ∧ s.charge n = s' := by
  rcases s with ⟨r, remaining, limited, kind, size, byteval, kinderr, stack⟩
  cases stack <;> cases limited <;>
    simp [willRead, Stream.Room, roomTop, Stream.charge, chargeTop] <;>
    split_ifs <;> simp <;> intro <;> omega

theorem throws_willRead (n : Nat) : Throws (· ≠ .eol) (willRead n) := by
  intro s e s' h
  rcases s with ⟨r, remaining, limited, kind, size, byteval, kinderr, stack⟩
  cases stack <;> cases limited <;>
    simp [willRead] at h <;> split_ifs at h <;> simp at h <;> rw [← h.1] <;> decide

theorem readByte_eq_ok {s s' : Stream} {b : UInt8} :
    readByte s = .ok b s' ↔ s.Room 1 ∧ ∃ rest, s.r = b :: rest ∧ { s.charge 1 with r := rest } = s' := by
  unfold readByte
  rw [bind_eq_ok]
  constructor
  · rintro ⟨u, s₁, hw, hr⟩
    obtain ⟨hroom, rfl⟩ := willRead_eq_ok.mp hw
    simp only [get_bind_apply, charge_r] at hr
    cases hs : s.r with
    | nil =>
      rw [hs] at hr
      cases hr
    | cons c rest =>
      rw [hs] at hr
      simp only [set_bind_apply, pure_apply, EStateM.Result.ok.injEq] at hr
      exact ⟨hroom, rest, by rw [hr.1], hr.2⟩
  · rintro ⟨hroom, rest, hs, rfl⟩
    refine ⟨⟨⟩, s.charge 1, willRead_eq_ok.mpr ⟨hroom, rfl⟩, ?_⟩
    simp [hs]

theorem throws_readByte : Throws (· ≠ .eol) readByte := by
  unfold readByte
  refine (throws_willRead 1).bind fun _ => throws_get.bind fun s => ?_
  cases s.r with
  | nil => exact throws_throw (by decide)
  | cons b rest => exact (throws_set _).bind fun _ => throws_pure _

theorem readFull_eq_ok {n : Nat} {s s' : Stream} {buf : Bytes} :
    readFull n s = .ok buf s' ↔
      s.Room n ∧ buf.length = n ∧ ∃ rest, s.r = buf ++ rest ∧ { s.charge n with r := rest } = s' := by
  unfold readFull
  rw [bind_eq_ok]
  constructor
  · rintro ⟨u, s₁, hw, hr⟩
    obtain ⟨hroom, rfl⟩ := willRead_eq_ok.mp hw
    simp only [get_bind_apply] at hr
    rw [ite_apply_state] at hr
    split at hr
    · rename_i hlen
      simp only [set_bind_apply, pure_apply, EStateM.Result.ok.injEq] at hr
      obtain ⟨rfl, rfl⟩ := hr
      exact ⟨hroom, by simpa using hlen, s.r.drop n, (List.take_append_drop n s.r).symm, rfl⟩
    · simp at hr
  · rintro ⟨hroom, hlen, rest, hs, rfl⟩
    refine ⟨⟨⟩, s.charge n, willRead_eq_ok.mpr ⟨hroom, rfl⟩, ?_⟩
    simp [hs, ← hlen]

theorem throws_readFull (n : Nat) : Throws (· ≠ .eol) (readFull n) := by
  unfold readFull
  refine (throws_willRead n).bind fun _ => throws_get.bind fun s => ?_
  exact Throws.ite ((throws_set _).bind fun _ => throws_pure _)
    ((throws_set _).bind fun _ => throws_throw (by decide))

/-- `readUint` of a size field of one to eight bytes: it reads them, refuses a leading zero when
there are two or more, and returns their value. -/
theorem readUint_eq_ok {len : Nat} (h1 : 1 ≤ len) (h8 : len ≤ 8) {s s' : Stream} {v : Nat} :
    readUint len s = .ok v s' ↔
      s.Room len ∧ ∃ buf rest, buf.length = len ∧ (len = 1 ∨ buf.head? ≠ some 0) ∧
        s.r = buf ++ rest ∧ v = BigEndian.toNat buf ∧ { s.charge len with r := rest } = s' := by
  obtain rfl | ⟨k, rfl⟩ : len = 1 ∨ ∃ k, len = k + 2 := by
    rcases Nat.lt_or_ge len 2 with h | h
    · exact .inl (by omega)
    · exact .inr ⟨len - 2, by omega⟩
  · show (readByte >>= fun b => pure b.toNat) s = _ ↔ _
    rw [bind_eq_ok]
    constructor
    · rintro ⟨b, s₁, hb, hv⟩
      obtain ⟨hroom, rest, hs, rfl⟩ := readByte_eq_ok.mp hb
      cases hv
      exact ⟨hroom, [b], rest, rfl, .inl rfl, hs, by simp [BigEndian.toNat_cons], rfl⟩
    · rintro ⟨hroom, buf, rest, hlen, -, hs, rfl, rfl⟩
      obtain ⟨b, rfl⟩ := List.length_eq_one_iff.mp hlen
      exact ⟨b, _, readByte_eq_ok.mpr ⟨hroom, rest, hs, rfl⟩, by simp [BigEndian.toNat_cons]⟩
  · show (readFull (k + 2) >>= fun buf =>
      if buf[0]! = 0 then throw .canonSize >>= fun _ => pure _ else pure _) s = _ ↔ _
    rw [bind_eq_ok]
    constructor
    · rintro ⟨buf, s₁, hbuf, hv⟩
      obtain ⟨hroom, hlen, rest, hs, rfl⟩ := readFull_eq_ok.mp hbuf
      obtain ⟨c, cs, rfl⟩ := List.exists_cons_of_length_eq_add_one hlen
      rw [ite_apply_state] at hv
      split at hv
      · cases hv
      · cases hv
        rename_i hc
        refine ⟨hroom, c :: cs, rest, hlen, .inr (by simpa using hc), hs, ?_, rfl⟩
        rw [BigEndian.toNat_replicate_zero_append]
    · rintro ⟨hroom, buf, rest, hlen, hz, hs, rfl, rfl⟩
      obtain ⟨c, cs, rfl⟩ := List.exists_cons_of_length_eq_add_one hlen
      refine ⟨c :: cs, _, readFull_eq_ok.mpr ⟨hroom, hlen, rest, hs, rfl⟩, ?_⟩
      have hc : c ≠ 0 := by
        rcases hz with h | h
        · omega
        · simpa using h
      simp [hc, BigEndian.toNat_replicate_zero_append]

theorem throws_readUint (len : Nat) : Throws (· ≠ .eol) (readUint len) := by
  unfold readUint
  split
  · exact (throws_modify _).bind fun _ => throws_pure _
  · exact throws_readByte.bind fun _ => throws_pure _
  · exact (throws_readFull _).bind fun _ =>
      Throws.ite (throws_throw (by decide)) (throws_pure _)

/-! ### Headers -/

/-- `hdr` is a header `readKind` accepts for a value of kind `k` and size `size`, after which
`byteval` holds `bv`. -/
inductive KindHeader : Kind → Nat → UInt8 → Bytes → Prop
  | byte {b : UInt8} : b < 0x80 → KindHeader .byte 0 b [b]
  | string {n : Nat} : n < 2 ^ 64 → KindHeader .string n 0 (header 0x80 n)
  | list {n : Nat} : n < 2 ^ 64 → KindHeader .list n 0 (header 0xC0 n)

theorem header_short {base : UInt8} {n : Nat} (h : n < 56) : header base n = [base + n.toUInt8] := by
  simp [header, h]

theorem header_long {base : UInt8} {n : Nat} (h : 56 ≤ n) :
    header base n = (base + 55 + (BigEndian.ofNat n).length.toUInt8) :: BigEndian.ofNat n := by
  simp [header, show ¬ n < 56 by omega]

/-- The size field of a long header: one to eight bytes with no leading zero. -/
theorem ofNat_size_field {n : Nat} (h56 : 56 ≤ n) (h64 : n < 2 ^ 64) :
    1 ≤ (BigEndian.ofNat n).length ∧ (BigEndian.ofNat n).length ≤ 8 ∧
      (BigEndian.ofNat n).head? ≠ some 0 := by
  refine ⟨?_, (BigEndian.length_ofNat_le_iff n 8).mpr (by simpa using h64), ?_⟩
  · rcases h : BigEndian.ofNat n with _ | ⟨b, l⟩
    · exact absurd ((BigEndian.ofNat_eq_nil_iff n).mp h) (by omega)
    · simp
  · rcases h : BigEndian.ofNat n with _ | ⟨b, l⟩
    · simp
    · simpa using BigEndian.head_ofNat_ne_zero h

/-- A size field that `readUint` accepts, of a size of at least 56, is the shortest form of its
value. -/
theorem ofNat_of_size_field {buf : Bytes} {len : Nat} (hlen : buf.length = len) (h8 : len ≤ 8)
    (hz : len = 1 ∨ buf.head? ≠ some 0) (h56 : 56 ≤ BigEndian.toNat buf) :
    BigEndian.ofNat (BigEndian.toNat buf) = buf ∧ BigEndian.toNat buf < 2 ^ 64 := by
  have hlt : BigEndian.toNat buf < 2 ^ 64 := by
    calc BigEndian.toNat buf < 256 ^ buf.length := BigEndian.toNat_lt buf
      _ ≤ 256 ^ 8 := Nat.pow_le_pow_right (by norm_num) (by omega)
      _ = 2 ^ 64 := by norm_num
  refine ⟨BigEndian.ofNat_toNat ?_, hlt⟩
  rcases hz with rfl | hz
  · obtain ⟨c, rfl⟩ := List.length_eq_one_iff.mp hlen
    intro hc
    simp only [List.head?_cons, Option.some.injEq] at hc
    subst hc
    simp [BigEndian.toNat_cons] at h56
  · exact hz

theorem readLongSize_eq_ok {k k' : Kind} {len size : Nat} {s s' : Stream} :
    readLongSize k len s = .ok (k', size, none) s' ↔
      k' = k ∧ 56 ≤ size ∧ readUint len s = .ok size s' := by
  unfold readLongSize
  rw [bind_eq_ok]
  constructor
  · rintro ⟨r, s₁, hatt, hp⟩
    rcases attempt_eq_ok.mp hatt with ⟨a, rfl, h⟩ | ⟨e, rfl, h⟩
    · simp only [pure_apply, EStateM.Result.ok.injEq, Prod.mk.injEq] at hp
      obtain ⟨⟨rfl, rfl, hcanon⟩, rfl⟩ := hp
      have h56 : 56 ≤ a := by
        by_contra hlt
        simp [show a < 56 by omega] at hcanon
      exact ⟨rfl, h56, h⟩
    · simp at hp
  · rintro ⟨rfl, h56, h⟩
    refine ⟨.ok size, s', attempt_of_ok h, ?_⟩
    simp [show ¬ size < 56 by omega]

theorem lt_of_toNat {b : UInt8} {v : Nat} (hb : b.toNat = v) (c : UInt8) : b < c ↔ v < c.toNat := by
  rw [UInt8.lt_iff_toNat_lt, hb]

theorem toNat_sub_of_toNat {b : UInt8} {v : Nat} (hb : b.toNat = v) {c : UInt8} (h : c.toNat ≤ v) :
    (b - c).toNat = v - c.toNat := by
  rw [UInt8.toNat_sub_of_le _ _ (UInt8.le_iff_toNat_le.mpr (hb ▸ h)), hb]

theorem readTag_short {k : Kind} {base : UInt8} (hk : k = .string ∧ base = 0x80 ∨ k = .list ∧ base = 0xC0)
    {n : Nat} (hn : n < 56) (s : Stream) : readTag (base + n.toUInt8) s = .ok (k, n, none) s := by
  rcases hk with ⟨rfl, rfl⟩ | ⟨rfl, rfl⟩
  · have hb : (0x80 + n.toUInt8 : UInt8).toNat = 128 + n :=
      toNat_tag (by simp only [UInt8.reduceToNat]; omega)
    rw [readTag, ite_apply_state, if_neg (by simp only [lt_of_toNat hb, UInt8.reduceToNat]; omega),
      ite_apply_state, if_pos (by simp only [lt_of_toNat hb, UInt8.reduceToNat]; omega),
      toNat_sub_of_toNat hb (by simp only [UInt8.reduceToNat]; omega)]
    simp only [UInt8.reduceToNat, Nat.add_sub_cancel_left]
    rfl
  · have hb : (0xC0 + n.toUInt8 : UInt8).toNat = 192 + n :=
      toNat_tag (by simp only [UInt8.reduceToNat]; omega)
    rw [readTag, ite_apply_state, if_neg (by simp only [lt_of_toNat hb, UInt8.reduceToNat]; omega),
      ite_apply_state, if_neg (by simp only [lt_of_toNat hb, UInt8.reduceToNat]; omega),
      ite_apply_state, if_neg (by simp only [lt_of_toNat hb, UInt8.reduceToNat]; omega),
      ite_apply_state, if_pos (by simp only [lt_of_toNat hb, UInt8.reduceToNat]; omega),
      toNat_sub_of_toNat hb (by simp only [UInt8.reduceToNat]; omega)]
    simp only [UInt8.reduceToNat, Nat.add_sub_cancel_left]
    rfl

theorem readTag_long {k : Kind} {base : UInt8} (hk : k = .string ∧ base = 0x80 ∨ k = .list ∧ base = 0xC0)
    {len : Nat} (h1 : 1 ≤ len) (h8 : len ≤ 8) (s : Stream) :
    readTag (base + 55 + len.toUInt8) s = readLongSize k len s := by
  rcases hk with ⟨rfl, rfl⟩ | ⟨rfl, rfl⟩
  · have hb : ((0x80 : UInt8) + 55 + len.toUInt8).toNat = 183 + len :=
      toNat_tag (by rw [show ((0x80 : UInt8) + 55).toNat = 183 from rfl]; omega)
    rw [readTag, ite_apply_state, if_neg (by simp only [lt_of_toNat hb, UInt8.reduceToNat]; omega),
      ite_apply_state, if_neg (by simp only [lt_of_toNat hb, UInt8.reduceToNat]; omega),
      ite_apply_state, if_pos (by simp only [lt_of_toNat hb, UInt8.reduceToNat]; omega),
      toNat_sub_of_toNat hb (by simp only [UInt8.reduceToNat]; omega)]
    simp only [UInt8.reduceToNat, Nat.add_sub_cancel_left]
  · have hb : ((0xC0 : UInt8) + 55 + len.toUInt8).toNat = 247 + len :=
      toNat_tag (by rw [show ((0xC0 : UInt8) + 55).toNat = 247 from rfl]; omega)
    rw [readTag, ite_apply_state, if_neg (by simp only [lt_of_toNat hb, UInt8.reduceToNat]; omega),
      ite_apply_state, if_neg (by simp only [lt_of_toNat hb, UInt8.reduceToNat]; omega),
      ite_apply_state, if_neg (by simp only [lt_of_toNat hb, UInt8.reduceToNat]; omega),
      ite_apply_state, if_neg (by simp only [lt_of_toNat hb, UInt8.reduceToNat]; omega),
      toNat_sub_of_toNat hb (by simp only [UInt8.reduceToNat]; omega)]
    simp only [UInt8.reduceToNat, Nat.add_sub_cancel_left]

/-- Every byte is `base` plus its distance from `base`. -/
theorem eq_tag (b base : UInt8) : b = base + (b - base).toNat.toUInt8 := by
  simp only [Nat.toUInt8, UInt8.ofNat_toNat]
  grind

/-- What `readTag` does when it accepts a header: a byte below `0x80`, or a short or a long
header of a string or a list. -/
theorem readTag_eq_ok_none {b : UInt8} {k : Kind} {size : Nat} {s s' : Stream}
    (h : readTag b s = .ok (k, size, none) s') :
    (b < 0x80 ∧ k = .byte ∧ size = 0 ∧ { s with byteval := b } = s') ∨
    ∃ base, (k = .string ∧ base = 0x80 ∨ k = .list ∧ base = 0xC0) ∧
      ((size < 56 ∧ b = base + size.toUInt8 ∧ s = s') ∨
       (∃ len, 1 ≤ len ∧ len ≤ 8 ∧ b = base + 55 + len.toUInt8 ∧ 56 ≤ size ∧
          readUint len s = .ok size s')) := by
  unfold readTag at h
  rw [ite_apply_state] at h
  split at h
  · rename_i h80
    simp only [modify_bind_apply, pure_apply, EStateM.Result.ok.injEq, Prod.mk.injEq] at h
    obtain ⟨⟨rfl, rfl, -⟩, rfl⟩ := h
    exact .inl ⟨h80, rfl, rfl, rfl⟩
  rename_i h80
  rw [ite_apply_state] at h
  split at h
  · rename_i hB8
    simp only [pure_apply, EStateM.Result.ok.injEq, Prod.mk.injEq] at h
    obtain ⟨⟨rfl, rfl, -⟩, rfl⟩ := h
    refine .inr ⟨0x80, .inl ⟨rfl, rfl⟩, .inl ⟨?_, eq_tag b 0x80, rfl⟩⟩
    simp [UInt8.lt_iff_toNat_lt, UInt8.toNat_sub] at h80 hB8 ⊢
    omega
  rename_i hB8
  rw [ite_apply_state] at h
  split at h
  · rename_i hC0
    obtain ⟨rfl, h56, hu⟩ := readLongSize_eq_ok.mp h
    refine .inr ⟨0x80, .inl ⟨rfl, rfl⟩, .inr ⟨(b - 0xB7).toNat, ?_, ?_, ?_, h56, hu⟩⟩
    · have := b.toNat_lt
      simp [UInt8.lt_iff_toNat_lt, UInt8.toNat_sub] at hB8 ⊢
      omega
    · simp [UInt8.lt_iff_toNat_lt, UInt8.toNat_sub] at hB8 hC0 ⊢
      omega
    · rw [show (0x80 : UInt8) + 55 = 0xB7 from rfl]
      exact eq_tag b _
  rename_i hC0
  rw [ite_apply_state] at h
  split at h
  · rename_i hF8
    simp only [pure_apply, EStateM.Result.ok.injEq, Prod.mk.injEq] at h
    obtain ⟨⟨rfl, rfl, -⟩, rfl⟩ := h
    refine .inr ⟨0xC0, .inr ⟨rfl, rfl⟩, .inl ⟨?_, eq_tag b 0xC0, rfl⟩⟩
    simp [UInt8.lt_iff_toNat_lt, UInt8.toNat_sub] at hC0 hF8 ⊢
    omega
  · rename_i hF8
    obtain ⟨rfl, h56, hu⟩ := readLongSize_eq_ok.mp h
    have := b.toNat_lt
    refine .inr ⟨0xC0, .inr ⟨rfl, rfl⟩, .inr ⟨(b - 0xF7).toNat, ?_, ?_, ?_, h56, hu⟩⟩
    · simp [UInt8.lt_iff_toNat_lt, UInt8.toNat_sub] at hF8 ⊢
      omega
    · simp [UInt8.lt_iff_toNat_lt, UInt8.toNat_sub] at hF8 ⊢
      omega
    · rw [show (0xC0 : UInt8) + 55 = 0xF7 from rfl]
      exact eq_tag b _

/-- `readKind` on a string or list header. -/
theorem readKind_header {k : Kind} {base : UInt8} (hk : k = .string ∧ base = 0x80 ∨ k = .list ∧ base = 0xC0)
    {n : Nat} (hn : n < 2 ^ 64) {s : Stream} {rest : Bytes} (hroom : s.Room (header base n).length)
    (hs : s.r = header base n ++ rest) :
    readKind s = .ok (k, n, none) { s.charge (header base n).length with r := rest, byteval := 0 } := by
  rcases Nat.lt_or_ge n 56 with h56 | h56
  · rw [header_short h56] at hroom hs ⊢
    have hb := readByte_eq_ok.mpr ⟨hroom, rest, hs, rfl⟩
    rw [readKind, attempt_bind_of_ok hb]
    exact readTag_short hk h56 _
  · obtain ⟨h1, h8, hz⟩ := ofNat_size_field h56 hn
    rw [header_long h56] at hroom hs ⊢
    rw [List.length_cons, Nat.add_comm, room_add] at hroom
    have hb := readByte_eq_ok.mpr ⟨hroom.1, _, hs, rfl⟩
    rw [readKind, attempt_bind_of_ok hb]
    show readTag _ _ = _
    rw [readTag_long hk h1 h8]
    refine readLongSize_eq_ok.mpr ⟨rfl, h56, (readUint_eq_ok h1 h8).mpr ⟨hroom.2, _, rest, rfl, .inr hz, rfl,
      (BigEndian.toNat_ofNat n).symm, ?_⟩⟩
    apply Stream.ext <;> by_cases hl : s.limited <;> simp [hl, chargeTop_chargeTop, Nat.sub_sub, Nat.add_comm]

/-- `readKind` reads a header without error exactly when the input starts with one that fits
the innermost list and the input limit. -/
theorem readKind_eq_ok_none {k : Kind} {size : Nat} {s s' : Stream} :
    readKind s = .ok (k, size, none) s' ↔
      ∃ bv hdr rest, KindHeader k size bv hdr ∧ s.Room hdr.length ∧ s.r = hdr ++ rest ∧
        { s.charge hdr.length with r := rest, byteval := bv } = s' := by
  constructor
  · unfold readKind
    rw [bind_eq_ok]
    rintro ⟨r, s₁, hatt, hk⟩
    rcases attempt_eq_ok.mp hatt with ⟨b, rfl, hb⟩ | ⟨e, rfl, -⟩
    · obtain ⟨hroom1, rest₁, hs, rfl⟩ := readByte_eq_ok.mp hb
      rcases readTag_eq_ok_none hk with ⟨h80, rfl, rfl, rfl⟩ |
        ⟨base, hk', ⟨h56, rfl, rfl⟩ | ⟨len, h1, h8, rfl, h56, hu⟩⟩
      · exact ⟨b, [b], rest₁, .byte h80, hroom1, hs, rfl⟩
      · have hh : KindHeader k size 0 (header base size) := by
          rcases hk' with ⟨rfl, rfl⟩ | ⟨rfl, rfl⟩
          · exact .string (by omega)
          · exact .list (by omega)
        refine ⟨0, header base size, rest₁, hh, ?_, ?_, ?_⟩
        · rwa [header_short h56]
        · rw [header_short h56, hs]
          rfl
        · rw [header_short h56]
          rfl
      · obtain ⟨hroom, buf, rest, hlen, hz, hs₁, rfl, rfl⟩ := (readUint_eq_ok h1 h8).mp hu
        obtain ⟨hof, h64⟩ := ofNat_of_size_field hlen h8 hz h56
        have hhdr : header base (BigEndian.toNat buf) = (base + 55 + len.toUInt8) :: buf := by
          rw [header_long h56, hof, hlen]
        have hh : KindHeader k (BigEndian.toNat buf) 0 (header base (BigEndian.toNat buf)) := by
          rcases hk' with ⟨rfl, rfl⟩ | ⟨rfl, rfl⟩
          · exact .string h64
          · exact .list h64
        refine ⟨0, _, rest, hh, ?_, ?_, ?_⟩
        · rw [hhdr, List.length_cons, hlen, Nat.add_comm, room_add]
          exact ⟨hroom1, hroom⟩
        · have hrest : rest₁ = buf ++ rest := hs₁
          rw [hhdr, hs, hrest]
          rfl
        · rw [hhdr, List.length_cons, hlen]
          apply Stream.ext <;> by_cases hl : s.limited <;>
            simp [hl, chargeTop_chargeTop, Nat.sub_sub, Nat.add_comm]
    · simp at hk
  · rintro ⟨bv, hdr, rest, hh, hroom, hs, rfl⟩
    cases hh with
    | byte hb80 =>
      have hb := readByte_eq_ok.mpr ⟨hroom, rest, hs, rfl⟩
      rw [readKind, attempt_bind_of_ok hb]
      simp [readTag, hb80]
    | string hn => exact readKind_header (.inl ⟨rfl, rfl⟩) hn hroom hs
    | list hn => exact readKind_header (.inr ⟨rfl, rfl⟩) hn hroom hs

/-- `readKind` never fails: it returns the error it meets as a value. -/
theorem throws_readKind : Throws (fun _ => False) readKind := by
  unfold readKind
  refine (throws_attempt _).bind fun r => ?_
  cases r with
  | error e => exact throws_get.bind fun _ => throws_pure _
  | ok b =>
    refine (throws_modify _).bind fun _ => ?_
    have hlong : ∀ k len, Throws (fun _ => False) (readLongSize k len) := by
      intro k len
      refine (throws_attempt _).bind fun r => ?_
      cases r <;> exact throws_pure _
    unfold readTag
    exact Throws.ite ((throws_modify _).bind fun _ => throws_pure _) <|
      Throws.ite (throws_pure _) <| Throws.ite (hlong _ _) <| Throws.ite (throws_pure _) (hlong _ _)

theorem toplevelErr_ne_eol {e : RlpError} (h : e ≠ .eol) : toplevelErr e ≠ .eol := by
  cases e <;> simp_all [toplevelErr]

theorem readLongSize_err_ne_eol {k k' : Kind} {len size : Nat} {s s' : Stream} {e : RlpError}
    (h : readLongSize k len s = .ok (k', size, some e) s') : e ≠ .eol := by
  rw [readLongSize, bind_eq_ok] at h
  obtain ⟨r, s₁, hatt, hp⟩ := h
  rcases attempt_eq_ok.mp hatt with ⟨a, rfl, -⟩ | ⟨e₁, rfl, he₁⟩
  · simp only [pure_apply, EStateM.Result.ok.injEq, Prod.mk.injEq] at hp
    obtain ⟨⟨-, -, hcanon⟩, -⟩ := hp
    split at hcanon
    · cases hcanon
      decide
    · cases hcanon
  · simp only [pure_apply, EStateM.Result.ok.injEq, Prod.mk.injEq, Option.some.injEq] at hp
    obtain ⟨⟨-, -, rfl⟩, -⟩ := hp
    exact throws_readUint _ _ _ _ he₁

/-- The error `readKind` returns is never `EOL`: only `Kind` itself reports the end of a list. -/
theorem readKind_err_ne_eol {s s' : Stream} {k : Kind} {size : Nat} {e : RlpError}
    (h : readKind s = .ok (k, size, some e) s') : e ≠ .eol := by
  unfold readKind at h
  rw [bind_eq_ok] at h
  obtain ⟨r, s₁, hatt, hk⟩ := h
  rcases attempt_eq_ok.mp hatt with ⟨b, rfl, -⟩ | ⟨e₀, rfl, he₀⟩
  · simp only [modify_bind_apply] at hk
    unfold readTag at hk
    repeat rw [ite_apply_state] at hk
    split_ifs at hk
    · simp at hk
    · simp at hk
    · exact readLongSize_err_ne_eol hk
    · simp at hk
    · exact readLongSize_err_ne_eol hk
  · have hne := throws_readByte _ _ _ he₀
    simp only [get_bind_apply, pure_apply, EStateM.Result.ok.injEq, Prod.mk.injEq,
      Option.some.injEq] at hk
    obtain ⟨⟨-, -, rfl⟩, -⟩ := hk
    split
    · exact toplevelErr_ne_eol hne
    · exact hne

theorem sizeErr_ne_eol (s : Stream) (size : Nat) : sizeErr s size ≠ some .eol := by
  unfold sizeErr
  split <;> split <;> simp

/-! ### `Kind`, `Bytes`, `List` and `ListEnd` -/

theorem kind_of_cached {s : Stream} {k : Kind} (hk : s.kind = some k) (he : s.kinderr = none) :
    Stream.Kind s = .ok (k, s.size) s := by
  simp [Stream.Kind, hk, he]

/-- `Kind` with no kind cached: it reads a header, unless the innermost list is at its end, and
caches the kind and size when the header is well formed and fits. -/
theorem kind_eq_ok_fresh {s s' : Stream} {k : Kind} {size : Nat} (hk : s.kind = none) :
    Stream.Kind s = .ok (k, size) s' ↔
      ¬ atEOL s.stack ∧ ∃ s₁, readKind { s with kinderr := none } = .ok (k, size, none) s₁ ∧
        sizeErr s₁ size = none ∧ { s₁ with kind := some k, size := size, kinderr := none } = s' := by
  unfold Stream.Kind
  simp only [get_bind_apply, hk, set_bind_apply]
  rcases hst : s.stack with _ | ⟨tos, tail⟩
  on_goal 1 => simp only [atEOL, not_false_eq_true, true_and]
  on_goal 2 =>
    simp only [atEOL]
    rw [ite_apply_state]
    split
    on_goal 1 => simp [*]
    simp only [*, not_false_eq_true, true_and]
  all_goals
    rw [bind_eq_ok]
    constructor
    · rintro ⟨⟨k', size', err⟩, s₁, hr, hf⟩
      cases err with
      | some e => simp at hf
      | none =>
        cases hse : sizeErr s₁ size' with
        | some e => simp [hse] at hf
        | none =>
          simp [hse] at hf
          obtain ⟨⟨rfl, rfl⟩, rfl⟩ := hf
          exact ⟨s₁, hr, hse, rfl⟩
    · rintro ⟨s₁, hr, hse, rfl⟩
      exact ⟨_, _, hr, by simp [hse]⟩

/-- `Kind` with no kind cached reports `EOL` only at the end of the innermost list, and then
reads nothing. -/
theorem kind_eq_error_eol {s s' : Stream} (hk : s.kind = none) (h : Stream.Kind s = .error .eol s') :
    atEOL s.stack ∧ { s with kinderr := none } = s' := by
  unfold Stream.Kind at h
  simp only [get_bind_apply, hk, set_bind_apply] at h
  have tail : ∀ t : Stream, ¬ (readKind >>= fun x => do
      let s ← get
      set { s with kind := some x.1, size := x.2.1,
                   kinderr := match x.2.2 with
                     | some e => some e
                     | none => sizeErr s x.2.1 }
      match (match x.2.2 with
        | some e => some e
        | none => sizeErr s x.2.1) with
      | some e => throw e
      | none => pure (x.1, x.2.1)) t = .error .eol s' := by
    intro t ht
    rcases bind_eq_error.mp ht with hr | ⟨⟨k, size, err⟩, s₁, hr, hf⟩
    · exact throws_readKind _ _ _ hr
    · cases err with
      | some e =>
        simp only [get_bind_apply, set_bind_apply, throw_apply, EStateM.Result.error.injEq] at hf
        exact readKind_err_ne_eol hr hf.1
      | none =>
        cases hse : sizeErr s₁ size with
        | some e =>
          simp only [get_bind_apply, set_bind_apply, hse, throw_apply, EStateM.Result.error.injEq] at hf
          exact sizeErr_ne_eol s₁ size (hf.1 ▸ hse)
        | none => simp [hse] at hf
  rcases hst : s.stack with _ | ⟨tos, tail'⟩
  · simp only [hst] at h
    exact absurd h (tail _)
  · simp only [hst] at h
    rw [ite_apply_state] at h
    split at h
    · simp only [throw_bind_apply, EStateM.Result.error.injEq] at h
      refine ⟨by simpa [atEOL, hst], ?_⟩
      rw [← h.2]
      apply Stream.ext <;> simp [hk]
    · exact absurd h (tail _)

theorem bytes_of_cached_byte {s : Stream} (hk : s.kind = some .byte) (he : s.kinderr = none) :
    Stream.Bytes s = .ok [s.byteval] { s with kind := none } := by
  unfold Stream.Bytes
  rw [bind_of_ok (kind_of_cached hk he)]
  rfl

theorem bytes_of_cached_string {s s' : Stream} {b : Bytes} (hk : s.kind = some .string)
    (he : s.kinderr = none) :
    Stream.Bytes s = .ok b s' ↔ readFull s.size s = .ok b s' ∧ ¬ (s.size = 1 ∧ b[0]! < 128) := by
  unfold Stream.Bytes
  rw [bind_of_ok (kind_of_cached hk he)]
  show (readFull s.size >>= fun b => if s.size = 1 ∧ b[0]! < 128 then throw .canonSize else pure b) s
    = _ ↔ _
  rw [bind_eq_ok]
  constructor
  · rintro ⟨b', s₁, hr, hp⟩
    rw [ite_apply_state] at hp
    split at hp
    · cases hp
    · cases hp
      exact ⟨hr, by assumption⟩
  · rintro ⟨hr, hc⟩
    refine ⟨b, s', hr, ?_⟩
    rw [ite_apply_state, if_neg hc]
    rfl

/-- `Bytes` after `Kind` never reports `EOL`. -/
theorem bytes_of_cached_ne_eol {s s' : Stream} {k : Kind} {e : RlpError} (hk : s.kind = some k)
    (he : s.kinderr = none) (h : Stream.Bytes s = .error e s') : e ≠ .eol := by
  unfold Stream.Bytes at h
  rw [bind_of_ok (kind_of_cached hk he)] at h
  cases k with
  | byte => cases h
  | string =>
    exact ((throws_readFull _).bind fun _ => Throws.ite (throws_throw (by decide)) (throws_pure _))
      _ _ _ h
  | list =>
    cases h
    decide

theorem list_of_cached {s : Stream} (hk : s.kind = some .list) (he : s.kinderr = none) :
    Stream.List s = .ok s.size { s with stack := ⟨0, s.size⟩ :: s.stack, kind := none, size := 0 } := by
  unfold Stream.List
  rw [bind_of_ok (kind_of_cached hk he)]
  rfl

/-- `ListEnd` leaves a list read to its end and charges its payload to the enclosing list. -/
theorem listEnd_eq_ok {s s' : Stream} {u : Unit} :
    Stream.ListEnd s = .ok u s' ↔
      ∃ tos rest, s.stack = tos :: rest ∧ tos.pos = tos.size ∧
        { s with stack := chargeTop rest tos.size, kind := none, size := 0 } = s' := by
  unfold Stream.ListEnd
  simp only [get_bind_apply]
  rcases hst : s.stack with _ | ⟨tos, rest⟩
  · simp
  · dsimp only
    rw [ite_apply_state]
    split
    · simp [*]
    · rename_i hpos
      rcases rest with _ | ⟨p, ps⟩ <;> simp_all [eq_comm]

theorem throws_listEnd : Throws (· ≠ .eol) Stream.ListEnd := by
  intro s e s' h
  unfold Stream.ListEnd at h
  simp only [get_bind_apply] at h
  rcases hst : s.stack with _ | ⟨tos, rest⟩ <;> simp only [hst] at h
  · simp only [throw_apply, EStateM.Result.error.injEq] at h
    rw [← h.1]
    decide
  · rw [ite_apply_state] at h
    split at h
    · simp only [throw_bind_apply, EStateM.Result.error.injEq] at h
      rw [← h.1]
      decide
    · cases h

end Ccmchain.Rlp
