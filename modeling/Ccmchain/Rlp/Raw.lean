import Ccmchain.Rlp.Stream
import Ccmchain.Lib.Except

/-!
# Splitting values without a stream (`rlp/raw.go`)

`Split` reads the header at the start of a byte slice with a `readKind` and `readSize` of its
own, and returns the value's content and what follows it as subslices. It is a second reader
of the header grammar that `Stream.Kind` reads through `willRead` and `readUint`.

`head` states that grammar once: the kind, header length and declared size of the header at the
start of an input, or why there is none. `readKind_eq_head` computes `Split`'s reader from it
and `kind_reset_eq_head` computes `Kind` on a fresh stream from it, so the two readers are
compared through `head` alone. They agree except on one family of inputs: the string header
`0x81` followed by a byte below `0x80`, which `Split` rejects at once with `ErrCanonSize` while
`Kind` accepts it and leaves the check to `Bytes`.

Go's `uint64` arithmetic is `UInt64` here, and a slice expression that would panic is an error
of the outer `Except`. Go's `len` is an `int`, so the theorems about `Split` take
`b.length < 2 ^ 63`.
-/

namespace Ccmchain.Rlp

open EStateM

/-! ### The header grammar -/

/-- The header at the start of an input, as the RLP grammar reads it. -/
inductive Head where
  /-- There is no byte. -/
  | empty
  /-- A byte below `0x80`, which is its own value. -/
  | byte
  /-- A header of kind `k`, `tag` bytes long, that declares `size` bytes of content. -/
  | header (k : Kind) (tag size : Nat)
  /-- A long header whose size field runs past the input. -/
  | cut
  /-- A long header whose size field is below 56 or starts with a zero byte. -/
  | noncanonical
  deriving DecidableEq, Repr

/-- A long header of kind `k` whose size field is the `len` bytes at the start of `rest`. -/
def longHead (k : Kind) (len : Nat) (rest : Bytes) : Head :=
  if rest.length < len then .cut
  else if BigEndian.toNat (rest.take len) < 56 ∨ rest.head? = some 0 then .noncanonical
  else .header k (len + 1) (BigEndian.toNat (rest.take len))

/-- The header at the start of `b`. -/
def head : Bytes → Head
  | [] => .empty
  | c :: rest =>
    if c < 0x80 then .byte
    else if c < 0xB8 then .header .string 1 (c - 0x80).toNat
    else if c < 0xC0 then longHead .string (c - 0xB7).toNat rest
    else if c < 0xF8 then .header .list 1 (c - 0xC0).toNat
    else longHead .list (c - 0xF7).toNat rest

theorem longHead_eq_header {k k' : Kind} {len tag n : Nat} {rest : Bytes}
    (h : longHead k len rest = .header k' tag n) :
    k' = k ∧ tag = len + 1 ∧ len ≤ rest.length ∧ n = BigEndian.toNat (rest.take len) ∧ 56 ≤ n := by
  unfold longHead at h
  split_ifs at h with hcut hcanon
  cases h
  exact ⟨rfl, rfl, by omega, rfl, by omega⟩

/-- The size field after a long string tag is one to eight bytes long. -/
theorem long_string_len {c : UInt8} (h1 : ¬ c < 0xB8) (h2 : c < 0xC0) :
    1 ≤ (c - 0xB7).toNat ∧ (c - 0xB7).toNat ≤ 8 := by
  simp [UInt8.lt_iff_toNat_lt, UInt8.toNat_sub] at h1 h2 ⊢
  omega

/-- The size field after a long list tag is one to eight bytes long. -/
theorem long_list_len {c : UInt8} (h1 : ¬ c < 0xF8) :
    1 ≤ (c - 0xF7).toNat ∧ (c - 0xF7).toNat ≤ 8 := by
  have := c.toNat_lt
  simp [UInt8.lt_iff_toNat_lt, UInt8.toNat_sub] at h1 ⊢
  omega

theorem head_eq_byte {b : Bytes} (h : head b = .byte) : b ≠ [] := by
  rintro rfl
  cases h

/-- A header fits the input it was read from, and its size fits a `uint64`; only a short header
declares a size below 56. -/
theorem head_eq_header {b : Bytes} {k : Kind} {tag size : Nat} (h : head b = .header k tag size) :
    tag ≤ b.length ∧ size < 2 ^ 64 ∧ (tag = 1 ∨ 56 ≤ size) := by
  -- a long header's size field is at most eight bytes, so its value fits
  have hlong : ∀ {k' len rest}, len ≤ 8 → longHead k' len rest = .header k tag size →
      tag ≤ rest.length + 1 ∧ size < 2 ^ 64 ∧ (tag = 1 ∨ 56 ≤ size) := by
    intro k' len rest h8 h
    obtain ⟨-, rfl, hlen, rfl, h56⟩ := longHead_eq_header h
    refine ⟨by omega, ?_, .inr h56⟩
    calc BigEndian.toNat (rest.take len) < 256 ^ (rest.take len).length := BigEndian.toNat_lt _
      _ ≤ 256 ^ 8 := Nat.pow_le_pow_right (by norm_num) (by simp; omega)
      _ = 2 ^ 64 := by norm_num
  cases b with
  | nil => cases h
  | cons c rest =>
    simp only [head] at h
    split_ifs at h with h80 hB8 hC0 hF8
    · cases h
      exact ⟨by simp, (c - 128).toNat_lt.trans (by norm_num), .inl rfl⟩
    · simpa using hlong (long_string_len hB8 hC0).2 h
    · cases h
      exact ⟨by simp, (c - 192).toNat_lt.trans (by norm_num), .inl rfl⟩
    · simpa using hlong (long_list_len hF8).2 h

theorem head_eq_header_kind {b : Bytes} {k : Kind} {tag size : Nat}
    (h : head b = .header k tag size) : k ≠ .byte := by
  cases b with
  | nil => cases h
  | cons c rest =>
    simp only [head] at h
    split_ifs at h
    · cases h
      decide
    · rw [(longHead_eq_header h).1]
      decide
    · cases h
      decide
    · rw [(longHead_eq_header h).1]
      decide

/-- Only a short header declares one byte, which comes right after its tag byte. -/
theorem single_byte_iff {b : Bytes} {k : Kind} {tag size : Nat} (hh : head b = .header k tag size) :
    (k = .string ∧ size = 1 ∧ isByte ((b.drop tag).take size)) ↔
      (k = .string ∧ size = 1 ∧ isByte ((b.drop 1).take 1)) := by
  obtain ⟨-, -, h1⟩ := head_eq_header hh
  by_cases hsz : size = 1
  · obtain rfl : tag = 1 := by omega
    rw [hsz]
  · simp [hsz]

theorem isByte_length {l : Bytes} (h : isByte l) : l.length = 1 := by
  match l, h with
  | [_], _ => rfl

/-! ### `raw.go` -/

/-- `readSize`: the size in the `slen` bytes at the start of `b`, big-endian, which must be at
least 56 and have no leading zero byte. -/
def Raw.readSize (b : Bytes) (slen : Nat) : Except RlpError UInt64 :=
  if slen > b.length then .error .unexpectedEOF
  else
    -- the switch reads `slen` bytes for `slen` from 1 to 8, and leaves `s = 0` otherwise
    let s := if slen ≤ 8 then BigEndian.toNat (b.take slen) else 0
    if s < 56 ∨ b.head? = some 0 then .error .canonSize
    else .ok s.toUInt64

/-- The switch of `Raw.readKind` on the first byte `b`, followed by `rest`. -/
def Raw.readTag (b : UInt8) (rest : Bytes) : Except RlpError (Kind × UInt64 × UInt64) :=
  if b < 0x80 then .ok (.byte, 0, 1)
  else if b < 0xB8 then
    let contentsize := (b - 0x80).toUInt64
    -- Reject strings that should've been single bytes.
    if contentsize = 1 ∧ rest.head?.any (fun c => c < 128) then .error .canonSize
    else .ok (.string, 1, contentsize)
  else if b < 0xC0 then do
    let contentsize ← Raw.readSize rest (b - 0xB7).toNat
    pure (.string, (b - 0xB7).toUInt64 + 1, contentsize)
  else if b < 0xF8 then .ok (.list, 1, (b - 0xC0).toUInt64)
  else do
    let contentsize ← Raw.readSize rest (b - 0xF7).toNat
    pure (.list, (b - 0xF7).toUInt64 + 1, contentsize)

/-- `readKind`: the kind, tag size and content size of the value at the start of `buf`. -/
def Raw.readKind (buf : Bytes) : Except RlpError (Kind × UInt64 × UInt64) :=
  match buf with
  | [] => .error .unexpectedEOF
  | b :: rest => do
    let (k, tagsize, contentsize) ← Raw.readTag b rest
    -- Reject values larger than the input slice.
    if contentsize > (b :: rest).length.toUInt64 - tagsize then throw .valueTooLarge
    pure (k, tagsize, contentsize)

/-- Go's slice expression `b[lo:hi]`, which panics unless `lo ≤ hi ≤ cap(b)`. The model bounds
`hi` by the length, which is at most the capacity, so it panics at least as often as Go. -/
def slice (b : Bytes) (lo hi : UInt64) : Except String Bytes :=
  if lo ≤ hi ∧ hi.toNat ≤ b.length then .ok ((b.take hi.toNat).drop lo.toNat)
  else .error "slice bounds out of range"

/-- `Split`: the kind of the first value of `b`, its content and the bytes after it, or Go's
`(0, nil, b, err)`. An error of the outer `Except` is a panic. -/
def Split (b : Bytes) : Except String (Kind × Bytes × Bytes × Option RlpError) :=
  match Raw.readKind b with
  | .error err => pure (.byte, [], b, some err)
  | .ok (k, ts, cs) => do
    let content ← slice b ts (ts + cs)
    let rest ← slice b (ts + cs) b.length.toUInt64
    pure (k, content, rest, none)

/-! ### `Split` reads the grammar -/

/-- The value of a `uint64` conversion of a natural that fits. -/
theorem toNat_toUInt64 {n : Nat} (h : n < 2 ^ 64) : n.toUInt64.toNat = n := by
  simp only [Nat.toUInt64]
  exact Nat.mod_eq_of_lt h

/-- `readKind`'s check `contentsize > uint64(len(buf)) - tagsize`, for a tag that fits the buffer,
does not wrap around. -/
theorem gt_sub_iff {ts cs : UInt64} {n : Nat} (ht : ts.toNat ≤ n) (hn : n < 2 ^ 64) :
    cs > n.toUInt64 - ts ↔ n - ts.toNat < cs.toNat := by
  have htn : ts ≤ n.toUInt64 := by
    rw [UInt64.le_iff_toNat_le, toNat_toUInt64 hn]
    exact ht
  rw [gt_iff_lt, UInt64.lt_iff_toNat_lt, UInt64.toNat_sub_of_le _ _ htn, toNat_toUInt64 hn]

/-- A content size of one is checked against the byte after the tag: `Split` wants a byte below
`0x80` encoded as itself. -/
theorem isByte_take_one (r : Bytes) : isByte (r.take 1) = r.head?.any (fun c => c < 128) := by
  cases r <;> simp [isByte]

/-- The long cases of `Raw.readTag`: a size field of `d` bytes, read by `readSize`, is the long
header `longHead` describes. -/
theorem readSize_bind_head {k : Kind} {d : UInt8} {rest : Bytes} (h8 : d.toNat ≤ 8) :
    (do let cs ← Raw.readSize rest d.toNat; pure (k, d.toUInt64 + 1, cs)) =
      match longHead k d.toNat rest with
      | .empty | .cut => .error .unexpectedEOF
      | .byte => .ok (.byte, 0, 1)
      | .header k tag size =>
        if k = .string ∧ size = 1 ∧ isByte (rest.take size) then .error .canonSize
        else .ok (k, tag.toUInt64, size.toUInt64)
      | .noncanonical => .error .canonSize := by
  simp only [Raw.readSize, longHead, h8, if_true, gt_iff_lt]
  split_ifs with hcut hcanon
  · rfl
  · rfl
  · -- a long header declares at least 56 bytes, so the one-byte check is not made
    have h1 : BigEndian.toNat (rest.take d.toNat) ≠ 1 := by omega
    simp only [h1, false_and, and_false, if_false, UInt64.ofNat_add, UInt64.ofNat_uInt8ToNat]
    rfl

/-- The switch of `Raw.readKind`, computed from the header its input starts with. -/
theorem readTag_eq_head (c : UInt8) (rest : Bytes) :
    Raw.readTag c rest =
      match head (c :: rest) with
      | .empty | .cut => .error .unexpectedEOF
      | .byte => .ok (.byte, 0, 1)
      | .header k tag size =>
        if k = .string ∧ size = 1 ∧ isByte (rest.take size) then .error .canonSize
        else .ok (k, tag.toUInt64, size.toUInt64)
      | .noncanonical => .error .canonSize := by
  simp only [head]
  unfold Raw.readTag
  split_ifs with h80 hB8 hC0 hF8
  · rfl
  · have h1 : (c - 128).toUInt64 = 1 ↔ (c - 128).toNat = 1 := by
      rw [← UInt64.toNat_inj, UInt8.toNat_toUInt64, UInt64.toNat_one]
    by_cases hn : (c - 128).toNat = 1
    · simp only [h1.mpr hn, hn, isByte_take_one, true_and]
      rfl
    · simp only [h1, hn, false_and, if_false, UInt64.ofNat_uInt8ToNat]
      rfl
  · exact readSize_bind_head (long_string_len hB8 hC0).2
  · simp [UInt64.ofNat_uInt8ToNat]
  · exact readSize_bind_head (long_list_len hF8).2

/-- `Raw.readKind`, computed from the header its input starts with: the tag's error, or the
header's kind, tag size and content size when the content fits. -/
theorem readKind_eq_head (b : Bytes) (hb : b.length < 2 ^ 64) :
    Raw.readKind b =
      match head b with
      | .empty | .cut => .error .unexpectedEOF
      | .byte => .ok (.byte, 0, 1)
      | .header k tag size =>
        if k = .string ∧ size = 1 ∧ isByte ((b.drop tag).take size) then .error .canonSize
        else if b.length - tag < size then .error .valueTooLarge
        else .ok (k, tag.toUInt64, size.toUInt64)
      | .noncanonical => .error .canonSize := by
  cases b with
  | nil => rfl
  | cons c rest =>
    simp only [Raw.readKind]
    rw [readTag_eq_head]
    rcases hh : head (c :: rest) with _ | _ | ⟨k, tag, size⟩ | _ | _
    case byte =>
      have hfit : ¬ (1 : UInt64) > (c :: rest).length.toUInt64 - 0 := by
        rw [gt_sub_iff (by simp) hb]
        simp
      simp only [bind, Except.bind, hfit, if_false]
      rfl
    case header =>
      obtain ⟨ht, hs, h1⟩ := head_eq_header hh
      -- only a short header declares one byte, which follows its tag byte
      have hcanon : (k = .string ∧ size = 1 ∧ isByte (rest.take size)) ↔
          (k = .string ∧ size = 1 ∧ isByte (((c :: rest).drop tag).take size)) := by
        by_cases hsz : size = 1
        · obtain rfl : tag = 1 := by omega
          rfl
        · simp [hsz]
      have htag : tag.toUInt64.toNat ≤ (c :: rest).length := by
        rw [toNat_toUInt64 (by omega)]
        exact ht
      dsimp only
      simp only [hcanon]
      have hsize : size.toUInt64 > (c :: rest).length.toUInt64 - tag.toUInt64 ↔
          (c :: rest).length - tag < size := by
        rw [gt_sub_iff htag hb, toNat_toUInt64 hs, toNat_toUInt64 (by omega : tag < 2 ^ 64)]
      split_ifs with hc hfit
      · rfl
      · simp only [bind, Except.bind, hsize, hfit, if_true]
        rfl
      · simp only [bind, Except.bind, hsize, hfit, if_false]
        rfl
    all_goals rfl

/-- A slice within the length does not panic. -/
theorem slice_of_le {b : Bytes} {lo hi : UInt64} (h : lo.toNat ≤ hi.toNat) (hhi : hi.toNat ≤ b.length) :
    slice b lo hi = .ok ((b.take hi.toNat).drop lo.toNat) := by
  simp [slice, UInt64.le_iff_toNat_le, h, hhi]

/-- `Split`, computed from the header its input starts with: it never panics, and returns the
content and the rest of a value whose header is canonical and whose content fits, and otherwise
`readKind`'s error. -/
theorem split_eq_head (b : Bytes) (hb : b.length < 2 ^ 63) :
    Split b = .ok (match head b with
      | .empty | .cut => (.byte, [], b, some .unexpectedEOF)
      | .byte => (.byte, b.take 1, b.drop 1, none)
      | .header k tag size =>
        if k = .string ∧ size = 1 ∧ isByte ((b.drop tag).take size) then (.byte, [], b, some .canonSize)
        else if b.length - tag < size then (.byte, [], b, some .valueTooLarge)
        else (k, (b.drop tag).take size, b.drop (tag + size), none)
      | .noncanonical => (.byte, [], b, some .canonSize)) := by
  have hb64 : b.length < 2 ^ 64 := by omega
  have hlen : b.length.toUInt64.toNat = b.length := toNat_toUInt64 hb64
  unfold Split
  rw [readKind_eq_head b hb64]
  rcases hh : head b with _ | _ | ⟨k, tag, size⟩ | _ | _
  case byte =>
    have h1 : 1 ≤ b.length := List.length_pos_iff.mpr (head_eq_byte hh)
    dsimp only
    rw [slice_of_le (by simp) (by simpa using h1), slice_of_le (by simp [hlen]; omega) hlen.le]
    simp [hlen]
  case header =>
    obtain ⟨ht, hs, h1⟩ := head_eq_header hh
    have htag : tag.toUInt64.toNat = tag := toNat_toUInt64 (by omega)
    dsimp only
    split_ifs with hc hfit
    · rfl
    · rfl
    · -- the content ends within the input, so neither slice panics
      have hhi : (tag.toUInt64 + size.toUInt64).toNat = tag + size := by
        rw [UInt64.toNat_add, htag, toNat_toUInt64 hs]
        omega
      simp only
      rw [slice_of_le (by rw [hhi, htag]; omega) (by rw [hhi]; omega),
        slice_of_le (by rw [hhi, hlen]; omega) hlen.le]
      simp [hhi, htag, hlen, List.drop_take]
  all_goals rfl

example : Split [0x82, 1, 2, 3] = .ok (.string, [1, 2], [3], none) := by decide

/-! ### `Kind` on a fresh stream reads the grammar

`Reset` over a byte slice charges every read to the input limit, which starts as the slice's
length; at the top level the limit therefore stays the length of what is left, `Stream.Top`, and
`willRead` fails exactly where the input would run out. -/

/-- A stream at the top level whose input limit is what is left of its input, as `Reset` leaves
one over a byte slice and as reading keeps it. -/
structure Stream.Top (s : Stream) : Prop where
  stack : s.stack = []
  limited : s.limited = true
  remaining : s.remaining = s.r.length

/-- `Reset` over a byte slice, with its length as the input limit. -/
theorem top_reset (b : Bytes) : (Stream.reset b b.length).Top := by
  constructor <;> simp [Stream.reset]

/-- After `n` more bytes are read the stream is again at the top level. -/
theorem Stream.Top.read {s : Stream} (h : s.Top) (n : Nat) :
    ({ s.charge n with r := s.r.drop n } : Stream).Top := by
  constructor <;> simp [h.stack, h.limited, h.remaining]

theorem Stream.Top.unkind {s : Stream} (h : s.Top) : ({ s with kind := none } : Stream).Top :=
  ⟨h.stack, h.limited, h.remaining⟩

theorem willRead_of_top {s : Stream} (h : s.Top) (n : Nat) :
    willRead n s = if s.r.length < n then .error .valueTooLarge { s with kind := none }
      else .ok () (s.charge n) := by
  unfold willRead
  simp [h.stack, h.limited, h.remaining, Stream.charge]
  split_ifs <;> rfl

theorem readByte_of_top {s : Stream} (h : s.Top) :
    readByte s = match s.r with
      | [] => .error .valueTooLarge { s with kind := none }
      | c :: rest => .ok c { s.charge 1 with r := rest } := by
  unfold readByte
  rw [bind_apply, willRead_of_top h]
  cases hr : s.r with
  | nil => simp
  | cons c rest => simp [hr]

theorem readFull_of_top {s : Stream} (h : s.Top) (n : Nat) :
    readFull n s = if s.r.length < n then .error .valueTooLarge { s with kind := none }
      else .ok (s.r.take n) { s.charge n with r := s.r.drop n } := by
  unfold readFull
  rw [bind_apply, willRead_of_top h]
  split_ifs with hn
  · rfl
  · simp [show n ≤ s.r.length by omega]

/-- `readUint` of a one- to eight-byte size field at the top level: the input ends too early, or
the field has a leading zero, or it is read. -/
theorem readUint_of_top {s : Stream} (h : s.Top) {len : Nat} (h1 : 1 ≤ len) (h8 : len ≤ 8) :
    readUint len s =
      if s.r.length < len then .error .valueTooLarge { s with kind := none }
      else if 2 ≤ len ∧ s.r.head? = some 0 then
        .error .canonSize { s.charge len with r := s.r.drop len }
      else .ok (BigEndian.toNat (s.r.take len)) { s.charge len with r := s.r.drop len } := by
  obtain rfl | ⟨k, rfl⟩ : len = 1 ∨ ∃ k, len = k + 2 := by
    rcases Nat.lt_or_ge len 2 with h | h
    · exact .inl (by omega)
    · exact .inr ⟨len - 2, by omega⟩
  · show (readByte >>= fun b => pure b.toNat) s = _
    rw [bind_apply, readByte_of_top h]
    cases hr : s.r with
    | nil => simp
    | cons c rest => simp [BigEndian.toNat_cons]
  · show (readFull (k + 2) >>= fun buf =>
      if buf[0]! = 0 then throw .canonSize >>= fun _ => pure _ else pure _) s = _
    rw [bind_apply, readFull_of_top h]
    by_cases hn : s.r.length < k + 2
    · simp [hn]
    · simp only [hn, if_false]
      rw [ite_apply_state]
      cases hr : s.r with
      | nil => simp [hr] at hn
      | cons c rest => by_cases hc : c = 0 <;> simp [hc, BigEndian.toNat_replicate_zero_append]

/-- A one-byte size field starting with zero is zero. -/
theorem toNat_take_of_head_zero {r : Bytes} (hz : r.head? = some 0) :
    BigEndian.toNat (r.take 1) = 0 := by
  cases r with
  | nil => simp at hz
  | cons c rest =>
    simp only [List.head?_cons, Option.some.injEq] at hz
    simp [hz, BigEndian.toNat_cons]

/-- What a header reader at the top level should return, by the header `hd` at the start of its
input `r`: the kind and size of a header, with `r'` left to read after it, and otherwise the
error `Kind` throws. -/
def ReadsHead (r : Bytes) (k : Kind) (size : Nat) (err : Option RlpError) (r' : Bytes) :
    Head → Prop
  | .empty => err = some .eof
  | .byte => k = .byte ∧ size = 0 ∧ err = none
  | .header k' tag n => k = k' ∧ size = n ∧ err = none ∧ r' = r.drop tag
  | .cut => err = some .valueTooLarge
  | .noncanonical => err = some .canonSize

/-- `readLongSize` at the top level, after the tag byte `c`, reads the long header `longHead`
describes. -/
theorem readLongSize_of_top {s : Stream} (h : s.Top) (c : UInt8) (k : Kind) {len : Nat}
    (h1 : 1 ≤ len) (h8 : len ≤ 8) :
    ∃ size err s', readLongSize k len s = .ok (k, size, err) s' ∧ s'.Top ∧
      ReadsHead (c :: s.r) k size err s'.r (longHead k len s.r) := by
  unfold readLongSize
  rw [bind_apply, attempt, readUint_of_top h h1 h8]
  unfold longHead
  by_cases hcut : s.r.length < len
  · simp only [hcut, if_true]
    exact ⟨0, _, _, rfl, h.unkind, rfl⟩
  by_cases hz : 2 ≤ len ∧ s.r.head? = some 0
  · simp only [hcut, hz, if_false, if_true, and_self, or_true]
    exact ⟨0, _, _, rfl, h.read len, rfl⟩
  have hnz : s.r.head? = some 0 → BigEndian.toNat (s.r.take len) < 56 := by
    intro h0
    have h2 : ¬ 2 ≤ len := fun h2 => hz ⟨h2, h0⟩
    rw [show len = 1 by omega, toNat_take_of_head_zero h0]
    omega
  simp only [hcut, hz, if_false]
  by_cases hv : BigEndian.toNat (s.r.take len) < 56
  · simp only [hv, if_true, true_or]
    exact ⟨_, _, _, rfl, h.read len, rfl⟩
  · have h0 : ¬ s.r.head? = some 0 := fun h0 => hv (hnz h0)
    simp only [hv, h0, if_false, or_self]
    exact ⟨_, _, _, rfl, h.read len, rfl, rfl, rfl, rfl⟩

/-- `readKind` at the top level reads the header `head` describes. -/
theorem readKind_of_top {s : Stream} (h : s.Top) :
    ∃ k size err s', readKind s = .ok (k, size, err) s' ∧ s'.Top ∧
      ReadsHead s.r k size err s'.r (head s.r) := by
  unfold readKind
  rw [bind_apply, attempt, readByte_of_top h]
  cases hr : s.r with
  | nil =>
    simp only [head, get_bind_apply, pure_apply, h.stack, if_true, toplevelErr]
    refine ⟨_, _, _, _, rfl, ?_, rfl⟩
    constructor <;> simp [h.limited, h.remaining, hr]
  | cons c rest =>
    have h₁ : ({ s.charge 1 with r := rest, byteval := 0 } : Stream).Top := by
      constructor <;> simp [h.stack, h.limited, h.remaining, hr]
    simp only [modify_bind_apply, head]
    unfold readTag
    split_ifs with h80 hB8 hC0 hF8
    · simp only [modify_bind_apply, pure_apply]
      exact ⟨_, _, _, _, rfl, ⟨h₁.stack, h₁.limited, h₁.remaining⟩, rfl, rfl, rfl⟩
    · exact ⟨_, _, _, _, rfl, h₁, rfl, rfl, rfl, rfl⟩
    · obtain ⟨hl1, hl8⟩ := long_string_len hB8 hC0
      exact ⟨_, readLongSize_of_top h₁ c .string hl1 hl8⟩
    · exact ⟨_, _, _, _, rfl, h₁, rfl, rfl, rfl, rfl⟩
    · obtain ⟨hl1, hl8⟩ := long_list_len hF8
      exact ⟨_, readLongSize_of_top h₁ c .list hl1 hl8⟩

/-- `Kind` at the top level with no kind cached, computed from the header its input starts with:
the header's kind and size when its content fits the input, and otherwise the error. -/
theorem kind_of_top {s : Stream} (h : s.Top) (hk : s.kind = none) :
    (Stream.Kind s).toExcept =
      match head s.r with
      | .empty => .error .eof
      | .byte => .ok (.byte, 0)
      | .header k tag size => if s.r.length - tag < size then .error .valueTooLarge else .ok (k, size)
      | .cut => .error .valueTooLarge
      | .noncanonical => .error .canonSize := by
  obtain ⟨r, remaining, limited, kind, size₀, byteval, kinderr, stack⟩ := s
  obtain ⟨hst, hl, hrem⟩ := h
  simp only at hst hl hrem hk ⊢
  subst hst hk
  obtain ⟨k, size, err, s', hrk, htop, hreads⟩ :=
    readKind_of_top (s := ⟨r, remaining, limited, none, size₀, byteval, none, []⟩) ⟨rfl, hl, hrem⟩
  unfold Stream.Kind
  simp only [get_bind_apply, set_bind_apply]
  rw [bind_apply, hrk]
  simp only [get_bind_apply, set_bind_apply] at hreads ⊢
  -- the error `readKind` returns is thrown; without one, `sizeErr` checks the content fits
  rcases hh : head r with _ | _ | ⟨k', tag, n⟩ | _ | _ <;> simp only [hh, ReadsHead] at hreads ⊢
  case byte =>
    obtain ⟨rfl, rfl, rfl⟩ := hreads
    simp [sizeErr, htop.stack]
  case header =>
    obtain ⟨rfl, rfl, rfl, hr'⟩ := hreads
    simp only [sizeErr, htop.stack, htop.limited, htop.remaining, hr', List.length_drop, true_and,
      gt_iff_lt]
    split_ifs <;> rfl
  all_goals
    subst hreads
    rfl

theorem kind_reset_eq_head (b : Bytes) :
    (Stream.Kind (Stream.reset b b.length)).toExcept =
      match head b with
      | .empty => .error .eof
      | .byte => .ok (.byte, 0)
      | .header k tag size => if b.length - tag < size then .error .valueTooLarge else .ok (k, size)
      | .cut => .error .valueTooLarge
      | .noncanonical => .error .canonSize :=
  kind_of_top (top_reset b) rfl

/-! ### The two readers -/

/-- What `Split` returns without error `Kind` returns as well, with the content's length as its
size, and the content is not a byte below `0x80`; content and rest are the input after a header. -/
theorem kind_of_split_ok {b : Bytes} (hb : b.length < 2 ^ 63) {k : Kind} {content rest : Bytes}
    (h : Split b = .ok (k, content, rest, none)) :
    (Stream.Kind (Stream.reset b b.length)).toExcept =
        .ok (k, if k = .byte then 0 else content.length) ∧
      ¬ (k = .string ∧ isByte content) ∧ ∃ hdr, b = hdr ++ content ++ rest := by
  rw [split_eq_head b hb] at h
  rw [kind_reset_eq_head]
  rcases hh : head b with _ | _ | ⟨k', tag, size⟩ | _ | _ <;> simp only [hh] at h ⊢
  case byte =>
    simp only [Except.ok.injEq, Prod.mk.injEq] at h
    obtain ⟨rfl, rfl, rfl, -⟩ := h
    exact ⟨by simp, by simp, [], by rw [List.nil_append, List.take_append_drop]⟩
  case header =>
    obtain ⟨ht, hs, h1⟩ := head_eq_header hh
    split_ifs at h with hc hfit
    · simp at h
    · simp at h
    · simp only [Except.ok.injEq, Prod.mk.injEq] at h
      obtain ⟨rfl, rfl, rfl, -⟩ := h
      have hlen : ((b.drop tag).take size).length = size := by simp; omega
      refine ⟨by simp [hfit, head_eq_header_kind hh, hlen], ?_, b.take tag, ?_⟩
      · rintro ⟨hk, hbyte⟩
        exact hc ⟨hk, by rw [← hlen, isByte_length hbyte], hbyte⟩
      · rw [List.append_assoc, ← List.drop_drop, List.take_append_drop, List.take_append_drop]
  all_goals simp at h

/-- Where `Kind` returns a kind and size, `Split` succeeds unless the value is a one-byte string
whose byte is below `0x80`. -/
theorem split_ok_iff_of_kind {b : Bytes} (hb : b.length < 2 ^ 63) {k : Kind} {size : Nat}
    (h : (Stream.Kind (Stream.reset b b.length)).toExcept = .ok (k, size)) :
    (∃ content rest, Split b = .ok (k, content, rest, none)) ↔
      ¬ (k = .string ∧ size = 1 ∧ isByte ((b.drop 1).take 1)) := by
  rw [kind_reset_eq_head] at h
  rw [split_eq_head b hb]
  rcases hh : head b with _ | _ | ⟨k', tag, size'⟩ | _ | _ <;> simp only [hh] at h ⊢
  case byte =>
    simp only [Except.ok.injEq, Prod.mk.injEq] at h
    obtain ⟨rfl, rfl⟩ := h
    simp
  case header =>
    split_ifs at h with hfit
    simp only [Except.ok.injEq, Prod.mk.injEq] at h
    obtain ⟨rfl, rfl⟩ := h
    rw [← single_byte_iff hh]
    by_cases hc : k' = .string ∧ size' = 1 ∧ isByte ((b.drop tag).take size')
    · rw [if_pos hc]
      refine iff_of_false ?_ (not_not.mpr hc)
      rintro ⟨content, rest, h⟩
      simp at h
    · rw [if_neg hc, if_neg hfit]
      exact iff_of_true ⟨_, _, rfl⟩ hc
  all_goals simp at h

/-- `Split` returns `ErrCanonSize` exactly where `Kind` does, and on a one-byte string whose byte
is below `0x80`, which `Kind` accepts. -/
theorem split_canonSize_iff {b : Bytes} (hb : b.length < 2 ^ 63) :
    Split b = .ok (.byte, [], b, some .canonSize) ↔
      (Stream.Kind (Stream.reset b b.length)).toExcept = .error .canonSize ∨
      ((Stream.Kind (Stream.reset b b.length)).toExcept = .ok (.string, 1) ∧
        isByte ((b.drop 1).take 1)) := by
  rw [split_eq_head b hb, kind_reset_eq_head]
  rcases hh : head b with _ | _ | ⟨k, tag, size⟩ | _ | _ <;> simp only
  case header =>
    by_cases hc : k = .string ∧ size = 1 ∧ isByte ((b.drop tag).take size)
    · -- the byte after the tag is there, so the content fits
      have hfit : ¬ b.length - tag < size := by
        have := isByte_length hc.2.2
        simp at this
        omega
      rw [if_pos hc, if_neg hfit]
      obtain ⟨rfl, rfl, hbyte⟩ := (single_byte_iff hh).mp hc
      exact iff_of_true rfl (.inr ⟨rfl, hbyte⟩)
    · have hc' := mt (single_byte_iff hh).mpr hc
      rw [if_neg hc]
      by_cases hfit : b.length - tag < size
      · rw [if_pos hfit, if_pos hfit]
        simp
      · rw [if_neg hfit, if_neg hfit]
        refine iff_of_false (by simp) ?_
        rintro (h | ⟨h, hbyte⟩)
        · cases h
        · simp only [Except.ok.injEq, Prod.mk.injEq] at h
          exact hc' ⟨h.1, h.2, hbyte⟩
  all_goals simp

/-- A well-formed header that declares more content than the input holds: both readers return
`ErrValueTooLarge`. -/
theorem split_kind_valueTooLarge {b : Bytes} (hb : b.length < 2 ^ 63) {k : Kind} {tag size : Nat}
    (hh : head b = .header k tag size) (hlt : b.length - tag < size) :
    Split b = .ok (.byte, [], b, some .valueTooLarge) ∧
      (Stream.Kind (Stream.reset b b.length)).toExcept = .error .valueTooLarge := by
  -- a one-byte string cut after its tag has no byte to check
  have hc : ¬ (k = .string ∧ size = 1 ∧ isByte ((b.drop tag).take size)) := by
    rintro ⟨-, rfl, hbyte⟩
    have := isByte_length hbyte
    simp at this
    omega
  rw [split_eq_head b hb, kind_reset_eq_head, hh]
  simp only [if_neg hc, if_pos hlt, and_self]

/-- `Split` and `Kind` on a fresh stream read the same headers. `Split` never panics. It returns
a value exactly where `Kind` does, except for a one-byte string whose byte is below `0x80`, and
then `Kind` gives its kind and the content's length. Both return `ErrCanonSize` on a
non-canonical size field, and `Split` also on that one-byte string. Both return
`ErrValueTooLarge` for a well-formed header whose content runs past the input. -/
theorem split_agrees_with_kind (b : Bytes) (hb : b.length < 2 ^ 63) :
    (∃ r, Split b = .ok r) ∧
    (∀ k content rest, Split b = .ok (k, content, rest, none) →
      (Stream.Kind (Stream.reset b b.length)).toExcept =
          .ok (k, if k = .byte then 0 else content.length) ∧
        ¬ (k = .string ∧ isByte content) ∧ ∃ hdr, b = hdr ++ content ++ rest) ∧
    (∀ k size, (Stream.Kind (Stream.reset b b.length)).toExcept = .ok (k, size) →
      ((∃ content rest, Split b = .ok (k, content, rest, none)) ↔
        ¬ (k = .string ∧ size = 1 ∧ isByte ((b.drop 1).take 1)))) ∧
    (Split b = .ok (.byte, [], b, some .canonSize) ↔
      (Stream.Kind (Stream.reset b b.length)).toExcept = .error .canonSize ∨
      ((Stream.Kind (Stream.reset b b.length)).toExcept = .ok (.string, 1) ∧
        isByte ((b.drop 1).take 1))) ∧
    (∀ k tag size, head b = .header k tag size → b.length - tag < size →
      Split b = .ok (.byte, [], b, some .valueTooLarge) ∧
        (Stream.Kind (Stream.reset b b.length)).toExcept = .error .valueTooLarge) :=
  ⟨⟨_, split_eq_head b hb⟩, fun _ _ _ h => kind_of_split_ok hb h,
    fun _ _ h => split_ok_iff_of_kind hb h, split_canonSize_iff hb,
    fun _ _ _ hh hlt => split_kind_valueTooLarge hb hh hlt⟩

theorem split_agrees_with_kind_single_byte :
    ([0x81, 0] : Bytes).length < 2 ^ 63 ∧
    (∃ r, Split [0x81, 0] = .ok r) ∧
    (∀ k content rest, Split [0x81, 0] = .ok (k, content, rest, none) →
      (Stream.Kind (Stream.reset [0x81, 0] ([0x81, 0] : Bytes).length)).toExcept =
          .ok (k, if k = .byte then 0 else content.length) ∧
        ¬ (k = .string ∧ isByte content) ∧ ∃ hdr, [0x81, 0] = hdr ++ content ++ rest) ∧
    (∀ k size,
      (Stream.Kind (Stream.reset [0x81, 0] ([0x81, 0] : Bytes).length)).toExcept = .ok (k, size) →
      ((∃ content rest, Split [0x81, 0] = .ok (k, content, rest, none)) ↔
        ¬ (k = .string ∧ size = 1 ∧ isByte (([0x81, 0] : Bytes).drop 1 |>.take 1)))) ∧
    (Split [0x81, 0] = .ok (.byte, [], [0x81, 0], some .canonSize) ↔
      (Stream.Kind (Stream.reset [0x81, 0] ([0x81, 0] : Bytes).length)).toExcept = .error .canonSize ∨
      ((Stream.Kind (Stream.reset [0x81, 0] ([0x81, 0] : Bytes).length)).toExcept = .ok (.string, 1) ∧
        isByte (([0x81, 0] : Bytes).drop 1 |>.take 1))) ∧
    (∀ k tag size, head [0x81, 0] = .header k tag size → ([0x81, 0] : Bytes).length - tag < size →
      Split [0x81, 0] = .ok (.byte, [], [0x81, 0], some .valueTooLarge) ∧
        (Stream.Kind (Stream.reset [0x81, 0] ([0x81, 0] : Bytes).length)).toExcept =
          .error .valueTooLarge) :=
  ⟨by decide, split_agrees_with_kind [0x81, 0] (by decide)⟩

/-- The string `0x81 0x00`: `Split` rejects it with `ErrCanonSize`, while `Kind` on a fresh stream
over it returns a string of one byte without error. -/
theorem split_rejects_what_kind_accepts :
    Split [0x81, 0] = .ok (.byte, [], [0x81, 0], some .canonSize) ∧
      (Stream.Kind (Stream.reset [0x81, 0] 2)).toExcept = .ok (.string, 1) := by
  decide

end Ccmchain.Rlp
