import Ccmchain.Rlp.Value

/-!
# The encoder (`rlp/encode.go`)

`encbuf` does not write list headers where they belong while it encodes: the string data goes
to `str`, each list records a `listhead` with its offset into `str`, and `listEnd` computes
the list's payload size from the sizes seen at `list()` and at its end, with `lhsize` the
running total of header bytes. `toBytes` and `toWriter` then interleave the string data with
the headers. A list head is a pointer in Go; here it is the index of the head in `lheads`,
which only grows while a value is encoded.

Lengths are `Nat`: Go's `int` and `uint64` cannot overflow on the lengths of values a Go slice
can hold.
-/

namespace Ccmchain.Rlp

/-- `putint`: `i` in big-endian order in the fewest bytes, and at least one. -/
def putint (i : Nat) : Bytes :=
  if i < 2 ^ 8 then [i.toUInt8]
  else if i < 2 ^ 16 then [(i >>> 8).toUInt8, i.toUInt8]
  else if i < 2 ^ 24 then [(i >>> 16).toUInt8, (i >>> 8).toUInt8, i.toUInt8]
  else if i < 2 ^ 32 then [(i >>> 24).toUInt8, (i >>> 16).toUInt8, (i >>> 8).toUInt8, i.toUInt8]
  else if i < 2 ^ 40 then
    [(i >>> 32).toUInt8, (i >>> 24).toUInt8, (i >>> 16).toUInt8, (i >>> 8).toUInt8, i.toUInt8]
  else if i < 2 ^ 48 then
    [(i >>> 40).toUInt8, (i >>> 32).toUInt8, (i >>> 24).toUInt8, (i >>> 16).toUInt8,
      (i >>> 8).toUInt8, i.toUInt8]
  else if i < 2 ^ 56 then
    [(i >>> 48).toUInt8, (i >>> 40).toUInt8, (i >>> 32).toUInt8, (i >>> 24).toUInt8,
      (i >>> 16).toUInt8, (i >>> 8).toUInt8, i.toUInt8]
  else
    [(i >>> 56).toUInt8, (i >>> 48).toUInt8, (i >>> 40).toUInt8, (i >>> 32).toUInt8,
      (i >>> 24).toUInt8, (i >>> 16).toUInt8, (i >>> 8).toUInt8, i.toUInt8]

/-- `intsize`: the number of bytes `putint` writes, counted by shifting a byte at a time. -/
def intsize (i : Nat) : Nat :=
  if i >>> 8 = 0 then 1 else intsize (i >>> 8) + 1
termination_by i
decreasing_by
  rw [Nat.shiftRight_eq_div_pow] at *
  omega

/-- `puthead`: a one-byte header below 56, else the tag counting the size bytes. -/
def puthead (smalltag largetag : UInt8) (size : Nat) : Bytes :=
  if size < 56 then [smalltag + size.toUInt8]
  else (largetag + (putint size).length.toUInt8) :: putint size

/-- `listhead`: where a list header goes in the string data, and its payload size. -/
structure Listhead where
  offset : Nat
  size : Nat
  deriving Inhabited

/-- `listhead.encode`. -/
def Listhead.encode (head : Listhead) : Bytes :=
  puthead 0xC0 0xF7 head.size

/-- `encbuf`: string data, list headers and the total size of the headers. -/
structure Encbuf where
  str : Bytes
  lheads : List Listhead
  lhsize : Nat

namespace Encbuf

/-- A buffer after `reset`. -/
def empty : Encbuf := ⟨[], [], 0⟩

/-- `size`: the length of the output. -/
def size (w : Encbuf) : Nat := w.str.length + w.lhsize

def encodeStringHeader (w : Encbuf) (size : Nat) : Encbuf :=
  if size < 56 then { w with str := w.str ++ [0x80 + size.toUInt8] }
  else
    let sizesize := (putint size).length
    { w with str := w.str ++ ((0xB7 + sizesize.toUInt8) :: putint size) }

def encodeString (w : Encbuf) (b : Bytes) : Encbuf :=
  if b.length = 1 ∧ b[0]! ≤ 0x7F then { w with str := w.str ++ [b[0]!] }
  else
    let w := w.encodeStringHeader b.length
    { w with str := w.str ++ b }

/-- `list`: records a head at the current offset, holding `lhsize` until `listEnd`. -/
def list (w : Encbuf) : Encbuf × Nat :=
  ({ w with lheads := w.lheads ++ [{ offset := w.str.length, size := w.lhsize }] }, w.lheads.length)

def listEnd (w : Encbuf) (lh : Nat) : Encbuf :=
  let head := w.lheads[lh]!
  let size := w.size - head.offset - head.size
  let w := { w with lheads := w.lheads.set lh { head with size := size } }
  if size < 56 then { w with lhsize := w.lhsize + 1 }
  else { w with lhsize := w.lhsize + 1 + intsize size }

/-- The copying loop of `toBytes`, from string position `strpos`. -/
def copyOut (str : Bytes) (strpos : Nat) : List Listhead → Bytes
  | [] => str.drop strpos
  | head :: hs =>
    let seg := (str.drop strpos).take (head.offset - strpos)
    seg ++ head.encode ++ copyOut str (strpos + seg.length) hs

def toBytes (w : Encbuf) : Bytes :=
  copyOut w.str 0 w.lheads

/-- The writing loop of `toWriter`, from string position `strpos`. -/
def writeOut (str : Bytes) (strpos : Nat) : List Listhead → Bytes
  | [] => if strpos < str.length then str.drop strpos else []
  | head :: hs =>
    if head.offset - strpos > 0 then
      let piece := (str.drop strpos).take (head.offset - strpos)
      piece ++ head.encode ++ writeOut str (strpos + piece.length) hs
    else head.encode ++ writeOut str strpos hs

/-- The bytes `toWriter` writes. -/
def toWriter (w : Encbuf) : Bytes :=
  writeOut w.str 0 w.lheads

end Encbuf

open Encbuf

mutual

/-- The writers `encode` picks for a value tree: `writeBytes` for a string and the slice
writer, `list()` ... `listEnd`, around the elements of a list. -/
def writeValue : RlpValue → Encbuf → Encbuf
  | .str b, w => w.encodeString b
  | .list xs, w =>
    let (w, lh) := w.list
    (writeElems xs w).listEnd lh

def writeElems : List RlpValue → Encbuf → Encbuf
  | [], w => w
  | x :: xs, w => writeElems xs (writeValue x w)

end

/-- `EncodeToBytes`. -/
def EncodeToBytes (v : RlpValue) : Bytes :=
  (writeValue v Encbuf.empty).toBytes

/-- `Encode` into a writer that is not an `encbuf`: the bytes `toWriter` writes. -/
def Encode (v : RlpValue) : Bytes :=
  (writeValue v Encbuf.empty).toWriter

/-! ### Headers -/

/-- `putint` writes the shortest big-endian form of a positive 64-bit number. -/
theorem putint_eq_ofNat {i : Nat} (h0 : 0 < i) (h64 : i < 2 ^ 64) : putint i = BigEndian.ofNat i := by
  have key : ∀ l : Bytes, l.head? ≠ some 0 → BigEndian.toNat l = i → BigEndian.ofNat i = l := by
    intro l hl hv
    rw [← hv, BigEndian.ofNat_toNat hl]
  unfold putint
  simp only [Nat.shiftRight_eq_div_pow]
  repeat' split
  all_goals
    refine (key _ ?_ ?_).symm
    · simp only [List.head?_cons, ne_eq, Option.some.injEq]
      intro h
      have := congrArg UInt8.toNat h
      simp only [toNat_toUInt8, UInt8.toNat_zero] at this
      omega
    · simp only [BigEndian.toNat_cons, BigEndian.toNat_nil, toNat_toUInt8, List.length_cons,
        List.length_nil]
      omega

/-- `intsize` counts the bytes of the shortest big-endian form. -/
theorem intsize_eq {i : Nat} (h0 : 0 < i) : intsize i = (BigEndian.ofNat i).length := by
  induction i using Nat.strong_induction_on with
  | _ i ih =>
    have hshift : i >>> 8 = i / 256 := by
      rw [Nat.shiftRight_eq_div_pow]
    rw [intsize, BigEndian.length_ofNat, Nat.digits_def' (by norm_num) h0, List.length_cons, hshift]
    split
    · rename_i h
      rw [h, Nat.digits_zero]
      rfl
    · rename_i h
      have hpos : 0 < i / 256 := Nat.pos_of_ne_zero h
      rw [ih (i / 256) (Nat.div_lt_self h0 (by norm_num)) hpos, BigEndian.length_ofNat]

theorem length_putint {i : Nat} (h0 : 0 < i) (h64 : i < 2 ^ 64) : (putint i).length = intsize i := by
  rw [putint_eq_ofNat h0 h64, intsize_eq h0]

/-- A header that `puthead` writes is the documented one. -/
theorem puthead_eq_header {base large : UInt8} (hl : large = base + 55) {size : Nat}
    (h64 : size < 2 ^ 64) : puthead base large size = header base size := by
  unfold puthead header
  split
  · rfl
  · rename_i h
    rw [putint_eq_ofNat (by omega) h64, hl]

theorem encodeStringHeader_eq (w : Encbuf) {size : Nat} (h64 : size < 2 ^ 64) :
    w.encodeStringHeader size = { w with str := w.str ++ header 0x80 size } := by
  unfold encodeStringHeader
  have h := puthead_eq_header (show (0xB7 : UInt8) = 0x80 + 55 by decide) h64
  unfold puthead at h
  split
  · rename_i hs
    simp only [hs, ↓reduceIte] at h
    rw [← h]
  · rename_i hs
    simp only [hs, ↓reduceIte] at h
    rw [← h]

theorem encodeString_eq (w : Encbuf) {b : Bytes} (h64 : b.length < 2 ^ 64) :
    w.encodeString b = { w with str := w.str ++ encString b } := by
  unfold encodeString encString
  match b with
  | [x] =>
    by_cases hx : x < 0x80
    · have hx' : x ≤ 0x7F := by
        rw [UInt8.le_iff_toNat_le]
        rw [UInt8.lt_iff_toNat_lt] at hx
        simpa using Nat.lt_succ_iff.mp hx
      simp [isByte, hx, hx']
    · have hx' : ¬ x ≤ 0x7F := by
        rw [UInt8.le_iff_toNat_le]
        rw [UInt8.lt_iff_toNat_lt] at hx
        simp only [UInt8.toNat_ofNat, not_lt] at hx
        simp only [UInt8.toNat_ofNat, not_le]
        omega
      simp only [List.length_singleton, List.getElem!_cons_zero, hx', and_false, ↓reduceIte,
        isByte, hx, decide_false, Bool.false_eq_true]
      rw [encodeStringHeader_eq w (by norm_num)]
      simp
  | [] =>
    simp only [List.length_nil, zero_ne_one, false_and, ↓reduceIte, isByte, Bool.false_eq_true]
    rw [encodeStringHeader_eq w (by norm_num)]
    simp
  | x :: y :: l =>
    simp only [List.length_cons, Nat.add_eq_right, Nat.add_eq_zero_iff, one_ne_zero, and_false,
      false_and, ↓reduceIte, isByte, Bool.false_eq_true]
    rw [encodeStringHeader_eq w (by simpa using h64 : l.length + 1 + 1 < 2 ^ 64)]
    simp

/-! ### What encoding a value leaves in the buffer -/

mutual

/-- Every string and every list payload of the value is shorter than `2 ^ 64` bytes, the
sizes a header can state. -/
def RlpValue.Fits : RlpValue → Prop
  | .str b => b.length < 2 ^ 64
  | .list xs => (encList xs).length < 2 ^ 64 ∧ FitsList xs

def FitsList : List RlpValue → Prop
  | [] => True
  | x :: xs => x.Fits ∧ FitsList xs

end

mutual

/-- The bytes a value appends to the string data: its encoding without list headers. -/
def RlpValue.strData : RlpValue → Bytes
  | .str b => encString b
  | .list xs => strDataList xs

def strDataList : List RlpValue → Bytes
  | [] => []
  | x :: xs => x.strData ++ strDataList xs

end

mutual

/-- The bytes of the list headers in a value's encoding. -/
def RlpValue.hdrSize : RlpValue → Nat
  | .str _ => 0
  | .list xs => hdrSizeList xs + (header 0xC0 (encList xs).length).length

def hdrSizeList : List RlpValue → Nat
  | [] => 0
  | x :: xs => x.hdrSize + hdrSizeList xs

end

mutual

/-- The list heads a value records, its own first, when its string data starts at `off`. -/
def RlpValue.heads : RlpValue → Nat → List Listhead
  | .str _, _ => []
  | .list xs, off => { offset := off, size := (encList xs).length } :: headsList xs off

def headsList : List RlpValue → Nat → List Listhead
  | [], _ => []
  | x :: xs, off => x.heads off ++ headsList xs (off + x.strData.length)

end

mutual

theorem length_enc : ∀ v : RlpValue, v.enc.length = v.strData.length + v.hdrSize
  | .str b => by simp [RlpValue.strData, RlpValue.hdrSize]
  | .list xs => by
    have h := length_encList xs
    simp only [enc_list, List.length_append, RlpValue.strData, RlpValue.hdrSize]
    omega

theorem length_encList : ∀ xs : List RlpValue,
    (encList xs).length = (strDataList xs).length + hdrSizeList xs
  | [] => by simp [strDataList, hdrSizeList]
  | x :: xs => by
    have h₁ := length_enc x
    have h₂ := length_encList xs
    simp only [encList_cons, List.length_append, strDataList, hdrSizeList]
    omega

end

mutual

theorem fits_of_length_enc : ∀ v : RlpValue, v.enc.length < 2 ^ 64 → v.Fits
  | .str b, h => by
    have : b.length ≤ (encString b).length := by
      unfold encString
      split <;> simp
    simp only [enc_str] at h
    exact (show b.length < 2 ^ 64 by omega)
  | .list xs, h => by
    simp only [enc_list, List.length_append] at h
    exact ⟨by omega, fitsList_of_length_encList xs (by omega)⟩

theorem fitsList_of_length_encList : ∀ xs : List RlpValue, (encList xs).length < 2 ^ 64 → FitsList xs
  | [], _ => trivial
  | x :: xs, h => by
    simp only [encList_cons, List.length_append] at h
    exact ⟨fits_of_length_enc x (by omega), fitsList_of_length_encList xs (by omega)⟩

end

/-- `listEnd` on the head `lh`: its size becomes the bytes written since `list()`. -/
theorem listEnd_eq (w : Encbuf) (pre post : List Listhead) (h₀ : Listhead)
    (hl : w.lheads = pre ++ h₀ :: post) :
    w.listEnd pre.length =
      { str := w.str, lheads := pre ++ { h₀ with size := w.size - h₀.offset - h₀.size } :: post,
        lhsize := w.lhsize + (header 0xC0 (w.size - h₀.offset - h₀.size)).length } := by
  have hget : w.lheads[pre.length]! = h₀ := by
    simp [hl]
  have hset : w.lheads.set pre.length { h₀ with size := w.size - h₀.offset - h₀.size } =
      pre ++ { h₀ with size := w.size - h₀.offset - h₀.size } :: post := by
    rw [hl, List.set_append_right _ _ (le_refl _), Nat.sub_self, List.set_cons_zero]
  unfold listEnd
  simp only [hget, hset, length_header]
  split
  · simp
  · rename_i h
    simp only [Nat.add_assoc]
    rw [intsize_eq (by omega)]

mutual

theorem writeValue_eq : ∀ (v : RlpValue), v.Fits → ∀ w : Encbuf,
    writeValue v w =
      { str := w.str ++ v.strData, lheads := w.lheads ++ v.heads w.str.length,
        lhsize := w.lhsize + v.hdrSize }
  | .str b, hv, w => by
    rw [writeValue, encodeString_eq w hv]
    simp [RlpValue.strData, RlpValue.heads, RlpValue.hdrSize]
  | .list xs, hv, w => by
    have hel := writeElems_eq xs hv.2
      { w with lheads := w.lheads ++ [{ offset := w.str.length, size := w.lhsize }] }
    have hsize := length_encList xs
    rw [writeValue]
    simp only [Encbuf.list]
    rw [hel, listEnd_eq _ w.lheads (headsList xs w.str.length)
      { offset := w.str.length, size := w.lhsize } (by simp)]
    simp only [Encbuf.size, List.length_append]
    have hpay : w.str.length + (strDataList xs).length + (w.lhsize + hdrSizeList xs) -
        w.str.length - w.lhsize = (encList xs).length := by omega
    rw [hpay]
    simp [RlpValue.strData, RlpValue.heads, RlpValue.hdrSize, Nat.add_assoc]

theorem writeElems_eq : ∀ (xs : List RlpValue), FitsList xs → ∀ w : Encbuf,
    writeElems xs w =
      { str := w.str ++ strDataList xs, lheads := w.lheads ++ headsList xs w.str.length,
        lhsize := w.lhsize + hdrSizeList xs }
  | [], _, w => by simp [writeElems, strDataList, headsList, hdrSizeList]
  | x :: xs, hxs, w => by
    rw [writeElems, writeValue_eq x hxs.1 w, writeElems_eq xs hxs.2]
    simp [strDataList, headsList, hdrSizeList, Nat.add_assoc]

end

/-! ### The output interleaves headers and string data correctly -/

mutual

theorem heads_offset : ∀ (v : RlpValue) (off : Nat), ∀ h ∈ v.heads off, off ≤ h.offset
  | .str _, _, h, hh => by simp [RlpValue.heads] at hh
  | .list xs, off, h, hh => by
    simp only [RlpValue.heads, List.mem_cons] at hh
    rcases hh with rfl | hh
    · exact le_refl _
    · exact headsList_offset xs off h hh

theorem headsList_offset : ∀ (xs : List RlpValue) (off : Nat), ∀ h ∈ headsList xs off, off ≤ h.offset
  | [], _, h, hh => by simp [headsList] at hh
  | x :: xs, off, h, hh => by
    simp only [headsList, List.mem_append] at hh
    rcases hh with hh | hh
    · exact heads_offset x off h hh
    · have := headsList_offset xs _ h hh
      omega

end

/-- Where no head lies in the next `n` bytes of string data, the copying loop copies them. -/
theorem copyOut_advance (str : Bytes) (p n : Nat) (rest : List Listhead) (hn : p + n ≤ str.length)
    (hrest : ∀ h ∈ rest, p + n ≤ h.offset) :
    copyOut str p rest = (str.drop p).take n ++ copyOut str (p + n) rest := by
  cases rest with
  | nil =>
    simp only [copyOut]
    rw [← List.take_append_drop n (str.drop p), List.drop_drop, Nat.add_comm]
    simp
  | cons h hs =>
    have hh := hrest h (by simp)
    have hsplit : (str.drop p).take (h.offset - p) =
        (str.drop p).take n ++ (str.drop (p + n)).take (h.offset - (p + n)) := by
      rw [show h.offset - p = n + (h.offset - (p + n)) by omega, List.take_add, List.drop_drop]
    have hlen : p + ((str.drop p).take (h.offset - p)).length =
        p + n + ((str.drop (p + n)).take (h.offset - (p + n))).length := by
      simp only [List.length_take, List.length_drop]
      omega
    simp only [copyOut]
    rw [hlen, hsplit]
    simp only [List.append_assoc]

mutual

/-- Rendering the heads of a value whose string data comes next produces its encoding. -/
theorem copyOut_heads : ∀ (v : RlpValue), v.Fits → ∀ (str : Bytes) (p : Nat) (t : Bytes)
    (rest : List Listhead), str.drop p = v.strData ++ t →
    (∀ h ∈ rest, p + v.strData.length ≤ h.offset) →
    copyOut str p (v.heads p ++ rest) = v.enc ++ copyOut str (p + v.strData.length) rest
  | .str b, _, str, p, t, rest, hs, hrest => by
    have hlen : p + (RlpValue.str b).strData.length ≤ str.length := by
      have hne : 0 < (encString b).length := List.length_pos_of_ne_nil (by
        simpa using enc_ne_nil (.str b))
      have := congrArg List.length hs
      simp only [List.length_drop, List.length_append, RlpValue.strData] at this ⊢
      omega
    rw [RlpValue.heads, List.nil_append, copyOut_advance str p _ rest hlen hrest, hs,
      List.take_left' rfl]
    simp [RlpValue.strData]
  | .list xs, hv, str, p, t, rest, hs, hrest => by
    rw [RlpValue.heads, List.cons_append, copyOut]
    simp only [Nat.sub_self, List.take_zero, List.nil_append, List.length_nil, Nat.add_zero]
    rw [copyOut_headsList xs hv.2 str p t rest hs hrest, Listhead.encode,
      puthead_eq_header (by decide) hv.1]
    simp [RlpValue.strData]

theorem copyOut_headsList : ∀ (xs : List RlpValue), FitsList xs → ∀ (str : Bytes) (p : Nat)
    (t : Bytes) (rest : List Listhead), str.drop p = strDataList xs ++ t →
    (∀ h ∈ rest, p + (strDataList xs).length ≤ h.offset) →
    copyOut str p (headsList xs p ++ rest) = encList xs ++ copyOut str (p + (strDataList xs).length) rest
  | [], _, str, p, t, rest, _, _ => by simp [headsList, strDataList]
  | x :: xs, hxs, str, p, t, rest, hs, hrest => by
    have hs' : str.drop p = x.strData ++ (strDataList xs ++ t) := by
      rw [hs, strDataList, List.append_assoc]
    have hnext : str.drop (p + x.strData.length) = strDataList xs ++ t := by
      rw [← List.drop_drop, hs', List.drop_left]
    have hrest' : ∀ h ∈ rest, p + x.strData.length + (strDataList xs).length ≤ h.offset := by
      intro h hh
      have := hrest h hh
      simp only [strDataList, List.length_append] at this
      omega
    have hmid : ∀ h ∈ headsList xs (p + x.strData.length) ++ rest,
        p + x.strData.length ≤ h.offset := by
      intro h hh
      rcases List.mem_append.mp hh with hh | hh
      · exact headsList_offset xs _ h hh
      · have := hrest' h hh
        omega
    rw [headsList, List.append_assoc, copyOut_heads x hxs.1 str p _ _ hs' hmid,
      copyOut_headsList xs hxs.2 str _ t rest hnext hrest']
    simp [strDataList, Nat.add_assoc]

end

/-- `toWriter` writes what `toBytes` returns. -/
theorem writeOut_eq_copyOut (str : Bytes) (p : Nat) (hs : List Listhead) :
    writeOut str p hs = copyOut str p hs := by
  induction hs generalizing p with
  | nil =>
    simp only [writeOut, copyOut]
    split
    · rfl
    · rename_i h
      exact (List.drop_eq_nil_of_le (by omega)).symm
  | cons h hs ih =>
    simp only [writeOut, copyOut]
    split
    · rw [ih]
    · rename_i h0
      rw [ih, show h.offset - p = 0 by omega]
      simp

theorem toBytes_writeValue {v : RlpValue} (hv : v.Fits) :
    (writeValue v Encbuf.empty).toBytes = v.enc := by
  have h := copyOut_heads v hv v.strData 0 [] [] (by simp) (by simp)
  rw [writeValue_eq v hv, toBytes]
  simpa [Encbuf.empty, copyOut] using h

/-- The encoder writes the canonical encoding of every value whose encoding a Go slice can
hold. -/
theorem encodeToBytes_eq_enc {v : RlpValue} (h : v.enc.length < 2 ^ 64) : EncodeToBytes v = v.enc :=
  toBytes_writeValue (fits_of_length_enc v h)

theorem encode_eq_enc {v : RlpValue} (h : v.enc.length < 2 ^ 64) : Encode v = v.enc := by
  rw [Encode, toWriter, writeOut_eq_copyOut]
  exact toBytes_writeValue (fits_of_length_enc v h)

/-- The output buffer `toBytes` allocates, `size()` bytes long, is filled exactly. -/
theorem size_writeValue {v : RlpValue} (h : v.enc.length < 2 ^ 64) :
    (writeValue v Encbuf.empty).size = v.enc.length := by
  rw [writeValue_eq v (fits_of_length_enc v h), Encbuf.size, length_enc]
  simp [Encbuf.empty]

end Ccmchain.Rlp
