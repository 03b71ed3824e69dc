import Ccmchain.Lib.BigEndian

/-!
# RLP values and their encoding (`rlp/doc.go`)

An RLP value is a byte string or a list of values; `rlp.DecodeBytes` into an `interface{}`
produces exactly these, as `[]byte` and `[]interface{}`. `RlpValue.enc` is the encoding the
package documents: a byte below `0x80` stands for itself, any other string gets a string
header, a list gets a list header over the concatenated encodings of its elements. A header
for `n` payload bytes is one byte when `n < 56`, and otherwise a byte counting the length
bytes followed by `n` in big-endian order.
-/

namespace Ccmchain.Rlp

/-- Go `[]byte`. -/
abbrev Bytes := List UInt8

/-- A value of the RLP data model. -/
inductive RlpValue where
  | str (b : Bytes)
  | list (xs : List RlpValue)
  deriving Inhabited

/-- The header of a string (`base = 0x80`) or list (`base = 0xC0`) payload of `n` bytes. -/
def header (base : UInt8) (n : Nat) : Bytes :=
  if n < 56 then [base + n.toUInt8]
  else (base + 55 + (BigEndian.ofNat n).length.toUInt8) :: BigEndian.ofNat n

theorem toNat_toUInt8 (n : Nat) : n.toUInt8.toNat = n % 256 := by
  simp [Nat.toUInt8]

/-- The value of a tag byte `base + n` that does not wrap around. -/
theorem toNat_tag {base : UInt8} {n : Nat} (h : base.toNat + n < 256) :
    (base + n.toUInt8).toNat = base.toNat + n := by
  rw [UInt8.toNat_add, toNat_toUInt8]
  omega

/-- A string of one byte below `0x80`, which is its own encoding. -/
def isByte (b : Bytes) : Bool :=
  match b with
  | [x] => x < 0x80
  | _ => false

/-- The encoding of a byte string. -/
def encString (b : Bytes) : Bytes :=
  if isByte b then b else header 0x80 b.length ++ b

mutual

/-- The canonical encoding of a value. -/
def RlpValue.enc : RlpValue → Bytes
  | .str b => encString b
  | .list xs => header 0xC0 (encList xs).length ++ encList xs

/-- The concatenated encodings of a list's elements: its payload. -/
def encList : List RlpValue → Bytes
  | [] => []
  | x :: xs => x.enc ++ encList xs

end

@[simp] theorem enc_str (b : Bytes) : (RlpValue.str b).enc = encString b := by
  simp [RlpValue.enc]

@[simp] theorem enc_list (xs : List RlpValue) :
    (RlpValue.list xs).enc = header 0xC0 (encList xs).length ++ encList xs := by
  simp [RlpValue.enc]

@[simp] theorem encList_nil : encList [] = [] := by
  simp [encList]

@[simp] theorem encList_cons (x : RlpValue) (xs : List RlpValue) :
    encList (x :: xs) = x.enc ++ encList xs := by
  simp [encList]

theorem header_ne_nil (base : UInt8) (n : Nat) : header base n ≠ [] := by
  unfold header
  split <;> simp

theorem length_header (base : UInt8) (n : Nat) :
    (header base n).length = if n < 56 then 1 else 1 + (BigEndian.ofNat n).length := by
  unfold header
  split <;> simp [Nat.add_comm]

/-- Every value has a non-empty encoding. -/
theorem enc_ne_nil (v : RlpValue) : v.enc ≠ [] := by
  cases v with
  | str b =>
    rw [enc_str, encString]
    split
    · rename_i hb
      intro h
      subst h
      simp [isByte] at hb
    · simp [header_ne_nil]
  | list xs => simp [header_ne_nil]

end Ccmchain.Rlp
