import Mathlib.Data.List.Basic
import Mathlib.Algebra.Order.Group.Int

/-!
# Files as byte strings

A file is the list of its bytes. `readAt` is `pread` as Go's `os.File.ReadAt` loops over it: a
negative offset is an error and leaves the buffer alone; otherwise the bytes from the offset
fill a prefix of the buffer, and a read that ends at the end of the file before the buffer is
full reports `EOF`. `truncate` is `ftruncate`: it cuts the file or pads it with zero bytes, and
a negative size is an error. Paths are not modelled, so the errors carry no file name.

A file made of records of one length is read record by record: `readAt_flatMap` reads the
record at index `i` from the offset `k * i`.
-/

namespace File

/-- `os.File.ReadAt` on the contents `f`: the buffer after the read, and the error. -/
def readAt (f buf : List UInt8) (off : Int) : List UInt8 × Option String :=
  if off < 0 then (buf, some "readat: negative offset")
  else
    let got := (f.drop off.toNat).take buf.length
    (got ++ buf.drop got.length, if got.length < buf.length then some "EOF" else none)

/-- `os.File.Truncate`. -/
def truncate (f : List UInt8) (size : Int) : Except String (List UInt8) :=
  if size < 0 then .error "truncate: invalid argument"
  else .ok (f.take size.toNat ++ List.replicate (size.toNat - f.length) 0)

theorem readAt_neg (f buf : List UInt8) {off : Int} (h : off < 0) :
    readAt f buf off = (buf, some "readat: negative offset") := by
  simp [readAt, h]

/-- A read from the end of the file or beyond fills nothing. -/
theorem readAt_of_length_le (f buf : List UInt8) {off : Int} (h0 : 0 ≤ off)
    (h : f.length ≤ off.toNat) (hbuf : buf ≠ []) : readAt f buf off = (buf, some "EOF") := by
  have hlen : 0 < buf.length := List.length_pos_of_ne_nil hbuf
  simp [readAt, not_lt.2 h0, List.drop_eq_nil_of_le h, hlen]

/-- A read that stays within the file fills the buffer with the bytes at the offset. -/
theorem readAt_of_le (f buf : List UInt8) {off : Int} (h0 : 0 ≤ off)
    (h : off.toNat + buf.length ≤ f.length) :
    readAt f buf off = ((f.drop off.toNat).take buf.length, none) := by
  have hgot : ((f.drop off.toNat).take buf.length).length = buf.length := by
    simp only [List.length_take, List.length_drop]
    omega
  simp [readAt, not_lt.2 h0, hgot]

theorem truncate_of_le (f : List UInt8) {size : Int} (h0 : 0 ≤ size) (h : size.toNat ≤ f.length) :
    truncate f size = .ok (f.take size.toNat) := by
  simp [truncate, not_lt.2 h0, Nat.sub_eq_zero_of_le h]

/-! ### Files of fixed-length records -/

section Records

variable {α : Type} (enc : α → List UInt8) {k : Nat}

theorem length_flatMap_of_length_eq (henc : ∀ a, (enc a).length = k) (l : List α) :
    (l.flatMap enc).length = k * l.length := by
  induction l with
  | nil => simp
  | cons a l ih => simp [ih, henc, Nat.mul_succ, Nat.add_comm]

/-- The first `n` records. -/
theorem take_flatMap (henc : ∀ a, (enc a).length = k) (l : List α) (n : Nat) :
    (l.flatMap enc).take (k * n) = (l.take n).flatMap enc := by
  induction l generalizing n with
  | nil => simp
  | cons a l ih =>
    cases n with
    | zero => simp
    | succ n =>
      rw [List.flatMap_cons, Nat.mul_succ, Nat.add_comm, List.take_append, henc,
        Nat.add_sub_cancel_left, ih, List.take_of_length_le (by rw [henc]; omega),
        List.take_succ_cons, List.flatMap_cons]

/-- The record at index `i` lies at the offset `k * i`. -/
theorem drop_take_flatMap (henc : ∀ a, (enc a).length = k) (l : List α) (i : Nat)
    (hi : i < l.length) : ((l.flatMap enc).drop (k * i)).take k = enc l[i] := by
  induction l generalizing i with
  | nil => simp at hi
  | cons a l ih =>
    cases i with
    | zero => simp [henc]
    | succ i =>
      rw [List.flatMap_cons, Nat.mul_succ, Nat.add_comm, List.drop_append, henc,
        Nat.add_sub_cancel_left, List.drop_eq_nil_of_le (by rw [henc]; omega), List.nil_append]
      exact ih i (by simpa using hi)

/-- Reading a record-sized buffer at the offset of record `i`. -/
theorem readAt_flatMap (henc : ∀ a, (enc a).length = k) (l : List α) (buf : List UInt8)
    (hbuf : buf.length = k) (i : Nat) (hi : i < l.length) :
    readAt (l.flatMap enc) buf ((k * i : Nat) : Int) = (enc l[i], none) := by
  have hle : k * i + k ≤ (l.flatMap enc).length := by
    rw [length_flatMap_of_length_eq enc henc, ← Nat.mul_succ]
    exact Nat.mul_le_mul_left k hi
  rw [readAt_of_le _ _ (Int.natCast_nonneg _) (by rw [Int.toNat_natCast, hbuf]; exact hle),
    Int.toNat_natCast, hbuf, drop_take_flatMap enc henc l i hi]

end Records

end File
