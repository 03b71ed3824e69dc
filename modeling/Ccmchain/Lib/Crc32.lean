import Mathlib.Data.List.Basic

/-!
# CRC-32 from a table of 256 words

The generic algorithm of Go's `hash/crc32`: `simplePopulateTable` makes entry `i` the remainder
of the byte `i` after eight shifts under the reversed polynomial, and `simpleUpdate` inverts the
running checksum, folds the bytes through the table and inverts again. `IEEE` is the polynomial
of `ChecksumIEEE`. Because of the two inversions an update by `p` and then by `q` is the update
by `p ++ q`.
-/

namespace Crc32

/-- `IEEE`, the reversed polynomial of CRC-32. -/
def IEEE : UInt32 := 0xedb88320

/-- One turn of the inner loop of `simplePopulateTable`. -/
def shift (poly crc : UInt32) : UInt32 :=
  if crc &&& 1 = 1 then (crc >>> 1) ^^^ poly else crc >>> 1

/-- `n` turns of the inner loop of `simplePopulateTable`. -/
def shifts (poly : UInt32) : Nat → UInt32 → UInt32
  | 0, crc => crc
  | n + 1, crc => shifts poly n (shift poly crc)

/-- Entry `i` of the table `simplePopulateTable` fills. -/
def tableEntry (poly : UInt32) (i : UInt8) : UInt32 :=
  shifts poly 8 i.toUInt32

/-- The loop of `simpleUpdate`, on the inverted checksum. -/
def updateBytes (poly crc : UInt32) (p : List UInt8) : UInt32 :=
  p.foldl (fun crc v => tableEntry poly (crc.toUInt8 ^^^ v) ^^^ (crc >>> 8)) crc

/-- `simpleUpdate`, which `Update` computes with the table of `poly`. -/
def simpleUpdate (poly crc : UInt32) (p : List UInt8) : UInt32 :=
  ~~~updateBytes poly (~~~crc) p

/-- `ChecksumIEEE`. -/
def ChecksumIEEE (data : List UInt8) : UInt32 :=
  simpleUpdate IEEE 0 data

theorem updateBytes_append (poly crc : UInt32) (p q : List UInt8) :
    updateBytes poly crc (p ++ q) = updateBytes poly (updateBytes poly crc p) q := by
  simp [updateBytes, List.foldl_append]

/-- Updating by `p` and then by `q` is updating by `p ++ q`. -/
theorem simpleUpdate_append (poly crc : UInt32) (p q : List UInt8) :
    simpleUpdate poly (simpleUpdate poly crc p) q = simpleUpdate poly crc (p ++ q) := by
  rw [simpleUpdate, simpleUpdate, UInt32.not_not, simpleUpdate, updateBytes_append]

example : ChecksumIEEE (List.replicate 32 0) = 0x190a55ad := by decide +kernel

end Crc32
