import Ccmchain.Lib.BigEndian

/-!
# `common`: addresses, hashes and their conversions

`Address` and `Hash` are the fixed-size byte arrays of `common/types.go`, here as bit vectors
of the same width, read big-endian. The conversions from byte strings keep the last bytes
(`SetBytes` crops from the left and pads on the left), which is the value modulo the width; a
`big.Int` converts through `Bytes()`, its absolute value.
-/

namespace Ccmchain.Common

/-- Go `[]byte`. -/
abbrev Bytes := List UInt8

/-- `common.Address`, 20 bytes. -/
abbrev Address := BitVec 160

/-- `common.Hash`, 32 bytes. -/
abbrev Hash := BitVec 256

/-- `BytesToHash`. -/
def BytesToHash (b : Bytes) : Hash := BitVec.ofNat 256 (BigEndian.toNat b)

/-- `BytesToAddress`. -/
def BytesToAddress (b : Bytes) : Address := BitVec.ofNat 160 (BigEndian.toNat b)

/-- `BigToHash`. -/
def BigToHash (b : Int) : Hash := BitVec.ofNat 256 b.natAbs

/-- `BigToAddress`. -/
def BigToAddress (b : Int) : Address := BitVec.ofNat 160 b.natAbs

/-- `Hash.Big`. -/
def Hash.Big (h : Hash) : Int := h.toNat

/-- The `n` bytes of `x`, most significant first (`a[:]` for an array of `n` bytes). -/
def bytesOf (n x : Nat) : Bytes :=
  (List.range n).reverse.map fun i => (x / 256 ^ i % 256).toUInt8

/-- `Address.Bytes`. -/
def Address.Bytes (a : Address) : Bytes := bytesOf 20 a.toNat

/-- `Hash.Bytes`. -/
def Hash.Bytes (h : Hash) : Bytes := bytesOf 32 h.toNat

/-- `RightPadBytes`: `slice` padded with zeros on the right to `l` bytes. -/
def RightPadBytes (slice : Bytes) (l : Nat) : Bytes :=
  if l ≤ slice.length then slice else slice ++ List.replicate (l - slice.length) 0

@[simp] theorem length_bytesOf (n x : Nat) : (bytesOf n x).length = n := by
  simp [bytesOf]

/-- The `n` bytes of `x` read back are `x` modulo `256 ^ n`. -/
theorem toNat_bytesOf (n x : Nat) : BigEndian.toNat (bytesOf n x) = x % 256 ^ n := by
  induction n with
  | zero => simp [bytesOf, Nat.mod_one]
  | succ n ih =>
    have hcons : bytesOf (n + 1) x = (x / 256 ^ n % 256).toUInt8 :: bytesOf n x := by
      simp [bytesOf, List.range_succ]
    have hbyte : (x / 256 ^ n % 256).toUInt8.toNat = x / 256 ^ n % 256 := by
      simp only [Nat.toUInt8, UInt8.toNat_ofNat']
      omega
    rw [hcons, BigEndian.toNat_cons, ih, length_bytesOf, hbyte, pow_succ, Nat.mod_mul]
    ring

theorem length_rightPadBytes (slice : Bytes) (l : Nat) :
    (RightPadBytes slice l).length = max l slice.length := by
  unfold RightPadBytes
  split <;> simp <;> omega

@[simp] theorem bigToHash_big (h : Hash) : BigToHash h.Big = h := by
  simp [BigToHash, Hash.Big]

end Ccmchain.Common
