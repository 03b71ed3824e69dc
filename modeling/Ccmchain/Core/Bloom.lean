import Ccmchain.State.Object
import Ccmchain.Lib.BitSet

/-!
# `core/types/bloom9.go`: log blooms

A bloom is 2048 bits kept as 256 bytes, the number it stands for right-aligned: `BytesToBloom`
copies the big-endian bytes of a `big.Int` to the end of the array. `bloom9` sets three bits
chosen by the hash of its data, each from 11 bits of two consecutive hash bytes. The bloom of a
block is the or of the `bloom9` of every log address and topic of its receipts, and
`BloomLookup` tests that the three bits of its argument are among the bloom's.

As a set of bits, the bloom of a block is the union of the three-bit sets of its logs' data
(`testBit_createBloom`), so a lookup of any address or topic of its logs succeeds.
`Keccak256` is a parameter.
-/

namespace Ccmchain.Types

open Common

/-- `BloomByteLength`. -/
def BloomByteLength : Nat := 256

/-- `BloomBitLength`. -/
def BloomBitLength : Nat := 8 * BloomByteLength

/-- `Bloom`. -/
abbrev Bloom := Vector UInt8 BloomByteLength

/-- `types.Receipt`, its logs. -/
structure Receipt where
  Logs : List State.Log

/-- `Bloom.SetBytes`: `d` copied to the end of the bloom. Longer than the bloom, it panics,
and the error is the panic's message. -/
def Bloom.SetBytes (b : Bloom) (d : Bytes) : Except String Bloom :=
  if h : BloomByteLength < d.length then
    throw ("bloom bytes too big " ++ toString BloomByteLength ++ " " ++ toString d.length)
  else
    pure ⟨(b.toList.take (BloomByteLength - d.length) ++ d).toArray, by
      simp only [List.size_toArray, List.length_append, List.length_take, Vector.length_toList]
      omega⟩

/-- `BytesToBloom`. -/
def BytesToBloom (b : Bytes) : Except String Bloom :=
  Bloom.SetBytes (Vector.replicate BloomByteLength 0) b

/-- `Bloom.Big`. -/
def Bloom.Big (b : Bloom) : Nat := BigEndian.toNat b.toList

section Keccak

variable (Keccak256 : Bytes → Hash)

/-- The bit `bloom9` takes from the hash bytes `i` and `i + 1`. -/
def bloomBit (b : Bytes) (i : Nat) : Nat :=
  ((b.getD (i + 1) 0).toNat + ((b.getD i 0).toNat <<< 8)) &&& 2047

/-- `bloom9`. -/
def bloom9 (b : Bytes) : Nat :=
  let b := (Keccak256 b).Bytes
  [0, 2, 4].foldl (fun r i => r ||| 1 <<< bloomBit b i) 0

/-- `Bloom.Add`. -/
def Bloom.Add (b : Bloom) (d : Int) : Except String Bloom :=
  let bin := b.Big ||| bloom9 Keccak256 (BigEndian.ofNat d.natAbs)
  b.SetBytes (BigEndian.ofNat bin)

/-- `BloomLookup`, on the bytes of the topic. -/
def BloomLookup (bin : Bloom) (topic : Bytes) : Bool :=
  let bloom := bin.Big
  let cmp := bloom9 Keccak256 topic
  (bloom &&& cmp) == cmp

/-- `LogsBloom`. -/
def LogsBloom (logs : List State.Log) : Nat :=
  logs.foldl (fun bin log =>
    log.Topics.foldl (fun bin b => bin ||| bloom9 Keccak256 b.Bytes)
      (bin ||| bloom9 Keccak256 log.Address.Bytes)) 0

/-- `CreateBloom`. -/
def CreateBloom (receipts : List Receipt) : Except String Bloom :=
  BytesToBloom (BigEndian.ofNat
    (receipts.foldl (fun bin receipt => bin ||| LogsBloom Keccak256 receipt.Logs) 0))

/-! ### Blooms as bit sets -/

/-- The data of a log that goes into the bloom: its address and its topics. -/
def logData (log : State.Log) : List Bytes := log.Address.Bytes :: log.Topics.map (·.Bytes)

theorem bloomBit_lt (b : Bytes) (i : Nat) : bloomBit b i < BloomBitLength :=
  lt_of_le_of_lt Nat.and_le_right (by decide)

/-- The bits of `bloom9`: the three `bloomBit`s of the hash. -/
theorem testBit_bloom9 (b : Bytes) (i : Nat) :
    (bloom9 Keccak256 b).testBit i = true ↔ ∃ k ∈ [0, 2, 4], bloomBit (Keccak256 b).Bytes k = i := by
  rw [bloom9, BitSet.testBit_foldl_or]
  simp [Nat.one_shiftLeft, Nat.testBit_two_pow]

theorem bloom9_lt (b : Bytes) : bloom9 Keccak256 b < 2 ^ BloomBitLength := by
  apply Nat.lt_pow_two_of_testBit
  intro i hi
  by_contra h
  obtain ⟨k, -, rfl⟩ := (testBit_bloom9 Keccak256 b i).1 (by simpa using h)
  exact absurd hi (not_le.2 (bloomBit_lt _ _))

/-- `BloomLookup` holds when the three bits of the topic are set in the bloom. -/
theorem bloomLookup_iff (bin : Bloom) (topic : Bytes) :
    BloomLookup Keccak256 bin topic = true ↔
      ∀ k ∈ [0, 2, 4], bin.Big.testBit (bloomBit (Keccak256 topic).Bytes k) = true := by
  rw [BloomLookup, beq_iff_eq, BitSet.and_eq_right_iff]
  constructor
  · intro h k hk
    exact h _ ((testBit_bloom9 Keccak256 topic _).2 ⟨k, hk, rfl⟩)
  · intro h i hi
    obtain ⟨k, hk, rfl⟩ := (testBit_bloom9 Keccak256 topic i).1 hi
    exact h k hk

/-- The nested loops of `LogsBloom` or together the `bloom9` of the data of every log. -/
theorem logsBloom_eq_foldl (logs : List State.Log) :
    LogsBloom Keccak256 logs =
      (logs.flatMap logData).foldl (fun bin x => bin ||| bloom9 Keccak256 x) 0 := by
  simp [LogsBloom, logData, List.foldl_flatMap, List.foldl_map]

theorem testBit_logsBloom (logs : List State.Log) (i : Nat) :
    (LogsBloom Keccak256 logs).testBit i = true ↔
      ∃ log ∈ logs, ∃ x ∈ logData log, (bloom9 Keccak256 x).testBit i = true := by
  rw [logsBloom_eq_foldl, BitSet.testBit_foldl_or]
  simp [List.any_flatMap]

theorem logsBloom_lt (logs : List State.Log) : LogsBloom Keccak256 logs < 2 ^ BloomBitLength := by
  rw [logsBloom_eq_foldl]
  exact BitSet.foldl_or_lt _ _ (Nat.two_pow_pos _) fun x _ => bloom9_lt Keccak256 x

/-- A number below `2 ^ 2048` makes a bloom that stands for it. -/
theorem bytesToBloom_ofNat {n : Nat} (hn : n < 2 ^ BloomBitLength) :
    ∃ bloom, BytesToBloom (BigEndian.ofNat n) = .ok bloom ∧ bloom.Big = n := by
  have hlen : (BigEndian.ofNat n).length ≤ BloomByteLength := by
    have h256 : (2 : Nat) ^ BloomBitLength = 256 ^ BloomByteLength := by
      rw [BloomBitLength, pow_mul]
      rfl
    rw [BigEndian.length_ofNat_le_iff, ← h256]
    exact hn
  refine ⟨_, by rw [BytesToBloom, Bloom.SetBytes, dif_neg (not_lt.2 hlen)]; rfl, ?_⟩
  simp only [Bloom.Big, Vector.toList_mk, Vector.toList_replicate,
    List.take_replicate, BigEndian.toNat_replicate_zero_append, BigEndian.toNat_ofNat]

/-- The bloom of a block holds exactly the bits of the `bloom9` of its logs' data. -/
theorem testBit_createBloom (receipts : List Receipt) :
    ∃ bloom, CreateBloom Keccak256 receipts = .ok bloom ∧ ∀ i, bloom.Big.testBit i = true ↔
      ∃ receipt ∈ receipts, ∃ log ∈ receipt.Logs, ∃ x ∈ logData log,
        (bloom9 Keccak256 x).testBit i = true := by
  have hlt := BitSet.foldl_or_lt (fun receipt : Receipt => LogsBloom Keccak256 receipt.Logs)
    receipts (Nat.two_pow_pos BloomBitLength) fun receipt _ => logsBloom_lt Keccak256 _
  obtain ⟨bloom, hok, hbig⟩ := bytesToBloom_ofNat hlt
  refine ⟨bloom, hok, fun i => ?_⟩
  rw [hbig, BitSet.testBit_foldl_or]
  simp [testBit_logsBloom]

/-- A lookup of any address or topic of the logs of a block in its bloom succeeds. -/
theorem lookup_createBloom (receipts : List Receipt) :
    ∃ bloom, CreateBloom Keccak256 receipts = .ok bloom ∧
      ∀ receipt ∈ receipts, ∀ log ∈ receipt.Logs, ∀ x ∈ logData log,
        BloomLookup Keccak256 bloom x = true := by
  obtain ⟨bloom, hok, hbits⟩ := testBit_createBloom Keccak256 receipts
  refine ⟨bloom, hok, fun receipt hr log hl x hx => ?_⟩
  rw [bloomLookup_iff]
  intro k hk
  exact (hbits _).2 ⟨receipt, hr, log, hl, x, hx, (testBit_bloom9 Keccak256 x _).2 ⟨k, hk, rfl⟩⟩

end Keccak

end Ccmchain.Types
