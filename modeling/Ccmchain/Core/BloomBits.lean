import Ccmchain.Core.Bloom
import Ccmchain.Lib.Except

/-!
# `core/bloombits`: rotated blooms

The generator turns the blooms of a section of blocks into 2048 bit vectors, one for each bloom
bit, whose `j`-th bit (most significant first) is that bit of the `j`-th block's bloom. The
matcher reads a key's vectors at the three indexes `calcBloomIndexes` gives, and a block matches
when its bit is set in all three.

Three places number the bloom bits, and they agree: `AddBloom` reads bit `i` of a bloom from byte
`255 - i / 8`, which is bit `i` of the number `BytesToBloom` right-aligned (`bloomByte_mask`),
and `calcBloomIndexes` is `bloomBit` with the mask taken before the low byte is added
(`calcBloomIndexes_eq`). So the row of a block in the rotated vectors answers `BloomLookup`.
-/

namespace Ccmchain.BloomBits

open Common Ccmchain.Types

/-- `errSectionOutOfBounds`. -/
def errSectionOutOfBounds : String := "section out of bounds"

/-- `errBloomBitOutOfBounds`. -/
def errBloomBitOutOfBounds : String := "bloom bit out of bounds"

/-! ### Loops over distinct indexes -/

section Loops

variable {α : Type}

theorem getD_modify (l : List α) (i k : Nat) (f : α → α) (d : α) :
    (l.modify i f).getD k d = if i = k ∧ k < l.length then f (l.getD k d) else l.getD k d := by
  simp only [List.getD_eq_getElem?_getD, List.getElem?_modify]
  by_cases hk : k < l.length
  · simp [hk]
  · simp [hk]

/-- A loop over distinct indexes that applies `f` at the index `i` when `p i`: each entry is
changed at most once. -/
theorem getD_foldl_modify (p : Nat → Bool) (f : α → α) (d : α) :
    ∀ (is : List Nat) (l : List α), is.Nodup → ∀ k,
      (is.foldl (fun l i => if p i then l.modify i f else l) l).getD k d =
        if k ∈ is ∧ p k ∧ k < l.length then f (l.getD k d) else l.getD k d := by
  intro is
  induction is with
  | nil => simp
  | cons i is ih =>
    intro l hnd k
    obtain ⟨hi, hnd⟩ := List.nodup_cons.1 hnd
    rw [List.foldl_cons, ih _ hnd]
    by_cases hpi : p i
    · simp only [hpi, if_true, getD_modify, List.length_modify]
      by_cases hik : i = k
      · subst hik
        simp [hi, hpi]
      · simp [hik, Ne.symm hik]
    · simp only [hpi]
      by_cases hik : i = k
      · subst hik
        simp [hi, hpi]
      · simp [Ne.symm hik]

theorem length_foldl_modify (p : Nat → Bool) (f : α → α) (is : List Nat) (l : List α) :
    (is.foldl (fun l i => if p i then l.modify i f else l) l).length = l.length := by
  induction is generalizing l with
  | nil => rfl
  | cons i is ih =>
    rw [List.foldl_cons, ih]
    split <;> simp

theorem forall_mem_foldl_modify (p : Nat → Bool) (f : α → α) {P : α → Prop}
    (hf : ∀ x, P x → P (f x)) (is : List Nat) {l : List α} (hl : ∀ x ∈ l, P x) :
    ∀ x ∈ is.foldl (fun l i => if p i then l.modify i f else l) l, P x := by
  induction is generalizing l with
  | nil => exact hl
  | cons i is ih =>
    rw [List.foldl_cons]
    apply ih
    split
    · intro x hx
      obtain ⟨k, hk, rfl⟩ := List.getElem_of_mem hx
      rw [List.getElem_modify]
      split
      · exact hf _ (hl _ (List.getElem_mem _))
      · exact hl _ (List.getElem_mem _)
    · exact hl

theorem any_getElem?_concat (l : List α) (a : α) (j : Nat) (P : α → Bool) :
    (l ++ [a])[j]?.any P = (l[j]?.any P || (decide (j = l.length) && P a)) := by
  rcases lt_trichotomy j l.length with hj | rfl | hj
  · simp [List.getElem?_append_left hj, hj.ne]
  · simp
  · have hnone : (l ++ [a])[j]? = none := List.getElem?_eq_none (by simp; omega)
    simp [hnone, List.getElem?_eq_none hj.le, hj.ne']

end Loops

/-- The loop of `AddBloom`: where bit `i` of the bloom is set, the byte `byteIndex` of the
rotated bloom `i` is or-ed with `bitMask`. -/
def rotateBloom (bloom : Bloom) (byteIndex : Nat) (bitMask : UInt8) (blooms : List Bytes) :
    List Bytes :=
  (List.range BloomBitLength).foldl (fun blooms i =>
    let bloomByteIndex := BloomByteLength - 1 - i / 8
    let bloomBitMask : UInt8 := 1 <<< (i % 8).toUInt8
    if (bloom.toList.getD bloomByteIndex 0 &&& bloomBitMask) != 0 then
      blooms.modify i fun bits => bits.modify byteIndex (· ||| bitMask)
    else blooms) blooms

/-- Whether `AddBloom` sets its bit in the rotated bloom `i`. -/
theorem rotateBloom_eq (bloom : Bloom) (byteIndex : Nat) (bitMask : UInt8) (blooms : List Bytes) :
    rotateBloom bloom byteIndex bitMask blooms =
      (List.range BloomBitLength).foldl (fun l i =>
        if (bloom.toList.getD (BloomByteLength - 1 - i / 8) 0 &&& (1 <<< (i % 8).toUInt8)) != 0
        then l.modify i fun bits => bits.modify byteIndex (· ||| bitMask) else l) blooms := rfl

theorem length_rotateBloom (bloom : Bloom) (byteIndex : Nat) (bitMask : UInt8)
    (blooms : List Bytes) : (rotateBloom bloom byteIndex bitMask blooms).length = blooms.length := by
  rw [rotateBloom_eq, length_foldl_modify]

theorem mem_rotateBloom {bloom : Bloom} {byteIndex : Nat} {bitMask : UInt8} {blooms : List Bytes}
    {n : Nat} (h : ∀ bits ∈ blooms, bits.length = n) :
    ∀ bits ∈ rotateBloom bloom byteIndex bitMask blooms, bits.length = n := by
  rw [rotateBloom_eq]
  exact forall_mem_foldl_modify _ _ (fun bits hbits => by rw [List.length_modify, hbits]) _ h

/-- `Generator`, with what `NewGenerator` and `AddBloom` keep true of it: one rotated bloom for
each bloom bit, each of `sections / 8` bytes, and at most `sections` blooms added. -/
structure Generator where
  blooms : List Bytes
  sections : Nat
  nextSec : Nat
  blooms_length : blooms.length = BloomBitLength
  bits_length : ∀ bits ∈ blooms, bits.length = sections / 8
  sections_mod : sections % 8 = 0
  nextSec_le : nextSec ≤ sections

/-- `NewGenerator`. -/
def NewGenerator (sections : Nat) : Except String Generator :=
  if h : sections % 8 ≠ 0 then throw "section count not multiple of 8"
  else pure
    { blooms := List.replicate BloomBitLength (List.replicate (sections / 8) 0)
      sections
      nextSec := 0
      blooms_length := List.length_replicate
      bits_length := fun bits hbits => by rw [List.eq_of_mem_replicate hbits, List.length_replicate]
      sections_mod := not_not.1 h
      nextSec_le := Nat.zero_le _ }

/-- `Generator.AddBloom`. -/
def Generator.AddBloom (b : Generator) (index : Nat) (bloom : Bloom) : Except String Generator :=
  if hsec : b.nextSec ≥ b.sections then throw errSectionOutOfBounds
  else if b.nextSec ≠ index then throw "bloom filter with unexpected index"
  else
    let byteIndex := b.nextSec / 8
    let bitMask : UInt8 := 1 <<< (7 - b.nextSec % 8).toUInt8
    pure
      { blooms := rotateBloom bloom byteIndex bitMask b.blooms
        sections := b.sections
        nextSec := b.nextSec + 1
        blooms_length := (length_rotateBloom _ _ _ _).trans b.blooms_length
        bits_length := mem_rotateBloom b.bits_length
        sections_mod := b.sections_mod
        nextSec_le := by omega }

/-- `Generator.Bitset`. -/
def Generator.Bitset (b : Generator) (idx : Nat) : Except String Bytes :=
  if b.nextSec ≠ b.sections then throw "bloom not fully generated yet"
  else if idx ≥ BloomBitLength then throw errBloomBitOutOfBounds
  else pure (b.blooms.getD idx [])

/-- The bloom bits indexer's loop over the headers of a section: `AddBloom` for each bloom in
turn, at the indexes `index`, `index + 1`, .... -/
def Generator.AddBlooms (b : Generator) : Nat → List Bloom → Except String Generator
  | _, [] => pure b
  | index, bloom :: blooms => do
    let b ← b.AddBloom index bloom
    b.AddBlooms (index + 1) blooms

/-- Bit `i` of a rotated bloom, most significant bit first, as the matcher tests it. -/
def bitsetBit (bitset : Bytes) (i : Nat) : Bool :=
  (bitset.getD (i / 8) 0 &&& (1 <<< (7 - i % 8).toUInt8)) != 0

section Keccak

variable (Keccak256 : Bytes → Hash)

/-- `calcBloomIndexes`. -/
def calcBloomIndexes (b : Bytes) : List Nat :=
  let b := (Keccak256 b).Bytes
  (List.range 3).map fun i => (((b.getD (2 * i) 0).toNat <<< 8) &&& 2047) + (b.getD (2 * i + 1) 0).toNat

end Keccak

/-! ### The three numberings of the bloom bits -/

/-- `AddBloom`'s mask test on byte `255 - i / 8` reads bit `i` of the number the bloom stands
for. -/
theorem bloomByte_mask (bloom : Bloom) {i : Nat} (hi : i < BloomBitLength) :
    (bloom.toList.getD (BloomByteLength - 1 - i / 8) 0 &&& (1 <<< (i % 8).toUInt8) != 0) =
      bloom.Big.testBit i := by
  have hbyte : i / 8 < bloom.toList.length := by
    rw [Vector.length_toList]
    simp only [BloomBitLength, BloomByteLength] at hi ⊢
    omega
  rw [BitSet.and_mask_ne_zero _ (Nat.mod_lt _ (by decide)), Bloom.Big, BigEndian.testBit_toNat,
    List.getD_eq_getElem?_getD, List.getD_eq_getElem?_getD, List.getElem?_reverse hbyte,
    Vector.length_toList]

/-- Setting the bit of block `s` in a rotated bloom sets bit `s`, most significant first. -/
theorem bitsetBit_modify (bits : Bytes) {s : Nat} (hs : s / 8 < bits.length) (j : Nat) :
    bitsetBit (bits.modify (s / 8) (· ||| (1 <<< (7 - s % 8).toUInt8))) j =
      (bitsetBit bits j || decide (s = j)) := by
  have hs8 : 7 - s % 8 < 8 := by omega
  have hj8 : 7 - j % 8 < 8 := by omega
  unfold bitsetBit
  rw [getD_modify]
  by_cases hsj : s / 8 = j / 8
  · rw [if_pos ⟨hsj, hsj ▸ hs⟩, BitSet.and_mask_ne_zero _ hj8, BitSet.and_mask_ne_zero _ hj8,
      BitSet.testBit_or_mask _ hs8]
    congr 1
    apply decide_eq_decide.2
    omega
  · have hne : s ≠ j := fun h => hsj (h ▸ rfl)
    simp [hsj, hne]

/-- `calcBloomIndexes` gives the three bits `bloom9` sets. -/
theorem calcBloomIndexes_eq (Keccak256 : Bytes → Hash) (x : Bytes) :
    calcBloomIndexes Keccak256 x = [0, 2, 4].map (bloomBit (Keccak256 x).Bytes) := by
  have hbit : ∀ a c : UInt8, ((a.toNat <<< 8) &&& 2047) + c.toNat =
      (c.toNat + (a.toNat <<< 8)) &&& 2047 := by
    intro a c
    have hc := c.toNat_lt
    have h2047 : (2047 : Nat) = 2 ^ 11 - 1 := rfl
    rw [h2047, Nat.and_two_pow_sub_one_eq_mod, Nat.and_two_pow_sub_one_eq_mod, Nat.shiftLeft_eq]
    omega
  simp [calcBloomIndexes, bloomBit, List.range_succ, hbit]

/-! ### The rotated blooms -/

/-- The rotated blooms hold the blooms `added` so far: bit `j` of the rotated bloom `k` is bit
`k` of the `j`-th of them. -/
def Generator.Holds (b : Generator) (added : List Bloom) : Prop :=
  added.length = b.nextSec ∧ ∀ k < BloomBitLength, ∀ j < b.sections,
    bitsetBit (b.blooms.getD k []) j = added[j]?.any fun bloom => bloom.Big.testBit k

theorem newGenerator_holds {sections : Nat} {g : Generator} (h : NewGenerator sections = .ok g) :
    g.Holds [] := by
  unfold NewGenerator at h
  split at h
  · cases h
  · cases h
    refine ⟨rfl, fun k hk j hj => ?_⟩
    have hrow : j / 8 < sections / 8 := by
      dsimp only at hj
      omega
    dsimp only
    rw [bitsetBit, List.getD_replicate _ hk, List.getD_replicate _ hrow]
    simp

/-- `AddBloom` at the next index, within the section: the rotation of the bloom into row
`nextSec`. -/
theorem addBloom_eq_ok {b : Generator} (hlt : b.nextSec < b.sections) (bloom : Bloom) :
    ∃ b', b.AddBloom b.nextSec bloom = .ok b' ∧ b'.sections = b.sections ∧
      b'.nextSec = b.nextSec + 1 ∧
      b'.blooms = rotateBloom bloom (b.nextSec / 8) (1 <<< (7 - b.nextSec % 8).toUInt8) b.blooms := by
  unfold Generator.AddBloom
  split
  · omega
  · split
    · contradiction
    · refine ⟨_, rfl, rfl, rfl, ?_⟩
      dsimp only

/-- One `AddBloom` at the next index puts the bits of its bloom in row `nextSec`. -/
theorem addBloom_holds {b : Generator} {added : List Bloom} (hb : b.Holds added) (bloom : Bloom)
    (hlt : b.nextSec < b.sections) :
    ∃ b', b.AddBloom b.nextSec bloom = .ok b' ∧ b'.sections = b.sections ∧
      b'.Holds (added ++ [bloom]) := by
  obtain ⟨hlen, hbits⟩ := hb
  obtain ⟨b', hadd, hsec, hnext, hblooms⟩ := addBloom_eq_ok hlt bloom
  refine ⟨b', hadd, hsec, by simp [hlen, hnext], fun k hk j hj => ?_⟩
  rw [hsec] at hj
  rw [hblooms]
  have hrow : (b.blooms.getD k []).length = b.sections / 8 := by
    rw [List.getD_eq_getElem?_getD, List.getElem?_eq_getElem (by rw [b.blooms_length]; exact hk)]
    exact b.bits_length _ (List.getElem_mem _)
  have hbyte : b.nextSec / 8 < (b.blooms.getD k []).length := by
    rw [hrow]
    have := b.sections_mod
    omega
  simp only [rotateBloom_eq]
  rw [getD_foldl_modify _ _ _ _ _ List.nodup_range, bloomByte_mask bloom hk]
  have hold := hbits k hk j hj
  have hk' : k ∈ List.range BloomBitLength ∧ k < b.blooms.length := by
    rw [b.blooms_length]
    exact ⟨List.mem_range.2 hk, hk⟩
  rw [any_getElem?_concat, hlen]
  by_cases hset : bloom.Big.testBit k
  · rw [if_pos ⟨hk'.1, hset, hk'.2⟩, bitsetBit_modify _ hbyte, hold, hset]
    simp [eq_comm]
  · rw [if_neg (by simp [hset]), hold, Bool.eq_false_iff.2 hset]
    simp

/-- The indexer's loop over a section: each bloom in turn goes to the next row. -/
theorem addBlooms_holds {b : Generator} {added : List Bloom} (hb : b.Holds added)
    (blooms : List Bloom) (hfit : b.nextSec + blooms.length ≤ b.sections) :
    ∃ b', b.AddBlooms b.nextSec blooms = .ok b' ∧ b'.sections = b.sections ∧
      b'.Holds (added ++ blooms) := by
  induction blooms generalizing b added with
  | nil => exact ⟨b, rfl, rfl, by simpa using hb⟩
  | cons bloom blooms ih =>
    obtain ⟨b₁, hadd, hsec, hb₁⟩ := addBloom_holds hb bloom (by simp at hfit; omega)
    have hnext : b₁.nextSec = b.nextSec + 1 := by
      rw [← hb₁.1, ← hb.1]
      simp
    obtain ⟨b', hrun, hsec', hb'⟩ := ih hb₁ (by simp at hfit; omega)
    refine ⟨b', ?_, hsec'.trans hsec, by simpa using hb'⟩
    rw [Generator.AddBlooms, hadd, Except.ok_bind, ← hnext, hrun]

theorem bitset_eq_ok {g : Generator} (hfull : g.nextSec = g.sections) {k : Nat}
    (hk : k < BloomBitLength) : g.Bitset k = .ok (g.blooms.getD k []) := by
  simp [Generator.Bitset, hfull, Nat.not_le.2 hk]

theorem newGenerator_eq_ok {sections : Nat} (h : sections % 8 = 0) :
    ∃ g, NewGenerator sections = .ok g ∧ g.sections = sections ∧ g.nextSec = 0 := by
  rw [NewGenerator, dif_neg (not_not.2 h)]
  exact ⟨_, rfl, rfl, rfl⟩

/-- Once the section is full, the bit of block `j` in the rotated bloom `k` is bit `k` of its
bloom. -/
theorem bitset_bit {g : Generator} {added : List Bloom} (hg : g.Holds added)
    (hfull : g.nextSec = g.sections) {k : Nat} (hk : k < BloomBitLength) {j : Nat}
    (hj : j < added.length) :
    ∃ bits, g.Bitset k = .ok bits ∧ bitsetBit bits j = added[j].Big.testBit k := by
  refine ⟨_, bitset_eq_ok hfull hk, ?_⟩
  rw [hg.2 k hk j (by rw [← hfull, ← hg.1]; exact hj), List.getElem?_eq_getElem hj]
  rfl

theorem bloom_lookup_agrees_with_bitsets (Keccak256 : Bytes → Hash) (receipts : List Receipt)
    (blooms : List Bloom) (hsections : blooms.length % 8 = 0) :
    (∃ bloom, CreateBloom Keccak256 receipts = .ok bloom ∧
      ∀ receipt ∈ receipts, ∀ log ∈ receipt.Logs, ∀ x ∈ logData log,
        BloomLookup Keccak256 bloom x = true) ∧
    ∃ g, (NewGenerator blooms.length >>= fun g => g.AddBlooms 0 blooms) = .ok g ∧
      ∀ (j : Nat) (hj : j < blooms.length) (x : Bytes),
        BloomLookup Keccak256 blooms[j] x = true ↔
          ∀ k ∈ calcBloomIndexes Keccak256 x, ∃ bits, g.Bitset k = .ok bits ∧
            bitsetBit bits j = true := by
  refine ⟨lookup_createBloom Keccak256 receipts, ?_⟩
  obtain ⟨g₀, hnew, hsec₀, hnext₀⟩ := newGenerator_eq_ok hsections
  obtain ⟨g, hrun, hsec, hg⟩ := addBlooms_holds (newGenerator_holds hnew) blooms (by omega)
  have hfull : g.nextSec = g.sections := by
    rw [← hg.1, hsec, hsec₀]
    simp
  refine ⟨g, by rw [hnew, Except.ok_bind, ← hnext₀, hrun], fun j hj x => ?_⟩
  rw [bloomLookup_iff, calcBloomIndexes_eq, List.forall_mem_map]
  apply forall₂_congr
  intro i _
  have hbits := bitset_bit hg hfull (bloomBit_lt (Keccak256 x).Bytes i) (by simpa using hj)
  obtain ⟨bits, hbitset, hbit⟩ := hbits
  simp only [List.nil_append] at hbit
  constructor
  · intro hset
    exact ⟨bits, hbitset, hbit.trans hset⟩
  · rintro ⟨bits', hbitset', hbit'⟩
    rw [hbitset] at hbitset'
    cases hbitset'
    exact hbit.symm.trans hbit'

theorem bloom_lookup_agrees_with_bitsets_zero :
    (List.replicate 8 (Vector.replicate BloomByteLength 0) : List Bloom).length % 8 = 0 ∧
    ((∃ bloom, CreateBloom (fun _ => 0) [] = .ok bloom ∧
      ∀ receipt ∈ ([] : List Receipt), ∀ log ∈ receipt.Logs, ∀ x ∈ logData log,
        BloomLookup (fun _ => 0) bloom x = true) ∧
    ∃ g, (NewGenerator (List.replicate 8 (Vector.replicate BloomByteLength 0) : List Bloom).length >>=
        fun g => g.AddBlooms 0 (List.replicate 8 (Vector.replicate BloomByteLength 0))) = .ok g ∧
      ∀ (j : Nat) (hj : j < (List.replicate 8 (Vector.replicate BloomByteLength 0) : List Bloom).length)
        (x : Bytes),
        BloomLookup (fun _ => 0) (List.replicate 8 (Vector.replicate BloomByteLength 0) : List Bloom)[j] x
          = true ↔
          ∀ k ∈ calcBloomIndexes (fun _ => 0) x, ∃ bits, g.Bitset k = .ok bits ∧
            bitsetBit bits j = true) :=
  ⟨by decide, bloom_lookup_agrees_with_bitsets (fun _ => 0) [] _ (by decide)⟩

end Ccmchain.BloomBits
