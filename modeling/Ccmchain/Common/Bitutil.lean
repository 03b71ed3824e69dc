import Ccmchain.Common.Types

/-!
# Sparse bitset compression (`common/bitutil/compress.go`)

A byte string with many zero bytes is written as the bitset of its non-zero positions (most
significant bit first), itself compressed the same way, followed by the non-zero bytes. The
decoder needs the length of the original and reads the bitset back recursively, sharing one
input pointer with the recursion.

The encoder and the decoder are inverse on the nose: decoding an encoding gives the input back,
and every input the decoder accepts is the encoding of what it decodes to, so no string has two
accepted forms. The decoder recurses on `(target + 7) / 8`, which is below `target` once the
cases `0` and `1` are handled, so it is total.
-/

namespace Ccmchain.Bitutil

open Common (Bytes)

/-- The errors of `DecompressBytes`. -/
inductive DecompError where
  | missingData
  | unreferencedData
  | exceededTarget
  | zeroContent
  deriving DecidableEq, Repr

/-- The error texts. -/
def DecompError.message : DecompError → String
  | .missingData => "missing bytes on input"
  | .unreferencedData => "extra bytes on input"
  | .exceededTarget => "target data size exceeded"
  | .zeroContent => "zero byte in input content"

/-- `1 << byte(7-i%8)`: the mask of bit `i` of a bitset, most significant bit first. -/
def bitMask (i : Nat) : UInt8 := 1 <<< (7 - i % 8).toUInt8

/-- One iteration of the loop of `bitsetEncodeBytes`, at byte `b` of index `i`. -/
def gatherStep (acc : Bytes × Bytes) (bi : UInt8 × Nat) : Bytes × Bytes :=
  if bi.1 ≠ 0 then (acc.1.modify (bi.2 / 8) (· ||| bitMask bi.2), acc.2 ++ [bi.1]) else acc

/-- The loop of `bitsetEncodeBytes`: `nonZeroBitset` and `nonZeroBytes`. -/
def gatherNonZero (data : Bytes) : Bytes × Bytes :=
  data.zipIdx.foldl gatherStep (List.replicate ((data.length + 7) / 8) 0, [])

theorem length_foldl_gatherStep (l : List (UInt8 × Nat)) (acc : Bytes × Bytes) :
    (l.foldl gatherStep acc).1.length = acc.1.length := by
  induction l generalizing acc with
  | nil => rfl
  | cons bi l ih =>
    rw [List.foldl_cons, ih]
    unfold gatherStep
    split_ifs <;> simp

theorem length_gatherNonZero (data : Bytes) :
    (gatherNonZero data).1.length = (data.length + 7) / 8 := by
  rw [gatherNonZero, length_foldl_gatherStep, List.length_replicate]

/-- `bitsetEncodeBytes`. -/
def bitsetEncodeBytes (data : Bytes) : Bytes :=
  -- Empty slices get compressed to nil
  if data.length = 0 then []
  -- One byte slices compress to nil or retain the single byte
  else if data.length = 1 then
    if data.getD 0 0 = 0 then [] else data
  else
    let nonZero := gatherNonZero data
    if nonZero.2.length = 0 then [] else bitsetEncodeBytes nonZero.1 ++ nonZero.2
termination_by data.length
decreasing_by
  rw [length_gatherNonZero]
  omega

/-- `CompressBytes`: the encoding, unless it is not shorter than the input. -/
def CompressBytes (data : Bytes) : Bytes :=
  let out := bitsetEncodeBytes data
  if out.length < data.length then out else data

/-- `nonZeroBitset[i/8]&(1<<byte(7-i%8)) != 0`. -/
def bitSet (bitset : Bytes) (i : Nat) : Bool := bitset.getD (i / 8) 0 &&& bitMask i != 0

/-- One iteration of the loop of `bitsetDecodePartialBytes`, on `(decomp, ptr)` at bit `i`. -/
def distributeStep (data bitset : Bytes) (st : Bytes × Nat) (i : Nat) :
    Except DecompError (Bytes × Nat) :=
  if bitSet bitset i then
    -- Make sure we have enough data to push into the correct slot
    if st.2 ≥ data.length then .error .missingData
    else if i ≥ st.1.length then .error .exceededTarget
    -- Make sure the data is valid and push into the slot
    else if data.getD st.2 0 = 0 then .error .zeroContent
    else .ok (st.1.set i (data.getD st.2 0), st.2 + 1)
  else .ok st

/-- `bitsetDecodePartialBytes`: the output and the number of input bytes it used. The pointer Go
returns beside an error is dropped: no caller reads it. -/
def bitsetDecodePartialBytes (data : Bytes) (target : Nat) : Except DecompError (Bytes × Nat) :=
  -- Sanity check 0 targets to avoid infinite recursion
  if target = 0 then .ok ([], 0)
  -- Handle the zero and single byte corner cases
  else if data.length = 0 then .ok (List.replicate target 0, 0)
  else if target = 1 then
    if data.getD 0 0 ≠ 0 then .ok ([data.getD 0 0], 1) else .ok ([data.getD 0 0], 0)
  else do
    -- Decompress the bitset of set bytes and distribute the non zero bytes
    let (nonZeroBitset, ptr) ← bitsetDecodePartialBytes data ((target + 7) / 8)
    (List.range (8 * nonZeroBitset.length)).foldlM (distributeStep data nonZeroBitset)
      (List.replicate target 0, ptr)
termination_by target
decreasing_by omega

/-- `bitsetDecodeBytes`: the partial decoder, which must use up the whole input. -/
def bitsetDecodeBytes (data : Bytes) (target : Nat) : Except DecompError Bytes := do
  let (out, size) ← bitsetDecodePartialBytes data target
  if size ≠ data.length then throw .unreferencedData
  pure out

/-- `DecompressBytes`: an input as long as the target was stored uncompressed. -/
def DecompressBytes (data : Bytes) (target : Nat) : Except DecompError Bytes :=
  if data.length > target then .error .exceededTarget
  else if data.length = target then .ok data
  else bitsetDecodeBytes data target

/-! ## Bits of a bitset -/

theorem toNat_bitMask (i : Nat) : (bitMask i).toNat = 2 ^ (7 - i % 8) := by
  have hk : i % 8 < 8 := Nat.mod_lt _ (by decide)
  unfold bitMask
  generalize i % 8 = k at hk ⊢
  interval_cases k <;> rfl

theorem bitSet_eq_testBit (bs : Bytes) (i : Nat) :
    bitSet bs i = (bs.getD (i / 8) 0).toNat.testBit (7 - i % 8) := by
  rw [Bool.eq_iff_iff, bitSet, bne_iff_ne, ne_eq, ← UInt8.toNat_inj, UInt8.toNat_and, toNat_bitMask,
    Nat.and_two_pow, UInt8.toNat_zero]
  cases (bs.getD (i / 8) 0).toNat.testBit (7 - i % 8) <;> simp

theorem testBit_toNat_of_ge (b : UInt8) {k : Nat} (hk : 8 ≤ k) : b.toNat.testBit k = false :=
  Nat.testBit_eq_false_of_lt (lt_of_lt_of_le b.toNat_lt (Nat.pow_le_pow_right (by decide) hk))

theorem bitSet_of_length_le {bs : Bytes} {i : Nat} (hi : 8 * bs.length ≤ i) : bitSet bs i = false := by
  rw [bitSet_eq_testBit, List.getD_eq_default _ _ (by omega)]
  simp

@[simp] theorem bitSet_replicate_zero (L i : Nat) : bitSet (List.replicate L 0) i = false := by
  rw [bitSet_eq_testBit, List.getD_eq_getElem?_getD, List.getElem?_replicate]
  split_ifs <;> simp

/-- Setting bit `j` with `|=` sets exactly that bit. -/
theorem bitSet_modify {bs : Bytes} {j : Nat} (hj : j / 8 < bs.length) (i : Nat) :
    bitSet (bs.modify (j / 8) (· ||| bitMask j)) i = (bitSet bs i || decide (i = j)) := by
  rw [bitSet_eq_testBit, bitSet_eq_testBit, List.getD_eq_getElem?_getD,
    List.getD_eq_getElem?_getD, List.getElem?_modify]
  by_cases hij : j / 8 = i / 8
  · have hi : i / 8 < bs.length := hij ▸ hj
    have hpos : (7 - j % 8 = 7 - i % 8) ↔ i = j := by omega
    simp only [List.getElem?_eq_getElem hi, Option.map_eq_map, Option.map_some, Option.getD_some,
      if_pos hij, UInt8.toNat_or, Nat.testBit_or, toNat_bitMask, Nat.testBit_two_pow, hpos]
  · have hne : i ≠ j := fun h => hij (h ▸ rfl)
    cases bs[i / 8]? <;> simp [hij, hne]

/-- Two bitsets of one length with the same bits are equal. -/
theorem eq_of_bitSet {a b : Bytes} (hlen : a.length = b.length) (h : ∀ i, bitSet a i = bitSet b i) :
    a = b := by
  apply List.ext_getElem hlen
  intro j hja hjb
  apply UInt8.toNat_inj.1
  apply Nat.eq_of_testBit_eq
  intro k
  by_cases hk : k < 8
  · have hbit := h (8 * j + (7 - k))
    have hbyte : (8 * j + (7 - k)) / 8 = j := by omega
    have hpos : 7 - (8 * j + (7 - k)) % 8 = k := by omega
    rw [bitSet_eq_testBit, bitSet_eq_testBit, hbyte, hpos, List.getD_eq_getElem _ _ hja,
      List.getD_eq_getElem _ _ hjb] at hbit
    exact hbit
  · rw [testBit_toNat_of_ge _ (by omega), testBit_toNat_of_ge _ (by omega)]

/-! ## The encoder's loop -/

theorem foldl_gatherStep (L : Nat) (l : Bytes) (hl : l.length ≤ 8 * L) :
    (∀ i, bitSet (l.zipIdx.foldl gatherStep (List.replicate L 0, [])).1 i =
      decide (i < l.length ∧ l.getD i 0 ≠ 0)) ∧
    (l.zipIdx.foldl gatherStep (List.replicate L 0, [])).2 = l.filter (· ≠ 0) := by
  induction l using List.reverseRecOn with
  | nil => simp
  | append_singleton l b ih =>
    obtain ⟨hbits, hbytes⟩ := ih (by simp at hl; omega)
    have hlen : (l.zipIdx.foldl gatherStep (List.replicate L 0, [])).1.length = L := by
      rw [length_foldl_gatherStep, List.length_replicate]
    rw [List.zipIdx_append, List.foldl_append]
    simp only [List.zipIdx_cons, List.zipIdx_nil, zero_add, List.foldl_cons, List.foldl_nil,
      gatherStep]
    simp only [List.length_append, List.length_singleton] at hl
    by_cases hb : b = 0
    · refine ⟨fun i => ?_, ?_⟩
      · rw [if_neg (by simpa using hb), hbits]
        rcases Nat.lt_trichotomy i l.length with hi | rfl | hi
        · simp [hi, Nat.lt_succ_of_lt hi]
        · simp [hb]
        · simp [show ¬ i < l.length by omega, show ¬ i < l.length + 1 by omega]
      · rw [if_neg (by simpa using hb), hbytes, List.filter_append]
        simp [hb]
    · refine ⟨fun i => ?_, ?_⟩
      · rw [if_pos hb, bitSet_modify (by omega), hbits]
        rcases Nat.lt_trichotomy i l.length with hi | rfl | hi
        · simp [hi, Nat.lt_succ_of_lt hi, Nat.ne_of_lt hi]
        · simp [hb]
        · simp [show ¬ i < l.length by omega, show ¬ i < l.length + 1 by omega, Nat.ne_of_gt hi]
      · rw [if_pos hb, hbytes, List.filter_append]
        simp [hb]

/-- The loop of `bitsetEncodeBytes` sets bit `i` exactly for the non-zero bytes `data[i]`, and
gathers them in order. -/
theorem gatherNonZero_spec (data : Bytes) :
    (∀ i, bitSet (gatherNonZero data).1 i = decide (i < data.length ∧ data.getD i 0 ≠ 0)) ∧
    (gatherNonZero data).2 = data.filter (· ≠ 0) :=
  foldl_gatherStep _ data (by omega)

/-! ## The encoder -/

theorem bitsetEncodeBytes_nil : bitsetEncodeBytes [] = [] := by
  rw [bitsetEncodeBytes]
  rfl

theorem bitsetEncodeBytes_single (b : UInt8) :
    bitsetEncodeBytes [b] = if b = 0 then [] else [b] := by
  rw [bitsetEncodeBytes]
  rfl

theorem bitsetEncodeBytes_of_two_le {data : Bytes} (h : 2 ≤ data.length) :
    bitsetEncodeBytes data = if data.filter (· ≠ 0) = [] then []
      else bitsetEncodeBytes (gatherNonZero data).1 ++ data.filter (· ≠ 0) := by
  rw [bitsetEncodeBytes, if_neg (by omega), if_neg (by omega)]
  simp only [(gatherNonZero_spec data).2, List.length_eq_zero_iff]

/-- Exactly the all-zero strings encode to nothing. -/
theorem bitsetEncodeBytes_eq_nil_iff (data : Bytes) :
    bitsetEncodeBytes data = [] ↔ ∀ b ∈ data, b = 0 := by
  match data with
  | [] => simp [bitsetEncodeBytes_nil]
  | [b] => by_cases hb : b = 0 <;> simp [bitsetEncodeBytes_single, hb]
  | b₁ :: b₂ :: rest =>
    rw [bitsetEncodeBytes_of_two_le (by simp)]
    split_ifs with hz
    · simpa [List.filter_eq_nil_iff] using hz
    · simp only [List.append_eq_nil_iff, hz, and_false, false_iff]
      simpa [List.filter_eq_nil_iff] using hz

/-! ## The decoder -/

theorem bitsetDecodePartialBytes_zero (data : Bytes) :
    bitsetDecodePartialBytes data 0 = .ok ([], 0) := by
  rw [bitsetDecodePartialBytes, if_pos rfl]

theorem bitsetDecodePartialBytes_nil {target : Nat} (ht : target ≠ 0) :
    bitsetDecodePartialBytes [] target = .ok (List.replicate target 0, 0) := by
  rw [bitsetDecodePartialBytes, if_neg ht, if_pos List.length_nil]

theorem bitsetDecodePartialBytes_one (b : UInt8) (rest : Bytes) :
    bitsetDecodePartialBytes (b :: rest) 1 = if b ≠ 0 then .ok ([b], 1) else .ok ([b], 0) := by
  rw [bitsetDecodePartialBytes]
  rfl

theorem bitsetDecodePartialBytes_of_two_le {data : Bytes} {target : Nat} (ht : 2 ≤ target)
    (hd : data ≠ []) :
    bitsetDecodePartialBytes data target =
      (bitsetDecodePartialBytes data ((target + 7) / 8)).bind fun (bs, ptr) =>
        (List.range (8 * bs.length)).foldlM (distributeStep data bs) (List.replicate target 0, ptr) := by
  rw [bitsetDecodePartialBytes, if_neg (by omega), if_neg (by simpa using hd), if_neg (by omega)]
  rfl

/-! ## The decoder's loop

Run over the first `m` bits of `bs` from `(0…0, ptr)`, the loop puts the input byte
`data[ptr + rank bs i]` at every set bit `i`, where `rank bs i` counts the set bits below `i`. -/

/-- The number of set bits of `bs` below `i`. -/
def rank (bs : Bytes) (i : Nat) : Nat := (List.range i).countP (bitSet bs ·)

/-- The output of the loop after its first `m` bits. -/
def spread (bs data : Bytes) (ptr target m : Nat) : Bytes :=
  (List.range target).map fun i => if bitSet bs i ∧ i < m then data.getD (ptr + rank bs i) 0 else 0

theorem rank_succ (bs : Bytes) (i : Nat) :
    rank bs (i + 1) = rank bs i + if bitSet bs i then 1 else 0 := by
  simp [rank, List.range_succ, List.countP_append]

theorem length_spread (bs data : Bytes) (ptr target m : Nat) :
    (spread bs data ptr target m).length = target := by
  simp [spread]

theorem spread_zero (bs data : Bytes) (ptr target : Nat) :
    spread bs data ptr target 0 = List.replicate target 0 := by
  simp [spread, List.map_const']

theorem spread_succ_of_not {bs : Bytes} {m : Nat} (hm : bitSet bs m = false) (data : Bytes)
    (ptr target : Nat) : spread bs data ptr target (m + 1) = spread bs data ptr target m := by
  unfold spread
  refine List.map_congr_left fun i _ => ?_
  by_cases him : i = m
  · subst him
    simp [hm]
  · simp only [show i < m + 1 ↔ i < m by omega]

theorem spread_succ_of_bit {bs : Bytes} {m : Nat} (hm : bitSet bs m = true) (data : Bytes)
    (ptr target : Nat) :
    spread bs data ptr target (m + 1) =
      (spread bs data ptr target m).set m (data.getD (ptr + rank bs m) 0) := by
  apply List.ext_getElem (by simp [length_spread])
  intro i h₁ h₂
  rw [List.getElem_set]
  simp only [spread, List.getElem_map, List.getElem_range]
  by_cases him : m = i
  · subst him
    simp [hm]
  · simp only [him, if_false, show i < m + 1 ↔ i < m by omega]

/-- One iteration of the loop, from the state after `m` bits. -/
theorem distributeStep_spread_eq_ok_iff (data bs : Bytes) (ptr target m : Nat) (x : Bytes)
    (p : Nat) :
    distributeStep data bs (spread bs data ptr target m, ptr + rank bs m) m = .ok (x, p) ↔
      (bitSet bs m → m < target ∧ ptr + rank bs m < data.length ∧
        data.getD (ptr + rank bs m) 0 ≠ 0) ∧
      x = spread bs data ptr target (m + 1) ∧ p = ptr + rank bs (m + 1) := by
  unfold distributeStep
  cases hm : bitSet bs m
  · simp only [rank_succ, hm, spread_succ_of_not hm, Bool.false_eq_true, if_false,
      false_implies, true_and, add_zero, Except.ok.injEq, Prod.mk.injEq]
    constructor <;> rintro ⟨rfl, rfl⟩ <;> exact ⟨rfl, rfl⟩
  · simp only [if_true, length_spread, rank_succ, hm, true_implies]
    by_cases hptr : ptr + rank bs m ≥ data.length
    · simp [hptr]
    by_cases htgt : m ≥ target
    · simp [hptr, htgt]
    by_cases hz : data.getD (ptr + rank bs m) 0 = 0
    · rw [if_neg hptr, if_neg htgt, if_pos hz]
      simp only [reduceCtorEq, false_iff]
      exact fun ⟨⟨_, _, hne⟩, _⟩ => hne hz
    rw [if_neg hptr, if_neg htgt, if_neg hz, spread_succ_of_bit hm data ptr]
    simp only [Except.ok.injEq, Prod.mk.injEq]
    constructor
    · rintro ⟨rfl, rfl⟩
      exact ⟨⟨by omega, by omega, hz⟩, rfl, rfl⟩
    · rintro ⟨-, rfl, rfl⟩
      exact ⟨rfl, rfl⟩

/-- The loop over the first `m` bits succeeds exactly when every set bit among them is inside the
target and finds a non-zero input byte, and then it returns `spread` and the advanced pointer. -/
theorem foldlM_distributeStep_eq_ok_iff (data bs : Bytes) (ptr target : Nat) :
    ∀ (m : Nat) (x : Bytes) (p : Nat),
      (List.range m).foldlM (distributeStep data bs) (List.replicate target 0, ptr) = .ok (x, p) ↔
        (∀ i < m, bitSet bs i → i < target ∧ ptr + rank bs i < data.length ∧
          data.getD (ptr + rank bs i) 0 ≠ 0) ∧
        x = spread bs data ptr target m ∧ p = ptr + rank bs m := by
  intro m
  induction m with
  | zero =>
    intro x p
    simp only [List.range_zero, List.foldlM_nil, spread_zero, rank, List.countP_nil]
    simp only [pure, Except.pure, Except.ok.injEq, Prod.mk.injEq]
    constructor
    · rintro ⟨rfl, rfl⟩
      exact ⟨fun i hi => absurd hi (Nat.not_lt_zero i), rfl, rfl⟩
    · rintro ⟨-, rfl, rfl⟩
      exact ⟨rfl, rfl⟩
  | succ m ih =>
    intro x p
    rw [List.range_succ, List.foldlM_append]
    cases hrun : (List.range m).foldlM (distributeStep data bs) (List.replicate target 0, ptr) with
    | error e =>
      -- a failure among the first `m` bits is a failed condition among them
      have hfail : ¬ ∀ i < m, bitSet bs i → i < target ∧ ptr + rank bs i < data.length ∧
          data.getD (ptr + rank bs i) 0 ≠ 0 := fun hall => by
        have := (ih _ _).2 ⟨hall, rfl, rfl⟩
        rw [hrun] at this
        cases this
      simp only [bind, Except.bind, reduceCtorEq, false_iff]
      exact fun ⟨hall, _⟩ => hfail fun i hi => hall i (by omega)
    | ok st =>
      obtain ⟨x', p'⟩ := st
      obtain ⟨hall, rfl, rfl⟩ := (ih _ _).1 hrun
      simp only [bind, Except.bind, List.foldlM_cons, List.foldlM_nil]
      cases hstep : distributeStep data bs (spread bs data ptr target m, ptr + rank bs m) m with
      | error e =>
        simp only [reduceCtorEq, false_iff]
        rintro ⟨hall', rfl, rfl⟩
        have := (distributeStep_spread_eq_ok_iff data bs ptr target m _ _).2
          ⟨hall' m (by omega), rfl, rfl⟩
        rw [hstep] at this
        cases this
      | ok st =>
        obtain ⟨x'', p''⟩ := st
        obtain ⟨hcur, rfl, rfl⟩ := (distributeStep_spread_eq_ok_iff data bs ptr target m _ _).1 hstep
        simp only [pure, Except.pure, Except.ok.injEq, Prod.mk.injEq]
        constructor
        · rintro ⟨rfl, rfl⟩
          refine ⟨fun i hi => ?_, rfl, rfl⟩
          rcases Nat.lt_succ_iff_lt_or_eq.1 hi with hi | rfl
          · exact hall i hi
          · exact hcur
        · rintro ⟨-, rfl, rfl⟩
          exact ⟨rfl, rfl⟩

/-! ## Decoding an encoding -/

/-- Below `i`, the gathered bitset has one set bit per non-zero byte. -/
theorem rank_gatherNonZero (x : Bytes) (i : Nat) :
    rank (gatherNonZero x).1 i = (x.take i).countP (· ≠ 0) := by
  induction i with
  | zero => simp [rank]
  | succ i ih =>
    rw [rank_succ, ih, (gatherNonZero_spec x).1 i, List.take_add_one, List.countP_append]
    by_cases hi : i < x.length
    · rw [List.getElem?_eq_getElem hi, List.getD_eq_getElem _ _ hi]
      by_cases hx : x[i] = 0 <;> simp [hi, hx]
    · rw [List.getElem?_eq_none (by omega)]
      simp [hi]

/-- The non-zero byte `x[i]` is the `rank`-th of the non-zero bytes. -/
theorem getD_filter_countP_take {x : Bytes} {i : Nat} (hi : i < x.length) (hx : x.getD i 0 ≠ 0) :
    (x.take i).countP (· ≠ 0) < (x.filter (· ≠ 0)).length ∧
      (x.filter (· ≠ 0)).getD ((x.take i).countP (· ≠ 0)) 0 = x.getD i 0 := by
  rw [List.getD_eq_getElem _ _ hi] at hx ⊢
  have hsplit : x.filter (· ≠ 0) =
      (x.take i).filter (· ≠ 0) ++ x[i] :: (x.drop (i + 1)).filter (· ≠ 0) := by
    conv_lhs => rw [← List.take_append_drop i x, List.drop_eq_getElem_cons hi]
    rw [List.filter_append, List.filter_cons_of_pos (by simpa using hx)]
  rw [hsplit, List.countP_eq_length_filter]
  constructor
  · simp
  · simp [List.getD_eq_getElem?_getD]

/-- A set bit sits in a non-zero byte. -/
theorem exists_ne_zero_of_bitSet {bs : Bytes} {i : Nat} (h : bitSet bs i = true) :
    ∃ b ∈ bs, b ≠ 0 := by
  rw [bitSet_eq_testBit] at h
  by_cases hi : i / 8 < bs.length
  · rw [List.getD_eq_getElem _ _ hi] at h
    refine ⟨bs[i / 8], List.getElem_mem hi, fun h0 => ?_⟩
    simp [h0] at h
  · rw [List.getD_eq_default _ _ (by omega)] at h
    simp at h

/-- The decoder's loop inverts the encoder's: run over the gathered bitset, with the gathered
bytes at the pointer, it rebuilds `x` and moves the pointer past those bytes. -/
theorem foldlM_distributeStep_gatherNonZero (x pre rest : Bytes) :
    (List.range (8 * (gatherNonZero x).1.length)).foldlM
        (distributeStep (pre ++ x.filter (· ≠ 0) ++ rest) (gatherNonZero x).1)
        (List.replicate x.length 0, pre.length) =
      .ok (x, pre.length + (x.filter (· ≠ 0)).length) := by
  have hbits := (gatherNonZero_spec x).1
  have hlen : x.length ≤ 8 * (gatherNonZero x).1.length := by
    rw [length_gatherNonZero]
    omega
  -- the input byte read for the set bit `i` is the byte gathered from `x[i]`
  have hbyte : ∀ i, i < x.length → x.getD i 0 ≠ 0 →
      pre.length + rank (gatherNonZero x).1 i < (pre ++ x.filter (· ≠ 0) ++ rest).length ∧
      (pre ++ x.filter (· ≠ 0) ++ rest).getD (pre.length + rank (gatherNonZero x).1 i) 0 =
        x.getD i 0 := by
    intro i hi hx
    obtain ⟨hlt, hval⟩ := getD_filter_countP_take hi hx
    rw [rank_gatherNonZero]
    refine ⟨by simp only [List.length_append]; omega, ?_⟩
    rw [← hval, List.append_assoc, List.getD_append_right _ _ _ _ (by omega), Nat.add_sub_cancel_left,
      List.getD_append _ _ _ _ hlt]
  rw [foldlM_distributeStep_eq_ok_iff]
  refine ⟨fun i _ hi => ?_, ?_, ?_⟩
  · obtain ⟨hin, hx⟩ := of_decide_eq_true ((hbits i).symm.trans hi)
    obtain ⟨hlt, hval⟩ := hbyte i hin hx
    exact ⟨hin, hlt, hval ▸ hx⟩
  · apply List.ext_getElem (by simp [length_spread])
    intro i h₁ h₂
    simp only [spread, List.getElem_map, List.getElem_range, hbits]
    rw [← List.getD_eq_getElem x 0 h₁]
    by_cases hx : x.getD i 0 = 0
    · rw [hx]
      simp
    · simp only [hx, h₁, ne_eq, not_false_eq_true, and_self, decide_true,
        show i < 8 * (gatherNonZero x).1.length by omega, if_true]
      exact (hbyte i h₁ hx).2.symm
  · rw [rank_gatherNonZero, List.take_of_length_le hlen, List.countP_eq_length_filter]

/-- Decoding the encoding of `x`, whatever follows it, gives `x` back and uses exactly the
encoding. An all-zero `x` encodes to nothing, so then nothing may follow. -/
theorem bitsetDecodePartialBytes_encode (x rest : Bytes) (h : (∃ b ∈ x, b ≠ 0) ∨ rest = []) :
    bitsetDecodePartialBytes (bitsetEncodeBytes x ++ rest) x.length =
      .ok (x, (bitsetEncodeBytes x).length) := by
  obtain ⟨n, hn⟩ : ∃ n, x.length = n := ⟨_, rfl⟩
  -- strong induction on the length: the bitset of `x` is shorter than `x` from two bytes on
  induction n using Nat.strong_induction_on generalizing x rest with
  | _ n ih =>
  by_cases hz : ∀ b ∈ x, b = 0
  · have hrest : rest = [] := h.resolve_left fun ⟨b, hb, hne⟩ => hne (hz b hb)
    rw [(bitsetEncodeBytes_eq_nil_iff x).2 hz, hrest, List.nil_append, List.length_nil]
    rcases Nat.eq_zero_or_pos x.length with h0 | hpos
    · rw [h0, bitsetDecodePartialBytes_zero, List.eq_nil_of_length_eq_zero h0]
    · rw [bitsetDecodePartialBytes_nil (by omega), ← List.eq_replicate_iff.2 ⟨rfl, hz⟩]
  obtain ⟨b, hb, hne⟩ : ∃ b ∈ x, b ≠ 0 := by simpa using hz
  by_cases h2 : 2 ≤ x.length
  · obtain ⟨i, hi, rfl⟩ := List.mem_iff_getElem.1 hb
    have hnz : x.filter (· ≠ 0) ≠ [] := by
      simpa [List.filter_eq_nil_iff] using ⟨x[i], hb, hne⟩
    have hbs : ∃ b ∈ (gatherNonZero x).1, b ≠ 0 := by
      refine exists_ne_zero_of_bitSet (i := i) ?_
      rw [(gatherNonZero_spec x).1, List.getD_eq_getElem _ _ hi]
      simp [hi, hne]
    have hshorter : (gatherNonZero x).1.length < n := by
      rw [length_gatherNonZero]
      omega
    have hrec := ih _ hshorter (gatherNonZero x).1 (x.filter (· ≠ 0) ++ rest) (.inl hbs) rfl
    rw [bitsetEncodeBytes_of_two_le h2, if_neg hnz, List.append_assoc,
      bitsetDecodePartialBytes_of_two_le h2
        fun he => hnz (List.append_eq_nil_iff.1 (List.append_eq_nil_iff.1 he).2).1,
      ← length_gatherNonZero, hrec]
    dsimp only [Except.bind]
    rw [← List.append_assoc, foldlM_distributeStep_gatherNonZero, List.length_append]
  · have h1 : x.length = 1 := by
      have := List.length_pos_of_mem hb
      omega
    obtain ⟨c, rfl⟩ := List.length_eq_one_iff.1 h1
    rw [List.mem_singleton] at hb
    subst hb
    rw [bitsetEncodeBytes_single, if_neg hne, List.singleton_append, List.length_singleton,
      bitsetDecodePartialBytes_one, if_pos hne]

/-! ## Every accepted input is an encoding -/

theorem rank_eq_of_no_bits {bs : Bytes} {k : Nat} (hno : ∀ i, k ≤ i → bitSet bs i = false) :
    ∀ m, k ≤ m → rank bs m = rank bs k := by
  intro m hm
  induction m with
  | zero => rw [Nat.le_zero.1 hm]
  | succ m ih =>
    rcases Nat.lt_or_ge m k with hmk | hmk
    · rw [show k = m + 1 by omega]
    · rw [rank_succ, hno m hmk, ih hmk]
      rfl

theorem rank_pos_of_bitSet {bs : Bytes} {i m : Nat} (hi : bitSet bs i = true) (him : i < m) :
    0 < rank bs m := by
  induction m with
  | zero => omega
  | succ m ih =>
    rw [rank_succ]
    rcases Nat.lt_succ_iff_lt_or_eq.1 him with h | rfl
    · have := ih h
      omega
    · simp [hi]

/-- The non-zero bytes of the loop's output are the input bytes it read, in order. -/
theorem filter_map_spread {bs data : Bytes} {ptr M : Nat} (hptr : ptr ≤ data.length) :
    ∀ k, k ≤ M → (∀ i < k, bitSet bs i →
      ptr + rank bs i < data.length ∧ data.getD (ptr + rank bs i) 0 ≠ 0) →
      ((List.range k).map fun i =>
          if bitSet bs i ∧ i < M then data.getD (ptr + rank bs i) 0 else 0).filter (· ≠ 0) =
        (data.drop ptr).take (rank bs k) ∧ ptr + rank bs k ≤ data.length := by
  intro k
  induction k with
  | zero => intro _ _; simp [rank, hptr]
  | succ k ih =>
    intro hk hall
    obtain ⟨hfilter, hle⟩ := ih (by omega) fun i hi => hall i (by omega)
    rw [List.range_succ, List.map_append, List.filter_append, hfilter, rank_succ]
    cases hb : bitSet bs k
    · simp [hle, hb]
    · obtain ⟨hlt, hnz⟩ := hall k (by omega) hb
      have hval : (if bitSet bs k = true ∧ k < M then data.getD (ptr + rank bs k) 0 else 0) =
          data.getD (ptr + rank bs k) 0 := if_pos ⟨hb, by omega⟩
      simp only [List.map_cons, List.map_nil, hval, if_true]
      rw [List.filter_cons_of_pos (by simpa using hnz), List.filter_nil, List.take_add_one,
        List.getElem?_drop, List.getElem?_eq_getElem hlt, ← List.getD_eq_getElem data 0 hlt]
      exact ⟨rfl, by omega⟩

/-- What the loop accepted has the bitset it was run over. -/
theorem gatherNonZero_spread {bs data : Bytes} {ptr target : Nat}
    (hlen : bs.length = (target + 7) / 8)
    (hall : ∀ i < 8 * bs.length, bitSet bs i →
      i < target ∧ ptr + rank bs i < data.length ∧ data.getD (ptr + rank bs i) 0 ≠ 0) :
    (gatherNonZero (spread bs data ptr target (8 * bs.length))).1 = bs := by
  apply eq_of_bitSet (by rw [length_gatherNonZero, length_spread, hlen])
  intro i
  rw [(gatherNonZero_spec _).1, length_spread]
  by_cases hit : i < target
  · have hget : (spread bs data ptr target (8 * bs.length)).getD i 0 =
        if bitSet bs i ∧ i < 8 * bs.length then data.getD (ptr + rank bs i) 0 else 0 := by
      simp [spread, List.getD_eq_getElem?_getD, hit]
    rw [hget]
    cases hb : bitSet bs i
    · rw [if_neg (by simp)]
      exact decide_eq_false (by simp)
    · have him : i < 8 * bs.length := by
        by_contra hge
        rw [bitSet_of_length_le (by omega)] at hb
        cases hb
      rw [if_pos ⟨rfl, him⟩]
      exact decide_eq_true ⟨hit, (hall i him hb).2.2⟩
  · cases hb : bitSet bs i
    · simp [hit]
    · have him : i < 8 * bs.length := by
        by_contra hge
        rw [bitSet_of_length_le (by omega)] at hb
        cases hb
      exact absurd (hall i him hb).1 hit

/-- Whatever the partial decoder accepts is the encoding of what it returns, followed by input
it did not read: there are no zero content bytes, no set padding bits, and no second form. -/
theorem bitsetEncodeBytes_of_decodePartial {data : Bytes} {target : Nat} {x : Bytes} {p : Nat}
    (h : bitsetDecodePartialBytes data target = .ok (x, p)) :
    x.length = target ∧ p ≤ data.length ∧ bitsetEncodeBytes x = data.take p := by
  obtain ⟨n, hn⟩ : ∃ n, target = n := ⟨_, rfl⟩
  -- strong induction on the target, as the decoder recurses
  induction n using Nat.strong_induction_on generalizing target x p with
  | _ n ih =>
  subst hn
  by_cases h0 : target = 0
  · subst h0
    rw [bitsetDecodePartialBytes_zero] at h
    cases h
    exact ⟨rfl, Nat.zero_le _, bitsetEncodeBytes_nil⟩
  by_cases hd : data = []
  · subst hd
    rw [bitsetDecodePartialBytes_nil h0] at h
    cases h
    refine ⟨List.length_replicate, le_refl _, ?_⟩
    rw [(bitsetEncodeBytes_eq_nil_iff _).2 fun b hb => (List.mem_replicate.1 hb).2]
    rfl
  by_cases h1 : target = 1
  · subst h1
    obtain ⟨b, rest, rfl⟩ := List.exists_cons_of_ne_nil hd
    rw [bitsetDecodePartialBytes_one] at h
    by_cases hb : b = 0
    · rw [if_neg (not_not.2 hb)] at h
      cases h
      exact ⟨rfl, Nat.zero_le _, by rw [bitsetEncodeBytes_single, if_pos hb]; rfl⟩
    · rw [if_pos hb] at h
      cases h
      exact ⟨rfl, by simp, by rw [bitsetEncodeBytes_single, if_neg hb]; rfl⟩
  rw [bitsetDecodePartialBytes_of_two_le (by omega) hd] at h
  cases hrec : bitsetDecodePartialBytes data ((target + 7) / 8) with
  | error e => rw [hrec] at h; cases h
  | ok r =>
  obtain ⟨bs, q⟩ := r
  rw [hrec] at h
  obtain ⟨hbs, hq, henc⟩ := ih _ (by omega) hrec rfl
  obtain ⟨hall, rfl, rfl⟩ := (foldlM_distributeStep_eq_ok_iff data bs q target _ x p).1 h
  have hcover : target ≤ 8 * bs.length := by omega
  obtain ⟨hfilter, hle⟩ := @filter_map_spread bs data q (8 * bs.length) hq target hcover
    fun i hi hb => (hall i (by omega) hb).2
  have hrank : rank bs (8 * bs.length) = rank bs target :=
    rank_eq_of_no_bits (fun i hi => by
      cases hb : bitSet bs i
      · rfl
      · by_cases him : i < 8 * bs.length
        · exact absurd (hall i him hb).1 (by omega)
        · rw [bitSet_of_length_le (by omega)] at hb
          cases hb) _ hcover
  refine ⟨length_spread .., by omega, ?_⟩
  rw [bitsetEncodeBytes_of_two_le (by rw [length_spread]; omega), gatherNonZero_spread hbs hall,
    hrank]
  change (spread bs data q target (8 * bs.length)).filter (· ≠ 0) = _ at hfilter
  rw [hfilter]
  split_ifs with hnil
  · -- nothing was read: the bitset has no set bit, so it encodes to nothing
    have hzero : rank bs target = 0 := by
      rcases List.take_eq_nil_iff.1 hnil with h | h
      · exact h
      · rw [List.drop_eq_nil_iff] at h
        omega
    have hclear : ∀ i, bitSet bs i = false := fun i => by
      cases hb : bitSet bs i
      · rfl
      · by_cases him : i < 8 * bs.length
        · have := rank_pos_of_bitSet hb ((hall i him hb).1)
          omega
        · rw [bitSet_of_length_le (by omega)] at hb
          cases hb
    have hbs0 : bs = List.replicate bs.length 0 :=
      eq_of_bitSet List.length_replicate.symm fun i => by simp [hclear]
    rw [hzero, Nat.add_zero, ← henc, hbs0, (bitsetEncodeBytes_eq_nil_iff _).2
      fun b hb => (List.mem_replicate.1 hb).2]
  · rw [henc, ← List.take_add]

/-! ## The whole-input decoders -/

theorem bitsetDecodeBytes_eq_ok_iff (c : Bytes) (t : Nat) (d : Bytes) :
    bitsetDecodeBytes c t = .ok d ↔ bitsetDecodePartialBytes c t = .ok (d, c.length) := by
  unfold bitsetDecodeBytes
  cases bitsetDecodePartialBytes c t with
  | error e => simp [bind, Except.bind]
  | ok r =>
    obtain ⟨out, size⟩ := r
    by_cases hsize : size = c.length
    · simp [bind, Except.bind, hsize, pure, Except.pure]
    · simp [bind, Except.bind, hsize, throw, throwThe, MonadExceptOf.throw]

/-- The partial decoder returns `target` bytes and a pointer inside the input, or an error. -/
theorem bitsetDecodePartialBytes_total (c : Bytes) (t : Nat) :
    (∃ e, bitsetDecodePartialBytes c t = .error e) ∨
      ∃ x p, bitsetDecodePartialBytes c t = .ok (x, p) ∧ x.length = t ∧ p ≤ c.length := by
  cases h : bitsetDecodePartialBytes c t with
  | error e => exact .inl ⟨e, rfl⟩
  | ok r =>
    obtain ⟨x, p⟩ := r
    obtain ⟨hx, hp, -⟩ := bitsetEncodeBytes_of_decodePartial h
    exact .inr ⟨x, p, rfl, hx, hp⟩

/-- What `fuzzEncode` checks: decoding an encoding at the original length gives the original. -/
theorem bitsetDecodeBytes_encode (d : Bytes) :
    bitsetDecodeBytes (bitsetEncodeBytes d) d.length = .ok d := by
  have h := bitsetDecodePartialBytes_encode d [] (.inr rfl)
  rw [List.append_nil] at h
  exact (bitsetDecodeBytes_eq_ok_iff _ _ _).2 h

/-- What `fuzzDecode` checks: an accepted input is the encoding of its output. -/
theorem bitsetEncodeBytes_of_decode {c : Bytes} {t : Nat} {d : Bytes}
    (h : bitsetDecodeBytes c t = .ok d) : bitsetEncodeBytes d = c := by
  obtain ⟨-, -, henc⟩ :=
    bitsetEncodeBytes_of_decodePartial ((bitsetDecodeBytes_eq_ok_iff _ _ _).1 h)
  rw [henc, List.take_length]

theorem decompressBytes_compressBytes (d : Bytes) :
    DecompressBytes (CompressBytes d) d.length = .ok d := by
  unfold CompressBytes DecompressBytes
  dsimp only
  by_cases hshort : (bitsetEncodeBytes d).length < d.length
  · rw [if_pos hshort, if_neg (by omega), if_neg (by omega), bitsetDecodeBytes_encode]
  · rw [if_neg hshort, if_neg (lt_irrefl _), if_pos rfl]

/-- Sparse bitset compression is a bijection onto its image, and the decoder is total. -/
theorem bitset_compression_bijective :
    (∀ d : Bytes, bitsetDecodeBytes (bitsetEncodeBytes d) d.length = .ok d) ∧
    (∀ d : Bytes, DecompressBytes (CompressBytes d) d.length = .ok d) ∧
    (∀ (c : Bytes) (t : Nat) (d : Bytes), bitsetDecodeBytes c t = .ok d →
      bitsetEncodeBytes d = c) ∧
    (∀ (c : Bytes) (t : Nat), (∃ e, bitsetDecodePartialBytes c t = .error e) ∨
      ∃ x p, bitsetDecodePartialBytes c t = .ok (x, p) ∧ x.length = t ∧ p ≤ c.length) :=
  ⟨bitsetDecodeBytes_encode, decompressBytes_compressBytes,
    fun _ _ _ h => bitsetEncodeBytes_of_decode h, bitsetDecodePartialBytes_total⟩

end Ccmchain.Bitutil
