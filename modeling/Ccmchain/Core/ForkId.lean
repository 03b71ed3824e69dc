import Ccmchain.Lib.Crc32
import Ccmchain.Common.Types
import Ccmchain.Lib.Except

/-!
# Fork identifiers (`core/forkid/forkid.go`)

An `ID` is the CRC-32 of the genesis hash and the fork blocks a node has passed, with the next
fork it knows of (EIP-2124). `newID` counts a fork as passed when `fork <= head`. The validator
`newFilter` builds the checksums `sums[0..n]` of the genesis and the first `i` forks, appends the
sentinel fork `MaxUint64`, and stops at the first fork with `head > fork` false: its rules 1 to 3
compare the remote checksum with the current one, the earlier ones (where the announced next fork
must be the local one) and the later ones.

The fork blocks come from the `*big.Int` fields of `ChainConfig` whose name ends in `Block`
(`gatherForks` finds them by reflection), sorted, deduplicated, and without a leading 0.
-/

namespace Ccmchain.ForkId

open Common (Hash Bytes)

/-- The fork fields of `params.ChainConfig`, `nil` as `none`. -/
structure ChainConfig where
  HomesteadBlock : Option Nat := none
  DAOForkBlock : Option Nat := none
  EIP150Block : Option Nat := none
  EIP155Block : Option Nat := none
  EIP158Block : Option Nat := none
  ByzantiumBlock : Option Nat := none
  ConstantinopleBlock : Option Nat := none
  PetersburgBlock : Option Nat := none
  EWASMBlock : Option Nat := none

/-- `ID`: the checksum of the genesis and the passed forks, and the next fork (0 if none). -/
structure ID where
  Hash : Vector UInt8 4
  Next : UInt64
  deriving DecidableEq

/-- The errors of the validator. -/
inductive ForkIdError where
  /-- `ErrRemoteStale`, "remote needs update". -/
  | ErrRemoteStale
  /-- `ErrLocalIncompatibleOrStale`, "local incompatible or needs update". -/
  | ErrLocalIncompatibleOrStale
  deriving DecidableEq, Repr

/-- `math.MaxUint64`. -/
def MaxUint64 : UInt64 := 0xFFFFFFFFFFFFFFFF

/-- `checksumUpdate`: the checksum extended by the eight big-endian bytes of a fork block. -/
def checksumUpdate (hash : UInt32) (fork : UInt64) : UInt32 :=
  Crc32.simpleUpdate Crc32.IEEE hash (Common.bytesOf 8 fork.toNat)

/-- `checksumToBytes`: the four big-endian bytes of a checksum. -/
def checksumToBytes (hash : UInt32) : Vector UInt8 4 :=
  ⟨(Common.bytesOf 4 hash.toNat).toArray, by simp⟩

/-- The reflection loop of `gatherForks`: `Uint64()` of the `*big.Int` fields whose name ends in
`Block` that are set, in the order of their declaration. -/
def ChainConfig.forkBlocks (c : ChainConfig) : List UInt64 :=
  [c.HomesteadBlock, c.DAOForkBlock, c.EIP150Block, c.EIP155Block, c.EIP158Block,
    c.ByzantiumBlock, c.ConstantinopleBlock, c.PetersburgBlock, c.EWASMBlock].filterMap
    fun rule => rule.map Nat.toUInt64

/-- The exchange sort of `gatherForks`. -/
def sortForks (forks : Array UInt64) : Array UInt64 := Id.run do
  let mut forks := forks
  for i in [0:forks.size] do
    for j in [i+1:forks.size] do
      if forks[i]! > forks[j]! then
        forks := forks.swapIfInBounds i j
  return forks

/-- The deduplication loop of `gatherForks` after the kept block number `prev`. -/
def dedupAfter (prev : UInt64) : List UInt64 → List UInt64
  | [] => []
  | fork :: rest => if fork = prev then dedupAfter prev rest else fork :: dedupAfter fork rest

/-- The deduplication loop of `gatherForks`: block numbers applying multiple forks once. -/
def dedupForks : List UInt64 → List UInt64
  | [] => []
  | fork :: rest => fork :: dedupAfter fork rest

/-- `gatherForks`. -/
def gatherForks (config : ChainConfig) : List UInt64 :=
  match dedupForks (sortForks config.forkBlocks.toArray).toList with
  -- Skip any forks in block 0, that's the genesis ruleset
  | 0 :: forks => forks
  | forks => forks

/-- The loop of `newID` from the checksum `hash`: passed forks extend it, the first fork not
passed is the next one. -/
def idLoop (head : UInt64) : List UInt64 → UInt32 → ID
  | [], hash => ⟨checksumToBytes hash, 0⟩
  | fork :: forks, hash =>
    -- Fork already passed, checksum the previous hash and the fork number
    if fork ≤ head then idLoop head forks (checksumUpdate hash fork)
    else ⟨checksumToBytes hash, fork⟩

/-- `newID`. -/
def newID (config : ChainConfig) (genesis : Hash) (head : UInt64) : ID :=
  idLoop head (gatherForks config) (Crc32.ChecksumIEEE (Common.Hash.Bytes genesis))

/-- The checksums `sums` of `newFilter`: entry `i` covers the genesis and the first `i` forks. -/
def checksums (genesis : Hash) (forks : List UInt64) : List (Vector UInt8 4) :=
  (forks.scanl checksumUpdate (Crc32.ChecksumIEEE (Common.Hash.Bytes genesis))).map
    checksumToBytes

/-- Rule 2's loop over the earlier checksums, with their forks: the first equal to the remote
checksum decides by the announced next fork. -/
def subsetCheck (id : ID) : List (Vector UInt8 4 × UInt64) → Option (Except ForkIdError Unit)
  | [] => none
  | (sum, fork) :: rest =>
    if sum = id.Hash then some (if fork ≠ id.Next then throw .ErrRemoteStale else pure ())
    else subsetCheck id rest

/-- The rules of the validator at `i`, the first fork not passed. -/
def checkRules (sums : List (Vector UInt8 4)) (forks : List UInt64) (id : ID) (i : Nat) :
    Except ForkIdError Unit :=
  -- Check if our current state matches the remote checksum (rule #1)
  if sums[i]? = some id.Hash then pure ()
  else
    -- Check if the remote checksum is a subset of our local forks (rule #2)
    match subsetCheck id ((sums.zip forks).take i) with
    | some result => result
    | none =>
      -- Check if it's a superset (rule #3), reject otherwise
      if id.Hash ∈ sums.drop (i + 1) then pure () else throw .ErrLocalIncompatibleOrStale

/-- The loop of the validator over `forks` (the sentinel included) from index `i`. -/
def validateFrom (sums : List (Vector UInt8 4)) (forks : List UInt64) (head : UInt64) (id : ID) :
    Nat → List UInt64 → Except ForkIdError Unit
  -- "Impossible fork ID validation": accept
  | _, [] => pure ()
  | i, fork :: rest =>
    -- If our head is beyond this fork, continue to the next
    if head > fork then validateFrom sums forks head id (i + 1) rest
    else checkRules sums forks id i

/-- The validator `newFilter` returns, at the local head `head`. -/
def newFilter (config : ChainConfig) (genesis : Hash) (head : UInt64) (id : ID) :
    Except ForkIdError Unit :=
  let forks := gatherForks config
  let sums := checksums genesis forks
  -- Add a sentry so that the last fork is never passed
  let forks := forks ++ [MaxUint64]
  validateFrom sums forks head id 0 forks

example : gatherForks
    { HomesteadBlock := some 5, EIP150Block := some 0, EIP155Block := some 5, ByzantiumBlock := some 2 } =
      [2, 5] := by
  decide +kernel

/-! ### The validator against `newID` -/

/-- Rule 2's loop finds the first earlier checksum equal to the remote one. -/
theorem subsetCheck_eq (id : ID) (l : List (Vector UInt8 4 × UInt64)) :
    subsetCheck id l = (l.find? fun p => p.1 = id.Hash).map
      fun p => if p.2 ≠ id.Next then throw .ErrRemoteStale else pure () := by
  induction l with
  | nil => rfl
  | cons p l ih =>
    obtain ⟨sum, fork⟩ := p
    by_cases h : sum = id.Hash <;> simp [subsetCheck, h, ih]

section Validator

variable {sums : List (Vector UInt8 4)} {forks : List UInt64} {head : UInt64} {id : ID}

theorem validateFrom_append (pre rest : List UInt64) (i : Nat) (hpre : ∀ a ∈ pre, head > a) :
    validateFrom sums forks head id i (pre ++ rest) =
      validateFrom sums forks head id (i + pre.length) rest := by
  induction pre generalizing i with
  | nil => simp
  | cons a pre ih =>
    rw [List.cons_append, validateFrom, if_pos (hpre a (by simp)),
      ih _ fun b hb => hpre b (by simp [hb])]
    simp [Nat.add_assoc, Nat.add_comm 1]

theorem not_lt_maxUint64 (head : UInt64) : ¬head > MaxUint64 := by
  simp only [MaxUint64, gt_iff_lt, UInt64.not_lt]
  exact UInt64.le_iff_toNat_le.mpr (by have := head.toNat_lt; simp; omega)

/-- The validator skips the forks below the head and applies its rules at the first other one. -/
theorem validateFrom_eq_checkRules (l : List UInt64) (hl : ∃ x ∈ l, ¬head > x) :
    validateFrom sums forks head id 0 l =
      checkRules sums forks id (l.takeWhile fun f => head > f).length := by
  have hne : l.dropWhile (fun f => head > f) ≠ [] := by
    intro h
    obtain ⟨x, hx, hnot⟩ := hl
    have := List.takeWhile_append_dropWhile (p := fun f => decide (head > f)) (l := l)
    rw [h, List.append_nil] at this
    rw [← this] at hx
    exact hnot (by simpa using List.all_eq_true.mp List.all_takeWhile x hx)
  obtain ⟨x, post, hx⟩ := List.exists_cons_of_ne_nil hne
  have hxp := List.head_dropWhile_not (fun f => decide (head > f)) hne
  simp only [hx, List.head_cons, decide_eq_false_iff_not] at hxp
  conv_lhs => rw [← List.takeWhile_append_dropWhile (p := fun f => decide (head > f)) (l := l), hx]
  rw [validateFrom_append _ _ _ fun a ha => by
      simpa using List.all_eq_true.mp List.all_takeWhile a ha, validateFrom, if_neg hxp,
    Nat.zero_add]

end Validator

/-- `newID`'s loop in terms of the forks passed at `head`, those up to the first above it. -/
theorem idLoop_eq (head : UInt64) (forks : List UInt64) (hash : UInt32) :
    idLoop head forks hash =
      ⟨checksumToBytes ((forks.takeWhile fun f => f ≤ head).foldl checksumUpdate hash),
        ((forks.dropWhile fun f => f ≤ head).head?).getD 0⟩ := by
  induction forks generalizing hash with
  | nil => rfl
  | cons fork forks ih =>
    by_cases hf : fork ≤ head
    · simp [idLoop, hf, ih]
    · simp [idLoop, hf]

section Rules

variable {sums : List (Vector UInt8 4)} {forks : List UInt64} {id : ID} {i p : Nat}

theorem checkRules_current (h : sums[i]? = some id.Hash) : checkRules sums forks id i = .ok () := by
  simp [checkRules, h]

/-- A remote behind the local node, at an earlier checksum whose next fork is the local one. -/
theorem checkRules_behind (hnodup : sums.Nodup) (hpi : p < i) (hi : i < sums.length)
    (hp : sums[p]? = some id.Hash) (hnext : forks[p]? = some id.Next) :
    checkRules sums forks id i = .ok () := by
  have hne : sums[i]? ≠ some id.Hash := fun h => by
    have := (List.getElem?_inj hi hnodup).mp (h.trans hp.symm)
    omega
  obtain ⟨hps, hpv⟩ := List.getElem?_eq_some_iff.mp hp
  obtain ⟨hpf, hnv⟩ := List.getElem?_eq_some_iff.mp hnext
  -- the first entry before `i` equal to the remote checksum is entry `p`
  have hfind : ((sums.zip forks).take i).find? (fun q => q.1 = id.Hash) = some (id.Hash, id.Next) := by
    rw [List.find?_eq_some_iff_getElem]
    refine ⟨by simp, p, by simp; omega, ?_, fun j hj => ?_⟩
    · simp [List.getElem_take, List.getElem_zip, hpv, hnv]
    · have hj' : sums[j]? ≠ some id.Hash := fun h => by
        have := (List.getElem?_inj (by omega) hnodup).mp (h.trans hp.symm)
        omega
      simpa [List.getElem_take, List.getElem_zip, List.getElem?_eq_getElem (show j < sums.length by omega)] using hj'
  simp [checkRules, hne, subsetCheck_eq, hfind]

/-- A remote ahead of the local node, at a later checksum. -/
theorem checkRules_ahead (hnodup : sums.Nodup) (hip : i < p) (hp : sums[p]? = some id.Hash) :
    checkRules sums forks id i = .ok () := by
  obtain ⟨hps, hpv⟩ := List.getElem?_eq_some_iff.mp hp
  have hne : sums[i]? ≠ some id.Hash := fun h => by
    have := (List.getElem?_inj (by omega) hnodup).mp (h.trans hp.symm)
    omega
  -- no entry before `i` is the remote checksum
  have hfind : ((sums.zip forks).take i).find? (fun q => q.1 = id.Hash) = none := by
    rw [List.find?_eq_none]
    intro q hq heq
    obtain ⟨j, hj, rfl⟩ := List.getElem_of_mem hq
    simp only [List.length_take, List.length_zip] at hj
    have : sums[j]? = some id.Hash := by
      simpa [List.getElem_take, List.getElem_zip, List.getElem?_eq_getElem (show j < sums.length by omega)] using heq
    have := (List.getElem?_inj (by omega) hnodup).mp (this.trans hp.symm)
    omega
  have hmem : id.Hash ∈ sums.drop (i + 1) :=
    List.mem_drop_iff_getElem.mpr ⟨p - (i + 1), by omega, by
      simpa [show i + 1 + (p - (i + 1)) = p by omega] using hpv⟩
  simp [checkRules, hne, subsetCheck_eq, hfind, hmem]

end Rules

/-- Two nodes of one chain accept each other's fork IDs at any heads, provided the checksums of the
chain's forks differ. -/
theorem newFilter_accepts_newID (config : ChainConfig) (genesis : Hash) (h₁ h₂ : UInt64)
    (hnodup : (checksums genesis (gatherForks config)).Nodup) :
    newFilter config genesis h₂ (newID config genesis h₁) = .ok () := by
  set F := gatherForks config
  set base := Crc32.ChecksumIEEE (Common.Hash.Bytes genesis)
  -- entry `k` of the checksums covers the first `k` forks
  have hsum : ∀ k ≤ F.length, (checksums genesis F)[k]? =
      some (checksumToBytes ((F.take k).foldl checksumUpdate base)) := by
    intro k hk
    simp [checksums, hk, base]
  have hlen : (checksums genesis F).length = F.length + 1 := by simp [checksums]
  -- the remote announces entry `p`, the number of forks passed at `h₁`, and the fork after them
  set p := (F.takeWhile fun f => f ≤ h₁).length
  have hp : p ≤ F.length := (List.takeWhile_prefix _).length_le
  have htake : F.takeWhile (fun f => f ≤ h₁) = F.take p :=
    List.prefix_iff_eq_take.mp (List.takeWhile_prefix _)
  have hdrop : F.dropWhile (fun f => f ≤ h₁) = F.drop p := by
    have h := List.takeWhile_append_dropWhile (p := fun f => decide (f ≤ h₁)) (l := F)
    rw [htake] at h
    exact List.append_cancel_left (h.trans (List.take_append_drop p F).symm)
  have hid : newID config genesis h₁ =
      ⟨checksumToBytes ((F.take p).foldl checksumUpdate base), F[p]?.getD 0⟩ := by
    rw [newID, idLoop_eq, htake, hdrop, List.head?_drop]
  -- the local node applies its rules at `i`, the first fork not below `h₂`
  set F' := F ++ [MaxUint64]
  set i := (F'.takeWhile fun f => h₂ > f).length
  have hi : i ≤ F.length := by
    by_contra hi
    have hfull : F'.takeWhile (fun f => h₂ > f) = F' := by
      apply (List.takeWhile_prefix _).eq_of_length
      have hle : i ≤ F'.length := (List.takeWhile_prefix _).length_le
      have hlen' : F'.length = F.length + 1 := by simp [F']
      show i = F'.length
      omega
    have hmax := List.all_eq_true.mp (hfull ▸ List.all_takeWhile) MaxUint64 (by simp [F'])
    exact not_lt_maxUint64 h₂ (by simpa using hmax)
  have hrules : newFilter config genesis h₂ (newID config genesis h₁) =
      checkRules (checksums genesis F) F' (newID config genesis h₁) i :=
    validateFrom_eq_checkRules F' ⟨MaxUint64, by simp [F'], not_lt_maxUint64 h₂⟩
  rw [hrules, hid]
  rcases lt_trichotomy p i with hpi | hpi | hip
  · refine checkRules_behind hnodup hpi (by omega) (hsum p hp) ?_
    -- the next fork announced is the local fork `p`
    have hpF : p < F.length := by omega
    simp [F', List.getElem?_append_left hpF, List.getElem?_eq_getElem hpF]
  · rw [← hpi]
    exact checkRules_current (hsum p hp)
  · exact checkRules_ahead hnodup hip (hsum p hp)

/-- One fork, at block 1, and the local head at block 1, so that the fork is passed (`newID` counts
it). A remote that announces the genesis checksum and no next fork has not heard of the fork: its
checksum is an earlier local one and its next fork is not the local fork 1, which EIP-2124 answers
with `ErrRemoteStale`. The validator stops at the fork (`head > fork` fails), takes the genesis
checksum for the current one, and accepts. -/
theorem newFilter_accepts_stale_remote_at_fork_block :
    gatherForks { HomesteadBlock := some 1 } = [1] ∧
    checksums 0 [1] = [checksumToBytes 0x190a55ad, checksumToBytes 0x9eeb0d27] ∧
    checksumToBytes 0x190a55ad ≠ checksumToBytes 0x9eeb0d27 ∧
    newID { HomesteadBlock := some 1 } 0 1 = ⟨checksumToBytes 0x9eeb0d27, 0⟩ ∧
    newFilter { HomesteadBlock := some 1 } 0 1 ⟨checksumToBytes 0x190a55ad, 0⟩ = .ok () := by
  refine ⟨?_, ?_, ?_, ?_, ?_⟩ <;> decide +kernel

end Ccmchain.ForkId
