import Mathlib

/-!
# Compatibility of chain configurations (`params/config.go`)

A node refuses a new `ChainConfig` that would change blocks it has already imported.
`checkCompatible` makes one pass over the fork numbers, in a fixed order, and reports the first
pair that differs at or below the head it is given, with a block to rewind to.
`CheckCompatible` runs that pass again at each reported rewind point, until it finds nothing
lower.

The pass compares raw fork numbers, not the rules derived from them. A conflict point
(`Conflict`) is a block at which one pair of fork numbers differs in whether the fork has
happened, or at which the stored configuration has passed the DAO fork (EIP-158) and the two
configurations differ in the DAO support flag (in the chain id). `CheckCompatible` reports
nothing exactly when no conflict point lies at or below the height, and otherwise the block just
below the least one. The rules can agree where the
numbers differ, and differ where the numbers agree: a `nil` Petersburg block means Petersburg
comes with Constantinople, and signing uses the chain id from EIP-155 on, not from EIP-158.

Block numbers are `*big.Int`s: `Option Int` for a fork number that may be `nil`, `Int` for the
block a rule is asked about.
-/

namespace Ccmchain.Params

/-- The fields of `ChainConfig` the fork rules read. -/
structure ChainConfig where
  ChainID : Option Int
  HomesteadBlock : Option Int
  DAOForkBlock : Option Int
  DAOForkSupport : Bool
  EIP150Block : Option Int
  EIP155Block : Option Int
  EIP158Block : Option Int
  ByzantiumBlock : Option Int
  ConstantinopleBlock : Option Int
  PetersburgBlock : Option Int
  EWASMBlock : Option Int
  deriving DecidableEq, Repr

/-- `isForked`: a fork scheduled at block `s` is active at block `head`. -/
def isForked (s : Option Int) (head : Int) : Bool :=
  match s with
  | none => false
  | some s => decide (s ≤ head)

/-- `configNumEqual`: `nil` equals only `nil`. -/
def configNumEqual : Option Int → Option Int → Bool
  | none, y => y.isNone
  | some _, none => false
  | some x, some y => decide (x = y)

/-- `isForkIncompatible`: a fork scheduled at `s1` cannot move to `s2` once the head is past
either. -/
def isForkIncompatible (s1 s2 : Option Int) (head : Int) : Bool :=
  (isForked s1 head || isForked s2 head) && !configNumEqual s1 s2

namespace ChainConfig

variable (c : ChainConfig) (num : Int)

def IsHomestead : Bool := isForked c.HomesteadBlock num
def IsDAOFork : Bool := isForked c.DAOForkBlock num
def IsEIP150 : Bool := isForked c.EIP150Block num
def IsEIP155 : Bool := isForked c.EIP155Block num
def IsEIP158 : Bool := isForked c.EIP158Block num
def IsByzantium : Bool := isForked c.ByzantiumBlock num
def IsConstantinople : Bool := isForked c.ConstantinopleBlock num

/-- `IsPetersburg`: from the Petersburg block, or with Constantinople when it is `nil`. -/
def IsPetersburg : Bool :=
  isForked c.PetersburgBlock num || (c.PetersburgBlock.isNone && isForked c.ConstantinopleBlock num)

def IsEWASM : Bool := isForked c.EWASMBlock num

end ChainConfig

/-- `ConfigCompatError`. -/
structure ConfigCompatError where
  What : String
  StoredConfig : Option Int
  NewConfig : Option Int
  RewindTo : UInt64
  deriving DecidableEq, Repr

/-- The block `newCompatError` rewinds below: the lower of the two fork numbers, where both are
set. -/
def rewindBlock (storedblock newblock : Option Int) : Option Int :=
  match storedblock, newblock with
  | none, _ => newblock
  | some s, none => some s
  | some s, some n => if s < n then some s else some n

/-- `newCompatError`: `RewindTo` is one below the rewind block, as a `uint64`, and 0 when that
block is not positive. -/
def newCompatError (what : String) (storedblock newblock : Option Int) : ConfigCompatError :=
  { What := what, StoredConfig := storedblock, NewConfig := newblock,
    RewindTo := match rewindBlock storedblock newblock with
      | some r => if 0 < r then UInt64.ofNat r.toNat - 1 else 0
      | none => 0 }

/-- One `if` of `checkCompatible` on a pair of fork numbers: whether it fires, and its error. -/
def forkCheck (what : String) (s1 s2 : Option Int) (head : Int) : Bool × ConfigCompatError :=
  (isForkIncompatible s1 s2 head, newCompatError what s1 s2)

/-- The error of the first check that fires. -/
def firstFired : List (Bool × ConfigCompatError) → Option ConfigCompatError
  | [] => none
  | (fired, err) :: rest => if fired then some err else firstFired rest

/-- `checkCompatible`: its `if`s in order, each a check and the error it returns. -/
def ChainConfig.checkCompatible (c newcfg : ChainConfig) (head : Int) : Option ConfigCompatError :=
  firstFired [
    forkCheck "Homestead fork block" c.HomesteadBlock newcfg.HomesteadBlock head,
    forkCheck "DAO fork block" c.DAOForkBlock newcfg.DAOForkBlock head,
    (c.IsDAOFork head && c.DAOForkSupport != newcfg.DAOForkSupport,
      newCompatError "DAO fork support flag" c.DAOForkBlock newcfg.DAOForkBlock),
    forkCheck "EIP150 fork block" c.EIP150Block newcfg.EIP150Block head,
    forkCheck "EIP155 fork block" c.EIP155Block newcfg.EIP155Block head,
    forkCheck "EIP158 fork block" c.EIP158Block newcfg.EIP158Block head,
    (c.IsEIP158 head && !configNumEqual c.ChainID newcfg.ChainID,
      newCompatError "EIP158 chain ID" c.EIP158Block newcfg.EIP158Block),
    forkCheck "Byzantium fork block" c.ByzantiumBlock newcfg.ByzantiumBlock head,
    forkCheck "Constantinople fork block" c.ConstantinopleBlock newcfg.ConstantinopleBlock head,
    forkCheck "Petersburg fork block" c.PetersburgBlock newcfg.PetersburgBlock head,
    forkCheck "ewasm fork block" c.EWASMBlock newcfg.EWASMBlock head]

/-! ### One pass -/

theorem isForked_iff {s : Option Int} {m : Int} :
    isForked s m = true ↔ ∃ a, s = some a ∧ a ≤ m := by
  cases s <;> simp [isForked]

theorem isForked_mono {s : Option Int} {m m' : Int} (h : isForked s m = true) (hm : m ≤ m') :
    isForked s m' = true := by
  obtain ⟨a, rfl, ha⟩ := isForked_iff.mp h
  exact isForked_iff.mpr ⟨a, rfl, ha.trans hm⟩

theorem configNumEqual_iff {x y : Option Int} : configNumEqual x y = true ↔ x = y := by
  cases x <;> cases y <;> simp [configNumEqual]

/-- Two fork numbers disagree at block `m` on whether the fork has happened. -/
def forkConflict (s1 s2 : Option Int) (m : Int) : Prop :=
  isForked s1 m ≠ isForked s2 m

/-- `isForkIncompatible` fires exactly when the two numbers disagree at some block up to the
head. -/
theorem isForkIncompatible_iff {s1 s2 : Option Int} {head : Int} :
    isForkIncompatible s1 s2 head = true ↔ ∃ m ≤ head, forkConflict s1 s2 m := by
  rcases s1 with _ | a <;> rcases s2 with _ | b <;>
    simp [isForkIncompatible, isForked, configNumEqual, forkConflict]
  · exact ⟨fun h => ⟨head, le_rfl, h⟩, fun ⟨m, hm, hb⟩ => hb.trans hm⟩
  · exact ⟨fun h => ⟨head, le_rfl, h⟩, fun ⟨m, hm, ha⟩ => ha.trans hm⟩
  · constructor
    · rintro ⟨hle, hne⟩
      refine ⟨min a b, by omega, ?_⟩
      rw [not_iff]
      omega
    · rintro ⟨m, hm, hiff⟩
      rw [not_iff] at hiff
      omega

/-- A pair that fires is rewound below the least block at which it disagrees. -/
theorem rewindBlock_of_incompatible {s1 s2 : Option Int} {head : Int}
    (h : isForkIncompatible s1 s2 head = true) :
    ∃ r, rewindBlock s1 s2 = some r ∧ r ≤ head ∧ forkConflict s1 s2 r ∧
      ∀ m < r, ¬ forkConflict s1 s2 m := by
  rcases s1 with _ | a <;> rcases s2 with _ | b <;>
    simp [isForkIncompatible, isForked, configNumEqual] at h
  · exact ⟨b, rfl, h, by simp [forkConflict, isForked], fun m hm => by simp [forkConflict, isForked]; omega⟩
  · exact ⟨a, rfl, h, by simp [forkConflict, isForked], fun m hm => by simp [forkConflict, isForked]; omega⟩
  · obtain ⟨hle, hne⟩ := h
    refine ⟨min a b, ?_, by omega, ?_, fun m hm => ?_⟩
    · simp only [rewindBlock]
      split_ifs <;> congr 1 <;> omega
    · simp only [forkConflict, isForked, ne_eq, decide_eq_decide]
      omega
    · simp only [forkConflict, isForked, ne_eq, decide_eq_decide, not_not]
      omega

/-- `RewindTo` is one below the rewind block, which lies at or below a head that fits a
`uint64`. -/
theorem rewindTo_newCompatError {what : String} {s1 s2 : Option Int} {r head : Int}
    (hr : rewindBlock s1 s2 = some r) (hle : r ≤ head) (hhead : head < 2 ^ 64) :
    (newCompatError what s1 s2).RewindTo.toNat = (r - 1).toNat := by
  simp only [newCompatError, hr]
  split
  · rename_i hpos
    have hlt : r.toNat < UInt64.size := by
      rw [UInt64.size]
      omega
    have hone : (1 : UInt64) ≤ UInt64.ofNat r.toNat := by
      rw [UInt64.le_iff_toNat_le, UInt64.toNat_ofNat_of_lt' hlt]
      simp
      omega
    rw [UInt64.toNat_sub_of_le _ _ hone, UInt64.toNat_ofNat_of_lt' hlt]
    simp
  · simp
    omega

/-- The pairs of fork numbers `checkCompatible` compares, stored first. -/
def forkPairs (c newcfg : ChainConfig) : List (Option Int × Option Int) :=
  [(c.HomesteadBlock, newcfg.HomesteadBlock), (c.DAOForkBlock, newcfg.DAOForkBlock),
    (c.EIP150Block, newcfg.EIP150Block), (c.EIP155Block, newcfg.EIP155Block),
    (c.EIP158Block, newcfg.EIP158Block), (c.ByzantiumBlock, newcfg.ByzantiumBlock),
    (c.ConstantinopleBlock, newcfg.ConstantinopleBlock), (c.PetersburgBlock, newcfg.PetersburgBlock),
    (c.EWASMBlock, newcfg.EWASMBlock)]

/-- A block at which `checkCompatible` sees the two configurations disagree: a pair of fork
numbers, the DAO support flag once the stored configuration is past the DAO fork, or the chain
id once it is past EIP-158. -/
def Conflict (c newcfg : ChainConfig) (m : Int) : Prop :=
  (∃ p ∈ forkPairs c newcfg, forkConflict p.1 p.2 m) ∨
  (c.IsDAOFork m = true ∧ c.DAOForkSupport ≠ newcfg.DAOForkSupport) ∨
  (c.IsEIP158 m = true ∧ c.ChainID ≠ newcfg.ChainID)

theorem firstFired_eq_none_iff (l : List (Bool × ConfigCompatError)) :
    firstFired l = none ↔ ∀ p ∈ l, p.1 = false := by
  induction l with
  | nil => simp [firstFired]
  | cons p l ih =>
    obtain ⟨fired, err⟩ := p
    cases fired <;> simp [firstFired, ih]

/-- A check gated on the stored fork `s` fires exactly when the fork has happened by the head
and the gate holds. -/
theorem gated_iff {s : Option Int} {b : Bool} {head : Int} :
    (isForked s head && b) = true ↔ ∃ m ≤ head, isForked s m = true ∧ b = true := by
  constructor
  · intro h
    simp only [Bool.and_eq_true] at h
    exact ⟨head, le_rfl, h⟩
  · rintro ⟨m, hm, hs, hb⟩
    simp [isForked_mono hs hm, hb]

/-- One pass finds nothing exactly when there is no conflict point up to the head. -/
theorem checkCompatible_eq_none_iff (c newcfg : ChainConfig) (head : Int) :
    c.checkCompatible newcfg head = none ↔ ∀ m ≤ head, ¬ Conflict c newcfg m := by
  rw [ChainConfig.checkCompatible, firstFired_eq_none_iff]
  simp only [List.mem_cons, List.not_mem_nil, or_false, forall_eq_or_imp, forall_eq, forkCheck,
    ← Bool.not_eq_true, isForkIncompatible_iff, ChainConfig.IsDAOFork, ChainConfig.IsEIP158,
    gated_iff, bne_iff_ne, ne_eq, Bool.not_eq_true', configNumEqual_iff, Conflict, forkPairs]
  simp only [not_exists, not_and, not_or, imp_and, forall_and, forall_eq_or_imp, forall_eq]
  tauto

theorem reports_of_incompatible {what : String} {s1 s2 : Option Int} {head : Int}
    (h : isForkIncompatible s1 s2 head = true) (hhead : head < 2 ^ 64) :
    ∃ L ≤ head, forkConflict s1 s2 L ∧
      (newCompatError what s1 s2).RewindTo.toNat = (L - 1).toNat := by
  obtain ⟨r, hr, hle, hc, -⟩ := rewindBlock_of_incompatible h
  exact ⟨r, hle, hc, rewindTo_newCompatError hr hle hhead⟩

/-- A check gated on the stored fork `s1` rewinds below the stored fork, or below the new one
where that is lower, and then the pair disagrees there. -/
theorem reports_of_gated {what : String} {s1 : Option Int} (s2 : Option Int) {head : Int}
    (h : isForked s1 head = true) (hhead : head < 2 ^ 64) :
    ∃ L ≤ head, (isForked s1 L = true ∨ forkConflict s1 s2 L) ∧
      (newCompatError what s1 s2).RewindTo.toNat = (L - 1).toNat := by
  obtain ⟨a, rfl, ha⟩ := isForked_iff.mp h
  have hr : ∃ r, rewindBlock (some a) s2 = some r ∧ r ≤ a ∧
      (isForked (some a) r = true ∨ forkConflict (some a) s2 r) := by
    rcases s2 with _ | b
    · exact ⟨a, rfl, le_rfl, .inl (by simp [isForked])⟩
    · by_cases hab : a < b
      · exact ⟨a, by simp [rewindBlock, hab], le_rfl, .inl (by simp [isForked])⟩
      · refine ⟨b, by simp [rewindBlock, hab], by omega, ?_⟩
        by_cases hba : b = a
        · exact .inl (by simp [isForked, hba])
        · exact .inr (by simp [forkConflict, isForked]; omega)
  obtain ⟨r, hr, hra, hc⟩ := hr
  exact ⟨r, hra.trans ha, hc, rewindTo_newCompatError hr (hra.trans ha) hhead⟩

theorem reports_fork {c newcfg : ChainConfig} {what : String} {s1 s2 : Option Int} {head : Int}
    (hmem : (s1, s2) ∈ forkPairs c newcfg) (h : isForkIncompatible s1 s2 head = true)
    (hhead : head < 2 ^ 64) :
    ∃ L ≤ head, Conflict c newcfg L ∧
      (newCompatError what s1 s2).RewindTo.toNat = (L - 1).toNat := by
  obtain ⟨L, hL, hc, hr⟩ := reports_of_incompatible h hhead
  exact ⟨L, hL, .inl ⟨(s1, s2), hmem, hc⟩, hr⟩

theorem reports_dao {c newcfg : ChainConfig} {head : Int} (h : c.IsDAOFork head = true)
    (hne : c.DAOForkSupport ≠ newcfg.DAOForkSupport) (hhead : head < 2 ^ 64) :
    ∃ L ≤ head, Conflict c newcfg L ∧
      (newCompatError "DAO fork support flag" c.DAOForkBlock newcfg.DAOForkBlock).RewindTo.toNat =
        (L - 1).toNat := by
  obtain ⟨L, hL, hc, hr⟩ := reports_of_gated newcfg.DAOForkBlock h hhead
  refine ⟨L, hL, ?_, hr⟩
  rcases hc with hc | hc
  · exact .inr (.inl ⟨hc, hne⟩)
  · exact .inl ⟨(c.DAOForkBlock, newcfg.DAOForkBlock), by simp [forkPairs], hc⟩

theorem reports_chainID {c newcfg : ChainConfig} {head : Int} (h : c.IsEIP158 head = true)
    (hne : c.ChainID ≠ newcfg.ChainID) (hhead : head < 2 ^ 64) :
    ∃ L ≤ head, Conflict c newcfg L ∧
      (newCompatError "EIP158 chain ID" c.EIP158Block newcfg.EIP158Block).RewindTo.toNat =
        (L - 1).toNat := by
  obtain ⟨L, hL, hc, hr⟩ := reports_of_gated newcfg.EIP158Block h hhead
  refine ⟨L, hL, ?_, hr⟩
  rcases hc with hc | hc
  · exact .inr (.inr ⟨hc, hne⟩)
  · exact .inl ⟨(c.EIP158Block, newcfg.EIP158Block), by simp [forkPairs], hc⟩

/-- What the first check that fires reports, every check that fires reports. -/
theorem firstFired_reports {R : ConfigCompatError → Prop} {l : List (Bool × ConfigCompatError)}
    {err : ConfigCompatError} (hl : ∀ p ∈ l, p.1 = true → R p.2) (h : firstFired l = some err) :
    R err := by
  induction l with
  | nil => cases h
  | cons p l ih =>
    obtain ⟨fired, e⟩ := p
    cases fired with
    | true =>
      cases h
      exact hl _ List.mem_cons_self rfl
    | false => exact ih (fun q hq => hl q (List.mem_cons_of_mem _ hq)) h

/-- What one pass reports is a conflict point at or below the head, and `RewindTo` is the block
below it. -/
theorem checkCompatible_reports {c newcfg : ChainConfig} {head : Int} {err : ConfigCompatError}
    (h : c.checkCompatible newcfg head = some err) (hhead : head < 2 ^ 64) :
    ∃ L ≤ head, Conflict c newcfg L ∧ err.RewindTo.toNat = (L - 1).toNat := by
  refine firstFired_reports
    (R := fun e => ∃ L ≤ head, Conflict c newcfg L ∧ e.RewindTo.toNat = (L - 1).toNat) ?_ h
  simp only [List.mem_cons, List.not_mem_nil, or_false, forall_eq_or_imp, forall_eq, forkCheck]
  refine ⟨fun h1 => ?_, fun h2 => ?_, fun h3 => ?_, fun h4 => ?_, fun h5 => ?_, fun h6 => ?_,
    fun h7 => ?_, fun h8 => ?_, fun h9 => ?_, fun h10 => ?_, fun h11 => ?_⟩
  · exact reports_fork (by simp [forkPairs]) h1 hhead
  · exact reports_fork (by simp [forkPairs]) h2 hhead
  · simp only [Bool.and_eq_true, bne_iff_ne] at h3
    exact reports_dao h3.1 h3.2 hhead
  · exact reports_fork (by simp [forkPairs]) h4 hhead
  · exact reports_fork (by simp [forkPairs]) h5 hhead
  · exact reports_fork (by simp [forkPairs]) h6 hhead
  · simp only [Bool.and_eq_true, Bool.not_eq_true', ← Bool.not_eq_true, configNumEqual_iff] at h7
    exact reports_chainID h7.1 h7.2 hhead
  · exact reports_fork (by simp [forkPairs]) h8 hhead
  · exact reports_fork (by simp [forkPairs]) h9 hhead
  · exact reports_fork (by simp [forkPairs]) h10 hhead
  · exact reports_fork (by simp [forkPairs]) h11 hhead

/-! ### The rewind loop -/

/-- A pass that neither finds nothing nor repeats the last rewind point reports one below the
block it checked, or the same block only when that is 0 and differs from the last one. -/
theorem rewindTo_lt_of_continue {c newcfg : ChainConfig} {bhead : UInt64}
    {lasterr : Option ConfigCompatError} {err : ConfigCompatError}
    (h : c.checkCompatible newcfg bhead.toNat = some err)
    (hne : ¬ lasterr.any (fun e => err.RewindTo == e.RewindTo) = true) :
    err.RewindTo.toNat < bhead.toNat + if lasterr.any (fun e => e.RewindTo == bhead) then 0 else 1 := by
  have hlt : (bhead.toNat : Int) < 2 ^ 64 := by
    have := bhead.toNat_lt
    omega
  obtain ⟨L, hL, -, hr⟩ := checkCompatible_reports h hlt
  cases lasterr with
  | none =>
    simp only [Option.any_none, Bool.false_eq_true, if_false]
    omega
  | some e =>
    simp only [Option.any_some, beq_iff_eq] at hne ⊢
    split_ifs with he
    · subst he
      have hne' : err.RewindTo.toNat ≠ e.RewindTo.toNat := fun h => hne (UInt64.toNat_inj.mp h)
      omega
    · omega

/-- The loop of `CheckCompatible`: check at `bhead`, stop when nothing is found or the rewind
point repeats, and otherwise check again at the rewind point. -/
def ChainConfig.checkCompatibleFrom (c newcfg : ChainConfig) (bhead : UInt64)
    (lasterr : Option ConfigCompatError) : Option ConfigCompatError :=
  match _reported : c.checkCompatible newcfg bhead.toNat with
  | none => lasterr
  | some err =>
    if _repeated : lasterr.any (fun e => err.RewindTo == e.RewindTo) then lasterr
    else c.checkCompatibleFrom newcfg err.RewindTo (some err)
termination_by bhead.toNat + if lasterr.any (fun e => e.RewindTo == bhead) then 0 else 1
decreasing_by
  simp only [Option.any_some, BEq.rfl, if_true, Nat.add_zero]
  exact rewindTo_lt_of_continue _reported _repeated

/-- `CheckCompatible`: the lowest conflict the passes find, starting at the height. -/
def ChainConfig.CheckCompatible (c newcfg : ChainConfig) (height : UInt64) :
    Option ConfigCompatError :=
  c.checkCompatibleFrom newcfg height none

/-! ### The earliest conflict -/

/-- Every conflict point lies at or past some fork number. -/
theorem conflict_forked {c newcfg : ChainConfig} {m : Int} (h : Conflict c newcfg m) :
    ∃ p ∈ forkPairs c newcfg, isForked p.1 m = true ∨ isForked p.2 m = true := by
  rcases h with ⟨p, hp, hc⟩ | ⟨hd, -⟩ | ⟨he, -⟩
  · refine ⟨p, hp, ?_⟩
    revert hc
    unfold forkConflict
    cases isForked p.1 m <;> cases isForked p.2 m <;> simp
  · exact ⟨(c.DAOForkBlock, newcfg.DAOForkBlock), by simp [forkPairs], .inl hd⟩
  · exact ⟨(c.EIP158Block, newcfg.EIP158Block), by simp [forkPairs], .inl he⟩

/-- Conflict points are bounded below, by the least fork number either configuration sets. -/
theorem conflict_bddBelow (c newcfg : ChainConfig) : ∃ b, ∀ m, Conflict c newcfg m → b ≤ m := by
  let nums := ((forkPairs c newcfg).flatMap fun p => [p.1, p.2]).reduceOption
  obtain ⟨b, hb⟩ := (List.finite_toSet nums).bddBelow
  refine ⟨b, fun m hm => ?_⟩
  obtain ⟨p, hp, hf⟩ := conflict_forked hm
  have hnum : ∃ a ∈ nums, a ≤ m := by
    rcases hf with hf | hf <;> obtain ⟨a, ha, ham⟩ := isForked_iff.mp hf
    · exact ⟨a, List.reduceOption_mem_iff.mpr (List.mem_flatMap.mpr ⟨p, hp, by simp [ha]⟩), ham⟩
    · exact ⟨a, List.reduceOption_mem_iff.mpr (List.mem_flatMap.mpr ⟨p, hp, by simp [ha]⟩), ham⟩
  obtain ⟨a, ha, ham⟩ := hnum
  exact (hb ha).trans ham

/-- Below any conflict point lies a least one. -/
theorem exists_earliest_conflict {c newcfg : ChainConfig} {m : Int} (hm : Conflict c newcfg m) :
    ∃ L ≤ m, Conflict c newcfg L ∧ ∀ k < L, ¬ Conflict c newcfg k := by
  obtain ⟨L, hL, hleast⟩ := Int.exists_least_of_bdd (conflict_bddBelow c newcfg) ⟨m, hm⟩
  exact ⟨L, hleast m hm, hL, fun k hk hc => absurd (hleast k hc) (not_le.mpr hk)⟩

/-- The loop ends with nothing only if it began with nothing. -/
theorem checkCompatibleFrom_eq_none {c newcfg : ChainConfig} {bhead : UInt64}
    {lasterr : Option ConfigCompatError} (h : c.checkCompatibleFrom newcfg bhead lasterr = none) :
    lasterr = none := by
  fun_induction c.checkCompatibleFrom newcfg bhead lasterr with
  | case1 => exact h
  | case2 => exact h
  | case3 _ _ _ _ _ ih => cases ih h

/-- What the loop knows at the top of each iteration: it checks the height first, and after
that the rewind point of the last error, which reports a conflict point at or below the
height. -/
def LoopInv (c newcfg : ChainConfig) (height bhead : UInt64) : Option ConfigCompatError → Prop
  | none => bhead = height
  | some e => bhead = e.RewindTo ∧
      ∃ L ≤ (height.toNat : Int), Conflict c newcfg L ∧ e.RewindTo.toNat = (L - 1).toNat

theorem LoopInv.le {c newcfg : ChainConfig} {height bhead : UInt64}
    {lasterr : Option ConfigCompatError} (h : LoopInv c newcfg height bhead lasterr) :
    bhead.toNat ≤ height.toNat := by
  cases lasterr with
  | none =>
    rw [LoopInv] at h
    rw [h]
  | some e =>
    obtain ⟨rfl, L, hL, -, hr⟩ := h
    omega

/-- Every error the loop returns rewinds to just below the earliest conflict point. -/
theorem checkCompatibleFrom_earliest {c newcfg : ChainConfig} {height : UInt64} {Lmin : Int}
    (hconf : Conflict c newcfg Lmin) (hmin : ∀ m < Lmin, ¬ Conflict c newcfg m)
    {bhead : UInt64} {lasterr : Option ConfigCompatError}
    (hinv : LoopInv c newcfg height bhead lasterr) {err : ConfigCompatError}
    (h : c.checkCompatibleFrom newcfg bhead lasterr = some err) :
    err.RewindTo.toNat = (Lmin - 1).toNat := by
  fun_induction c.checkCompatibleFrom newcfg bhead lasterr with
  | case1 bhead lasterr hrep =>
    -- nothing at or below the last rewind point, so the conflict it reported is the least
    subst h
    obtain ⟨rfl, L, -, hL, hr⟩ := hinv
    have hnone := (checkCompatible_eq_none_iff c newcfg _).mp hrep
    have h1 : Lmin ≤ L := not_lt.mp fun hlt => hmin L hlt hL
    have h2 : ¬ Lmin ≤ (err.RewindTo.toNat : Int) := fun hle => hnone Lmin hle hconf
    omega
  | case2 bhead lasterr e hrep hsame =>
    -- the rewind point repeats only at block 0, below which nothing is checked
    subst h
    obtain ⟨rfl, -⟩ := hinv
    simp only [Option.any_some, beq_iff_eq] at hsame
    obtain ⟨L, hL, hc, hr⟩ := checkCompatible_reports hrep (by have := err.RewindTo.toNat_lt; omega)
    have h1 : Lmin ≤ L := not_lt.mp fun hlt => hmin L hlt hc
    rw [hsame] at hr
    omega
  | case3 bhead lasterr e hrep hsame ih =>
    obtain ⟨L, hL, hc, hr⟩ := checkCompatible_reports hrep (by have := bhead.toNat_lt; omega)
    exact ih ⟨rfl, L, hL.trans (by exact_mod_cast hinv.le), hc, hr⟩ h

/-- `CheckCompatible` finds nothing exactly when its first pass, at the height, finds nothing. -/
theorem checkCompatible_none_iff_no_conflict (c newcfg : ChainConfig) (height : UInt64) :
    c.CheckCompatible newcfg height = none ↔ ∀ m ≤ (height.toNat : Int), ¬ Conflict c newcfg m := by
  rw [← checkCompatible_eq_none_iff, ChainConfig.CheckCompatible, ChainConfig.checkCompatibleFrom]
  split
  · rename_i hrep
    simp [hrep]
  · rename_i err hrep
    simp only [Option.any_none, Bool.false_eq_true, dite_false, hrep, reduceCtorEq, iff_false]
    exact fun h => nomatch checkCompatibleFrom_eq_none h

theorem checkCompatible_finds_earliest_conflict (c newcfg : ChainConfig) (height : UInt64) :
    (c.CheckCompatible newcfg height = none ↔
      ∀ m ≤ (height.toNat : Int), ¬ Conflict c newcfg m) ∧
    ∀ err, c.CheckCompatible newcfg height = some err →
      ∃ L ≤ (height.toNat : Int), Conflict c newcfg L ∧ (∀ m < L, ¬ Conflict c newcfg m) ∧
        err.RewindTo.toNat = (L - 1).toNat := by
  refine ⟨checkCompatible_none_iff_no_conflict c newcfg height, fun err h => ?_⟩
  have hsome : ¬ ∀ m ≤ (height.toNat : Int), ¬ Conflict c newcfg m := fun hno => by
    rw [(checkCompatible_none_iff_no_conflict c newcfg height).mpr hno] at h
    cases h
  simp only [not_forall, not_not] at hsome
  obtain ⟨m, hm, hcm⟩ := hsome
  obtain ⟨L, hLm, hL, hmin⟩ := exists_earliest_conflict hcm
  have hinv : LoopInv c newcfg height height none := rfl
  exact ⟨L, hLm.trans hm, hL, hmin, checkCompatibleFrom_earliest hL hmin hinv h⟩

/-! ### Fork numbers and fork rules -/

/-- The rules the two configurations give block `n` agree: every fork is active in both or in
neither, the DAO support flag agrees once the DAO fork is active, and the chain id agrees once
EIP-155 signing is. -/
def RulesAgree (c newcfg : ChainConfig) (n : Int) : Prop :=
  c.IsHomestead n = newcfg.IsHomestead n ∧ c.IsDAOFork n = newcfg.IsDAOFork n ∧
  (c.IsDAOFork n = true → c.DAOForkSupport = newcfg.DAOForkSupport) ∧
  c.IsEIP150 n = newcfg.IsEIP150 n ∧ c.IsEIP155 n = newcfg.IsEIP155 n ∧
  c.IsEIP158 n = newcfg.IsEIP158 n ∧ c.IsByzantium n = newcfg.IsByzantium n ∧
  c.IsConstantinople n = newcfg.IsConstantinople n ∧ c.IsPetersburg n = newcfg.IsPetersburg n ∧
  c.IsEWASM n = newcfg.IsEWASM n ∧ (c.IsEIP155 n = true → c.ChainID = newcfg.ChainID)

/-- A configuration with no fork scheduled. -/
def noForks : ChainConfig :=
  { ChainID := none, HomesteadBlock := none, DAOForkBlock := none, DAOForkSupport := false,
    EIP150Block := none, EIP155Block := none, EIP158Block := none, ByzantiumBlock := none,
    ConstantinopleBlock := none, PetersburgBlock := none, EWASMBlock := none }

/-- Petersburg left `nil`, so it comes with Constantinople at block 5. -/
def petersburgImplied : ChainConfig := { noForks with ConstantinopleBlock := some 5 }

/-- The same rules, with the Petersburg block written out. -/
def petersburgExplicit : ChainConfig :=
  { noForks with ConstantinopleBlock := some 5, PetersburgBlock := some 5 }

theorem petersburg_conflict_iff (m : Int) :
    Conflict petersburgImplied petersburgExplicit m ↔ 5 ≤ m := by
  simp [Conflict, forkPairs, forkConflict, isForked, petersburgImplied, petersburgExplicit,
    noForks, ChainConfig.IsDAOFork, ChainConfig.IsEIP158]

theorem checkCompatible_petersburg_rewind :
    ∃ err, petersburgImplied.CheckCompatible petersburgExplicit 10 = some err ∧
      err.RewindTo = 4 := by
  obtain ⟨hnone, hsome⟩ := checkCompatible_finds_earliest_conflict petersburgImplied petersburgExplicit 10
  cases h : petersburgImplied.CheckCompatible petersburgExplicit 10 with
  | none => exact absurd ((petersburg_conflict_iff 5).mpr le_rfl) (hnone.mp h 5 (by decide))
  | some err =>
    obtain ⟨L, -, hL, hmin, hr⟩ := hsome err h
    have h5 : 5 ≤ L := (petersburg_conflict_iff L).mp hL
    have hL5 : L = 5 := by
      by_contra hne
      exact hmin 5 (by omega) ((petersburg_conflict_iff 5).mpr le_rfl)
    refine ⟨err, rfl, UInt64.toNat_inj.mp ?_⟩
    rw [hr, hL5]
    rfl

/-- The chain id differs from block 0, where EIP-155 signing starts, but is compared only from
the EIP-158 block. -/
def chainIDStored : ChainConfig :=
  { noForks with ChainID := some 1, EIP155Block := some 0, EIP158Block := some 10 }

def chainIDNew : ChainConfig := { chainIDStored with ChainID := some 2 }

theorem checkCompatible_not_by_rules :
    ((∀ n ≤ (10 : Int), RulesAgree petersburgImplied petersburgExplicit n) ∧
      petersburgImplied.CheckCompatible petersburgExplicit 10 ≠ none) ∧
    (¬ (∀ n ≤ (5 : Int), RulesAgree chainIDStored chainIDNew n) ∧
      chainIDStored.CheckCompatible chainIDNew 5 = none) := by
  refine ⟨⟨fun n _ => ?_, fun h => ?_⟩, fun h => ?_, ?_⟩
  · simp [RulesAgree, petersburgImplied, petersburgExplicit, noForks, ChainConfig.IsHomestead,
      ChainConfig.IsDAOFork, ChainConfig.IsEIP150, ChainConfig.IsEIP155, ChainConfig.IsEIP158,
      ChainConfig.IsByzantium, ChainConfig.IsConstantinople, ChainConfig.IsPetersburg,
      ChainConfig.IsEWASM, isForked]
  · exact (checkCompatible_none_iff_no_conflict _ _ 10).mp h 5 (by decide)
      ((petersburg_conflict_iff 5).mpr le_rfl)
  · have h0 := (h 0 (by decide)).2.2.2.2.2.2.2.2.2.2
    simp [chainIDStored, chainIDNew, noForks, ChainConfig.IsEIP155, isForked] at h0
  · rw [checkCompatible_none_iff_no_conflict]
    intro m hm
    have hm5 : m ≤ 5 := hm
    simp [Conflict, forkPairs, forkConflict, chainIDNew, chainIDStored, noForks,
      ChainConfig.IsDAOFork, ChainConfig.IsEIP158, isForked]
    omega

end Ccmchain.Params
