import Mathlib.Data.List.AList
import Mathlib.Data.Finset.Sort
import Ccmchain.Common.Types
import Ccmchain.Lib.Except

/-!
# Clique voting snapshots (`consensus/clique/snapshot.go`, `consensus/clique/clique.go`)

A `Snapshot` is the authorization state at a block: the signers, the recent signers by block
number (a signer may sign only once in every `len(Signers)/2 + 1` blocks), the votes cast and
their tally. `apply` runs a list of headers through `applyHeader`, the body of the Go loop:
checkpoint blocks drop the votes, the oldest recent signer is forgotten, the header's signer must
be authorized and not recent, its previous vote on the header's coinbase is replaced, and a vote
that reaches a majority adds or removes the coinbase as a signer. `verifySeal` checks a header
against the snapshot of its parent; its recent-signer test is written differently from
`applyHeader`'s.

The signature recovery `ecrecover` is a parameter, as is the snapshot `verifySeal` would load: the
snapshot cache, the database and the signature cache are left out. Block numbers are naturals;
the one `uint64` subtraction that can wrap, in `verifySeal`, is computed in `UInt64`.
-/

namespace Ccmchain.Clique

open Common (Address)

/-- The errors of `apply` and `verifySeal`, and `errMissingSignature` of `ecrecover`. -/
inductive CliqueError where
  | unknownBlock
  | invalidVote
  | wrongDifficulty
  | invalidVotingChain
  | unauthorizedSigner
  | recentlySigned
  | missingSignature
  deriving DecidableEq, Repr

/-- `CliqueConfig.Epoch`, which `New` sets to `epochLength` when it is zero. -/
structure CliqueConfig where
  Epoch : Nat
  epoch_pos : 0 < Epoch

/-- What the snapshot code reads of a header: its number, the coinbase voted on, the vote in the
nonce (`BlockNonce`, eight bytes read as a big-endian word) and the difficulty. -/
structure Header where
  Number : Nat
  Coinbase : Address
  Nonce : UInt64
  Difficulty : Nat

/-- `nonceAuthVote`. -/
def nonceAuthVote : UInt64 := 0xFFFFFFFFFFFFFFFF

/-- `nonceDropVote`. -/
def nonceDropVote : UInt64 := 0

/-- `diffInTurn`. -/
def diffInTurn : Nat := 2

/-- `diffNoTurn`. -/
def diffNoTurn : Nat := 1

/-- `Vote`: a signer's vote, cast at a block, on authorizing or dropping an address. -/
structure Vote where
  Signer : Address
  Block : Nat
  Address : Common.Address
  Authorize : Bool
  deriving DecidableEq

/-- `Tally`: the kind of a proposal and the votes for it. -/
structure Tally where
  Authorize : Bool
  Votes : Nat
  deriving DecidableEq

/-- `Snapshot`, without the hash of its block. -/
structure Snapshot where
  Number : Nat
  Signers : Finset Address
  Recents : AList fun _ : Nat => Address
  Votes : List Vote
  Tally : AList fun _ : Address => Tally

/-- `newSnapshot`: the signers of a checkpoint, with no recent signer and no vote. -/
def newSnapshot (number : Nat) (signers : List Address) : Snapshot :=
  ⟨number, signers.toFinset, ∅, [], ∅⟩

namespace Snapshot

variable (s : Snapshot)

/-- `validVote`: a vote to add a non-signer or to drop a signer. -/
def validVote (address : Address) (authorize : Bool) : Bool :=
  let signer := decide (address ∈ s.Signers)
  (signer && !authorize) || (!signer && authorize)

/-- `cast`: count a valid vote into the tally of its address. -/
def cast (address : Address) (authorize : Bool) : Bool × Snapshot :=
  -- Ensure the vote is meaningful
  if !s.validVote address authorize then (false, s)
  else
    match s.Tally.lookup address with
    | some old => (true, { s with Tally := s.Tally.insert address { old with Votes := old.Votes + 1 } })
    | none => (true, { s with Tally := s.Tally.insert address ⟨authorize, 1⟩ })

/-- `uncast`: take a vote back out of the tally, if it was counted there. -/
def uncast (address : Address) (authorize : Bool) : Bool × Snapshot :=
  match s.Tally.lookup address with
  -- If there's no tally, it's a dangling vote, just drop
  | none => (false, s)
  | some tally =>
    -- Ensure we only revert counted votes
    if tally.Authorize ≠ authorize then (false, s)
    else if tally.Votes > 1 then
      (true, { s with Tally := s.Tally.insert address { tally with Votes := tally.Votes - 1 } })
    else (true, { s with Tally := s.Tally.erase address })

/-- `len(snap.Signers)/2 + 1`: the window of blocks in which a signer may sign once. -/
def limit : Nat := s.Signers.card / 2 + 1

/-- The deletion of `Recents[number - limit]`, done when `number >= limit`. -/
def forgetRecent (number : Nat) : Snapshot :=
  if number ≥ s.limit then { s with Recents := s.Recents.erase (number - s.limit) } else s

/-- Whether `signer` is among the values of `Recents`. -/
def recentlySigned (signer : Address) : Bool :=
  s.Recents.entries.any fun e => e.2 == signer

/-- The loop that discards `signer`'s previous vote on `address`: the first such vote is uncast
and removed, and the loop stops (only one vote is allowed). -/
def discardVote (signer address : Address) : Snapshot :=
  match s.Votes.find? (fun v => v.Signer == signer && v.Address == address) with
  | none => s
  | some vote =>
    { (s.uncast vote.Address vote.Authorize).2 with
      Votes := s.Votes.eraseP fun v => v.Signer == signer && v.Address == address }

end Snapshot

/-- The uncasting in the loop that discards the votes a deauthorized `signer` cast: each of
`votes` cast by `signer`, in order, comes out of the tally. -/
def uncastVotesBy (signer : Address) : List Vote → Snapshot → Snapshot
  | [], snap => snap
  | v :: vs, snap =>
    if v.Signer = signer then uncastVotesBy signer vs (snap.uncast v.Address v.Authorize).2
    else uncastVotesBy signer vs snap

namespace Snapshot

variable (s : Snapshot)

/-- The loop that discards the votes a deauthorized `signer` cast: uncast each, and drop them from
the chronological list. -/
def discardVotesBy (signer : Address) : Snapshot :=
  { uncastVotesBy signer s.Votes s with Votes := s.Votes.filter fun v => v.Signer ≠ signer }

/-- The reset of the votes at checkpoint blocks, the first step of the loop of `apply`. -/
def resetVotes (epoch number : Nat) : Snapshot :=
  if number % epoch = 0 then { s with Votes := [], Tally := ∅ } else s

/-- The tallying of the new vote from `signer`: cast it, and record it if it counted. -/
def tallyVote (signer : Address) (number : Nat) (address : Address) (authorize : Bool) :
    Snapshot :=
  let r := s.cast address authorize
  if r.1 then { r.2 with Votes := r.2.Votes ++ [⟨signer, number, address, authorize⟩] } else r.2

/-- The update of the signers once the vote on `address` passed: add or drop `address`, and
forget every vote about it. -/
def passVote (number : Nat) (address : Address) : Snapshot :=
  let tally := (s.Tally.lookup address).getD ⟨false, 0⟩
  if tally.Votes > s.Signers.card / 2 then
    let snap :=
      if tally.Authorize then { s with Signers := insert address s.Signers }
      else
        let snap := { s with Signers := s.Signers.erase address }
        -- Signer list shrunk, delete any leftover recent caches
        let snap := snap.forgetRecent number
        -- Discard any previous votes the deauthorized signer cast
        snap.discardVotesBy address
    -- Discard any previous votes around the just changed account
    { snap with
      Votes := snap.Votes.filter fun v => v.Address ≠ address
      Tally := snap.Tally.erase address }
  else s

end Snapshot

section Apply

variable (config : CliqueConfig) (ecrecover : Header → Except CliqueError Address)

/-- The body of the loop of `apply`, for one header. -/
def applyHeader (snap : Snapshot) (header : Header) : Except CliqueError Snapshot := do
  let number := header.Number
  -- Remove any votes on checkpoint blocks
  let snap := snap.resetVotes config.Epoch number
  -- Delete the oldest signer from the recent list to allow it signing again
  let snap := snap.forgetRecent number
  -- Resolve the authorization key and check against signers
  let signer ← ecrecover header
  if signer ∉ snap.Signers then throw .unauthorizedSigner
  if snap.recentlySigned signer then throw .recentlySigned
  let snap := { snap with Recents := snap.Recents.insert number signer }
  -- Header authorized, discard any previous votes from the signer
  let snap := snap.discardVote signer header.Coinbase
  -- Tally up the new vote from the signer
  let authorize ←
    if header.Nonce = nonceAuthVote then pure true
    else if header.Nonce = nonceDropVote then pure false
    else throw .invalidVote
  -- If the vote passed, update the list of signers
  pure ((snap.tallyVote signer number header.Coinbase authorize).passVote number header.Coinbase)

/-- Consecutive headers: each number one above the one before. -/
def Consecutive : List Header → Bool
  | h₁ :: h₂ :: hs => h₂.Number == h₁.Number + 1 && Consecutive (h₂ :: hs)
  | _ => true

/-- `apply`: the snapshot after the headers, which must follow the snapshot's block one by one. -/
def Snapshot.apply (s : Snapshot) (headers : List Header) : Except CliqueError Snapshot :=
  match headers with
  -- Allow passing in no headers for cleaner code
  | [] => pure s
  | first :: _ =>
    -- Sanity check that the headers can be applied
    if !Consecutive headers then throw .invalidVotingChain
    else if first.Number ≠ s.Number + 1 then throw .invalidVotingChain
    else do
      let snap ← headers.foldlM (applyHeader config ecrecover) s
      pure { snap with Number := s.Number + headers.length }

/-- `signers`: the signers in ascending order, as numbers (`bytes.Compare` of the 20 bytes). -/
def Snapshot.signers (s : Snapshot) : List Nat :=
  (s.Signers.image BitVec.toNat).sort (· ≤ ·)

/-- `inturn`: whether `signer` is the signer in turn at `number`, by its offset in `signers`. -/
def Snapshot.inturn (s : Snapshot) (number : Nat) (signer : Address) : Bool :=
  let signers := s.signers
  number % signers.length == signers.idxOf signer.toNat

/-- The recent-signer test of `verifySeal` for block `number`: `signer` signed a block `seen` with
`seen > number - limit`, the subtraction in `uint64`. -/
def Snapshot.recentlySignedAt (s : Snapshot) (number : Nat) (signer : Address) : Bool :=
  s.Recents.entries.any fun e =>
    e.2 = signer && number.toUInt64 - s.limit.toUInt64 < e.1.toUInt64

/-- `verifySeal`, given the snapshot `c.snapshot` loads for the parent of `header`. -/
def verifySeal (fakeDiff : Bool) (snap : Snapshot) (header : Header) :
    Except CliqueError Unit := do
  -- Verifying the genesis block is not supported
  let number := header.Number
  if number = 0 then throw .unknownBlock
  -- Resolve the authorization key and check against signers
  let signer ← ecrecover header
  if signer ∉ snap.Signers then throw .unauthorizedSigner
  -- Signer is among recents, only fail if the current block doesn't shift it out
  if snap.recentlySignedAt number signer then throw .recentlySigned
  -- Ensure that the difficulty corresponds to the turn-ness of the signer
  if !fakeDiff then
    let inturn := snap.inturn number signer
    if inturn && header.Difficulty ≠ diffInTurn then throw .wrongDifficulty
    if !inturn && header.Difficulty ≠ diffNoTurn then throw .wrongDifficulty
  pure ()

end Apply

/-! ### What each stage changes -/

namespace Snapshot

variable (s : Snapshot)

@[simp] theorem uncast_votes (a : Address) (b : Bool) : (s.uncast a b).2.Votes = s.Votes := by
  unfold uncast; split <;> (try split_ifs) <;> rfl

@[simp] theorem uncast_signers (a : Address) (b : Bool) :
    (s.uncast a b).2.Signers = s.Signers := by
  unfold uncast; split <;> (try split_ifs) <;> rfl

@[simp] theorem uncast_recents (a : Address) (b : Bool) :
    (s.uncast a b).2.Recents = s.Recents := by
  unfold uncast; split <;> (try split_ifs) <;> rfl

@[simp] theorem cast_votes (a : Address) (b : Bool) : (s.cast a b).2.Votes = s.Votes := by
  unfold cast; split_ifs <;> (try split) <;> rfl

@[simp] theorem cast_signers (a : Address) (b : Bool) : (s.cast a b).2.Signers = s.Signers := by
  unfold cast; split_ifs <;> (try split) <;> rfl

@[simp] theorem cast_recents (a : Address) (b : Bool) : (s.cast a b).2.Recents = s.Recents := by
  unfold cast; split_ifs <;> (try split) <;> rfl

/-- `cast` counts exactly the valid votes. -/
@[simp] theorem cast_fst (a : Address) (b : Bool) : (s.cast a b).1 = s.validVote a b := by
  unfold cast; split_ifs with h <;> (try split) <;> simp_all

theorem cast_of_not_valid {a : Address} {b : Bool} (h : s.validVote a b = false) :
    s.cast a b = (false, s) := by
  simp [cast, h]

theorem validVote_iff {a : Address} {b : Bool} : s.validVote a b = true ↔ (b = true ↔ a ∉ s.Signers) := by
  by_cases ha : a ∈ s.Signers <;> cases b <;> simp [validVote, ha]

@[simp] theorem forgetRecent_votes (n : Nat) : (s.forgetRecent n).Votes = s.Votes := by
  unfold forgetRecent; split_ifs <;> rfl

@[simp] theorem forgetRecent_tally (n : Nat) : (s.forgetRecent n).Tally = s.Tally := by
  unfold forgetRecent; split_ifs <;> rfl

@[simp] theorem forgetRecent_signers (n : Nat) : (s.forgetRecent n).Signers = s.Signers := by
  unfold forgetRecent; split_ifs <;> rfl

@[simp] theorem forgetRecent_limit (n : Nat) : (s.forgetRecent n).limit = s.limit := by
  simp [limit]

@[simp] theorem resetVotes_signers (e n : Nat) : (s.resetVotes e n).Signers = s.Signers := by
  unfold resetVotes; split_ifs <;> rfl

@[simp] theorem resetVotes_recents (e n : Nat) : (s.resetVotes e n).Recents = s.Recents := by
  unfold resetVotes; split_ifs <;> rfl

@[simp] theorem discardVote_signers (x c : Address) :
    (s.discardVote x c).Signers = s.Signers := by
  unfold discardVote; split <;> simp

@[simp] theorem discardVote_recents (x c : Address) :
    (s.discardVote x c).Recents = s.Recents := by
  unfold discardVote; split <;> simp

@[simp] theorem tallyVote_signers (x : Address) (n : Nat) (c : Address) (b : Bool) :
    (s.tallyVote x n c b).Signers = s.Signers := by
  unfold tallyVote; dsimp only; split_ifs <;> simp

@[simp] theorem tallyVote_recents (x : Address) (n : Nat) (c : Address) (b : Bool) :
    (s.tallyVote x n c b).Recents = s.Recents := by
  unfold tallyVote; dsimp only; split_ifs <;> simp

end Snapshot

@[simp] theorem uncastVotesBy_votes (c : Address) (vs : List Vote) (s : Snapshot) :
    (uncastVotesBy c vs s).Votes = s.Votes := by
  induction vs generalizing s with
  | nil => rfl
  | cons v vs ih => unfold uncastVotesBy; split_ifs <;> simp [ih]

@[simp] theorem uncastVotesBy_signers (c : Address) (vs : List Vote) (s : Snapshot) :
    (uncastVotesBy c vs s).Signers = s.Signers := by
  induction vs generalizing s with
  | nil => rfl
  | cons v vs ih => unfold uncastVotesBy; split_ifs <;> simp [ih]

@[simp] theorem uncastVotesBy_recents (c : Address) (vs : List Vote) (s : Snapshot) :
    (uncastVotesBy c vs s).Recents = s.Recents := by
  induction vs generalizing s with
  | nil => rfl
  | cons v vs ih => unfold uncastVotesBy; split_ifs <;> simp [ih]

/-! ### The tally against the votes -/

/-- The tally entry of `a` measured against the votes: none exactly when no vote is on `a`,
otherwise the number of votes on `a`, with no vote on `a` of the other kind. -/
def TallyAt (votes : List Vote) (a : Address) : Option Tally → Prop
  | none => votes.countP (fun v => v.Address = a) = 0
  | some t => t.Votes = votes.countP (fun v => v.Address = a) ∧ 0 < t.Votes ∧
      votes.countP (fun v => v.Address = a ∧ v.Authorize ≠ t.Authorize) = 0

/-- The tally is what the votes add up to, address by address. -/
def TallyOk (votes : List Vote) (tally : AList fun _ : Address => Tally) : Prop :=
  ∀ a, TallyAt votes a (tally.lookup a)

section TallyAt

variable {votes l₁ l₂ : List Vote} {a : Address} {t : Tally} {v : Vote}

theorem TallyAt.exists_vote (h : TallyAt votes a (some t)) : ∃ v ∈ votes, v.Address = a := by
  obtain ⟨hv, hpos, -⟩ := h
  obtain ⟨w, hw, hwa⟩ := List.countP_pos_iff.mp (hv ▸ hpos)
  exact ⟨w, hw, of_decide_eq_true hwa⟩

theorem TallyAt.authorize_eq (h : TallyAt votes a (some t)) (hv : v ∈ votes)
    (ha : v.Address = a) : v.Authorize = t.Authorize := by
  have := List.countP_eq_zero.mp h.2.2 v hv
  simp_all

theorem TallyAt.no_vote (h : TallyAt votes a none) (hv : v ∈ votes) : v.Address ≠ a := by
  simpa using List.countP_eq_zero.mp h v hv

theorem tallyAt_append_of_ne (h : v.Address ≠ a) (o : Option Tally) :
    TallyAt (votes ++ [v]) a o ↔ TallyAt votes a o := by
  cases o <;> simp [TallyAt, List.countP_append, h]

theorem tallyAt_erase_of_ne (h : v.Address ≠ a) (o : Option Tally) :
    TallyAt (l₁ ++ v :: l₂) a o ↔ TallyAt (l₁ ++ l₂) a o := by
  cases o <;> simp [TallyAt, List.countP_append, h]

theorem tallyAt_filter_of_ne {c : Address} (h : a ≠ c) (o : Option Tally) :
    TallyAt (votes.filter fun v => v.Address ≠ c) a o ↔ TallyAt votes a o := by
  -- the filter removes no vote on `a`
  have hp : ∀ p : Vote → Bool, (∀ v, p v = true → v.Address = a) →
      (votes.filter fun v => v.Address ≠ c).countP p = votes.countP p := by
    intro p hpa
    rw [List.countP_filter]
    congr 1
    funext v
    by_cases hv : p v
    · simp [hv, hpa v hv, h]
    · simp [hv]
  cases o with
  | none => simp only [TallyAt]; rw [hp _ fun v hv => of_decide_eq_true hv]
  | some t =>
    simp only [TallyAt]
    rw [hp _ fun v hv => of_decide_eq_true hv, hp _ fun v hv => (of_decide_eq_true hv).1]

theorem tallyOk_nil : TallyOk [] ∅ := by
  intro a
  simp [TallyAt]

/-- Casting a vote that agrees with every vote on its address counts it. -/
theorem tallyOk_cast {s : Snapshot} (h : TallyOk s.Votes s.Tally)
    (hvalid : s.validVote a v.Authorize = true) (ha : v.Address = a)
    (hagree : ∀ w ∈ s.Votes, w.Address = a → w.Authorize = v.Authorize) :
    TallyOk (s.Votes ++ [v]) (s.cast a v.Authorize).2.Tally := by
  intro a'
  by_cases ha' : a' = a
  · subst ha'
    have hnone : s.Votes.countP (fun w => w.Address = a' ∧ w.Authorize ≠ v.Authorize) = 0 :=
      List.countP_eq_zero.mpr fun w hw hwa => by
        simp only [decide_eq_true_eq] at hwa
        exact hwa.2 (hagree w hw hwa.1)
    have hcast := h a'
    simp only [Snapshot.cast, hvalid, Bool.not_true]
    cases hl : s.Tally.lookup a' with
    | none =>
      rw [hl] at hcast
      simp_all [TallyAt, List.countP_append]
    | some old =>
      rw [hl] at hcast
      -- an existing tally on `a'` already has the kind of the new vote
      have hkind : v.Authorize = old.Authorize := by
        obtain ⟨w, hw, hwa⟩ := hcast.exists_vote
        rw [← hagree w hw hwa, hcast.authorize_eq hw hwa]
      simp_all [TallyAt, List.countP_append]
  · have hne : (s.cast a v.Authorize).2.Tally.lookup a' = s.Tally.lookup a' := by
      unfold Snapshot.cast; split_ifs <;> (try split) <;> simp [AList.lookup_insert_ne ha']
    rw [hne, tallyAt_append_of_ne (ha ▸ Ne.symm ha')]
    exact h a'

/-- Uncasting a vote that is in the list takes it out of the tally. -/
theorem tallyOk_uncast {s : Snapshot} (h : TallyOk (l₁ ++ v :: l₂) s.Tally) :
    TallyOk (l₁ ++ l₂) (s.uncast v.Address v.Authorize).2.Tally := by
  have hv := h v.Address
  cases hl : s.Tally.lookup v.Address with
  | none =>
    rw [hl] at hv
    exact absurd rfl (hv.no_vote (by simp))
  | some t =>
    rw [hl] at hv
    have hkind : v.Authorize = t.Authorize := hv.authorize_eq (by simp) rfl
    have hcount : t.Votes = (l₁ ++ l₂).countP (fun w => w.Address = v.Address) + 1 := by
      simp [hv.1, List.countP_append]; omega
    intro a'
    by_cases ha' : a' = v.Address
    · subst ha'
      simp only [Snapshot.uncast, hl, hkind, ne_eq, not_true_eq_false, if_false]
      split_ifs with hmany
      · simp only [AList.lookup_insert, TallyAt]
        refine ⟨by omega, by omega, ?_⟩
        have := hv.2.2
        simp_all [List.countP_append]
      · simp only [AList.lookup_erase, TallyAt]
        omega
    · have hne : (s.uncast v.Address v.Authorize).2.Tally.lookup a' = s.Tally.lookup a' := by
        unfold Snapshot.uncast
        split <;> (try split_ifs) <;> simp [AList.lookup_insert_ne ha', AList.lookup_erase_ne ha']
      rw [hne, ← tallyAt_erase_of_ne (Ne.symm ha')]
      exact h a'

/-- Dropping every vote about `c` together with its tally. -/
theorem tallyOk_filter_erase {tally : AList fun _ : Address => Tally} (h : TallyOk votes tally)
    (c : Address) : TallyOk (votes.filter fun v => v.Address ≠ c) (tally.erase c) := by
  intro a'
  by_cases ha' : a' = c
  · subst ha'
    simp [AList.lookup_erase, TallyAt, List.countP_filter]
  · rw [AList.lookup_erase_ne ha', tallyAt_filter_of_ne ha']
    exact h a'

/-- The uncasting loop of a deauthorized signer: the votes left are those it did not cast. The
votes before `rest` are already done, and those of `c` among them already out of the tally. -/
theorem tallyOk_uncastVotesBy (c : Address) (rest pre : List Vote) (snap : Snapshot)
    (h : TallyOk (pre.filter (fun v => v.Signer ≠ c) ++ rest) snap.Tally) :
    TallyOk (pre.filter (fun v => v.Signer ≠ c) ++ rest.filter fun v => v.Signer ≠ c)
      (uncastVotesBy c rest snap).Tally := by
  induction rest generalizing pre snap with
  | nil => simpa [uncastVotesBy] using h
  | cons v vs ih =>
    unfold uncastVotesBy
    by_cases hv : v.Signer = c
    · rw [if_pos hv]
      have := ih (pre ++ [v]) _ (by simpa [List.filter_append, hv] using tallyOk_uncast h)
      simpa [List.filter_append, List.filter_cons, hv] using this
    · rw [if_neg hv]
      have := ih (pre ++ [v]) snap (by simpa [List.filter_append, hv] using h)
      simpa [List.filter_append, List.filter_cons, hv] using this

end TallyAt

/-! ### The votes of a snapshot -/

/-- The part of the invariant about votes: the tally matches them, each signer has at most one
vote per address, every voter is a signer, and every vote is valid for the signers. -/
structure VotesOk (votes : List Vote) (tally : AList fun _ : Address => Tally)
    (signers : Finset Address) : Prop where
  tally : TallyOk votes tally
  one_vote : (votes.map fun v => (v.Signer, v.Address)).Nodup
  signer_mem : ∀ v ∈ votes, v.Signer ∈ signers
  valid : ∀ v ∈ votes, (v.Authorize = true ↔ v.Address ∉ signers)

theorem votesOk_nil (signers : Finset Address) : VotesOk [] ∅ signers :=
  ⟨tallyOk_nil, List.nodup_nil, by simp, by simp⟩

/-- Discarding the previous vote of `x` on `c` leaves no such vote. -/
theorem votesOk_discardVote {s : Snapshot} {signers : Finset Address}
    (h : VotesOk s.Votes s.Tally signers) (x c : Address) :
    VotesOk (s.discardVote x c).Votes (s.discardVote x c).Tally signers ∧
      ∀ v ∈ (s.discardVote x c).Votes, ¬(v.Signer = x ∧ v.Address = c) := by
  unfold Snapshot.discardVote
  split
  · next hf =>
    refine ⟨h, fun v hv hva => ?_⟩
    have := List.find?_eq_none.mp hf v hv
    simp_all
  · next vote hf =>
    obtain ⟨w, l₁, l₂, hpre, hw, hsplit, herase⟩ :=
      List.exists_of_eraseP (List.mem_of_find?_eq_some hf) (List.find?_some hf)
    -- the vote found is the first matching one, the one `eraseP` removes
    have hwv : vote = w := by
      rw [hsplit, List.find?_append, List.find?_eq_none.mpr hpre] at hf
      simp only [Option.none_or, List.find?_cons, hw, Option.some.injEq] at hf
      exact hf.symm
    subst hwv
    simp only [herase]
    obtain ⟨htally, hnodup, hmem, hvalid⟩ := h
    rw [hsplit] at htally hnodup hmem hvalid
    rw [List.map_append, List.map_cons, List.nodup_middle, List.nodup_cons, ← List.map_append]
      at hnodup
    refine ⟨⟨?_, hnodup.2, ?_, ?_⟩, ?_⟩
    · exact tallyOk_uncast htally
    · intro v hv
      exact hmem v (by simp only [List.mem_append, List.mem_cons] at hv ⊢; tauto)
    · intro v hv
      exact hvalid v (by simp only [List.mem_append, List.mem_cons] at hv ⊢; tauto)
    · -- a second vote of `x` on `c` would repeat the pair of the first
      rintro v hv ⟨rfl, rfl⟩
      apply hnodup.1
      simp only [List.mem_map]
      refine ⟨v, hv, ?_⟩
      simp_all

/-- Tallying the vote of the signer `x` on `c`, after its previous vote was discarded. -/
theorem votesOk_tallyVote {s : Snapshot} (h : VotesOk s.Votes s.Tally s.Signers) {x c : Address}
    (hx : x ∈ s.Signers) (hfresh : ∀ v ∈ s.Votes, ¬(v.Signer = x ∧ v.Address = c))
    (n : Nat) (b : Bool) :
    VotesOk (s.tallyVote x n c b).Votes (s.tallyVote x n c b).Tally s.Signers := by
  cases hv : s.validVote c b with
  | false => simpa [Snapshot.tallyVote, s.cast_of_not_valid hv] using h
  | true =>
    have hb := s.validVote_iff.mp hv
    -- every vote on `c` is valid, so of the kind of the new one
    have hagree : ∀ w ∈ s.Votes, w.Address = c → w.Authorize = b := by
      intro w hw hwc
      have := h.valid w hw
      rw [hwc] at this
      cases hwa : w.Authorize <;> cases b <;> simp_all
    simp only [Snapshot.tallyVote, Snapshot.cast_fst, hv, if_true, Snapshot.cast_votes,
      Snapshot.cast_signers]
    refine ⟨tallyOk_cast h.tally hv rfl hagree, ?_, ?_, ?_⟩
    · rw [List.map_append, List.nodup_append]
      refine ⟨h.one_vote, by simp, ?_⟩
      intro p hp q hq h'
      simp only [List.mem_map, List.mem_singleton] at hp hq
      obtain ⟨w, hw, rfl⟩ := hp
      obtain ⟨_, rfl, rfl⟩ := hq
      simp only [Prod.mk.injEq] at h'
      exact hfresh w hw h'
    · intro v hv'
      simp only [List.mem_append, List.mem_singleton] at hv'
      rcases hv' with hv' | rfl
      · exact h.signer_mem v hv'
      · exact hx
    · intro v hv'
      simp only [List.mem_append, List.mem_singleton] at hv'
      rcases hv' with hv' | rfl
      · exact h.valid v hv'
      · exact hb

/-- Dropping the votes about `c` once it changed: the others are valid for the new signers. -/
theorem votesOk_filter_erase {votes : List Vote} {tally : AList fun _ : Address => Tally}
    {signers : Finset Address} {c : Address} (htally : TallyOk votes tally)
    (hnodup : (votes.map fun v => (v.Signer, v.Address)).Nodup)
    (hmem : ∀ v ∈ votes, v.Signer ∈ signers)
    (hvalid : ∀ v ∈ votes, v.Address ≠ c → (v.Authorize = true ↔ v.Address ∉ signers)) :
    VotesOk (votes.filter fun v => v.Address ≠ c) (tally.erase c) signers := by
  refine ⟨tallyOk_filter_erase htally c, ?_, ?_, ?_⟩
  · exact hnodup.sublist (List.filter_sublist.map _)
  · intro v hv
    exact hmem v (List.mem_filter.mp hv).1
  · intro v hv
    have hv := List.mem_filter.mp hv
    exact hvalid v hv.1 (by simpa using hv.2)

theorem votesOk_passVote {s : Snapshot} (h : VotesOk s.Votes s.Tally s.Signers) (n : Nat)
    (c : Address) :
    VotesOk (s.passVote n c).Votes (s.passVote n c).Tally (s.passVote n c).Signers := by
  unfold Snapshot.passVote
  dsimp only
  split_ifs with hpass hauth
  · -- `c` became a signer
    refine votesOk_filter_erase h.tally h.one_vote ?_ ?_
    · exact fun v hv => Finset.mem_insert_of_mem (h.signer_mem v hv)
    · intro v hv hvc
      simpa [Finset.mem_insert, hvc] using h.valid v hv
  · -- `c` was dropped, with the votes it cast
    simp only [Snapshot.discardVotesBy, uncastVotesBy_signers, Snapshot.forgetRecent_signers,
      Snapshot.forgetRecent_votes]
    refine votesOk_filter_erase ?_ (h.one_vote.sublist (List.filter_sublist.map _)) ?_ ?_
    · simpa using tallyOk_uncastVotesBy c s.Votes [] _ (by simpa using h.tally)
    · intro v hv
      have hv := List.mem_filter.mp hv
      exact Finset.mem_erase.mpr ⟨by simpa using hv.2, h.signer_mem v hv.1⟩
    · intro v hv hvc
      simpa [Finset.mem_erase, hvc] using h.valid v (List.mem_filter.mp hv).1
  · exact h

/-! ### The recent signers of a snapshot -/

/-- The part of the invariant about recent signers: no signer is recent at two blocks, and the
blocks remembered are among the last `limit` up to `number`. -/
structure RecentsOk (recents : AList fun _ : Nat => Address) (limit number : Nat) : Prop where
  injective : ∀ k₁ k₂ x, recents.lookup k₁ = some x → recents.lookup k₂ = some x → k₁ = k₂
  window : ∀ k ∈ recents, number - limit < k ∧ k ≤ number

theorem recentsOk_empty (limit number : Nat) : RecentsOk ∅ limit number :=
  ⟨by simp, by simp⟩

namespace Snapshot

variable {s : Snapshot}

theorem recentlySigned_eq_false {x : Address} :
    s.recentlySigned x = false ↔ ∀ k, s.Recents.lookup k ≠ some x := by
  simp only [recentlySigned, List.any_eq_false, beq_iff_eq]
  constructor
  · intro h k hk
    exact h ⟨k, x⟩ (AList.mem_lookup_iff.mp hk) rfl
  · rintro h ⟨k, y⟩ he rfl
    exact h k (AList.mem_lookup_iff.mpr he)

theorem lookup_forgetRecent {n k : Nat} {x : Address}
    (h : (s.forgetRecent n).Recents.lookup k = some x) : s.Recents.lookup k = some x := by
  unfold forgetRecent at h
  split_ifs at h
  · by_cases hk : k = n - s.limit
    · rw [hk, AList.lookup_erase] at h
      cases h
    · rwa [AList.lookup_erase_ne hk] at h
  · exact h

/-- Forgetting the signer of block `number - limit` keeps the window of `limit` blocks, also when
the limit just dropped by one. -/
theorem window_forgetRecent {n L : Nat} (h : ∀ k ∈ s.Recents, n - L < k ∧ k ≤ n)
    (hL : L ≤ s.limit + 1) : ∀ k ∈ (s.forgetRecent n).Recents, n - s.limit < k ∧ k ≤ n := by
  intro k hk
  unfold forgetRecent at hk
  split_ifs at hk with hge
  · rw [AList.mem_erase] at hk
    have := h k hk.2
    omega
  · have := h k hk
    omega

theorem RecentsOk.forgetRecent {n L : Nat} (h : RecentsOk s.Recents L n) (hL : L ≤ s.limit + 1) :
    RecentsOk (s.forgetRecent n).Recents s.limit n :=
  ⟨fun k₁ k₂ x h₁ h₂ => h.injective k₁ k₂ x (lookup_forgetRecent h₁) (lookup_forgetRecent h₂),
    window_forgetRecent h.window hL⟩

end Snapshot

/-- Recording the signer of block `m + 1`, who is not recent. -/
theorem RecentsOk.sign {recents : AList fun _ : Nat => Address} {L m : Nat} {x : Address}
    (h : RecentsOk recents L (m + 1)) (hL : 0 < L) (hfree : ∀ k, recents.lookup k ≠ some x) :
    RecentsOk (recents.insert (m + 1) x) L (m + 1) := by
  -- only the new block has `x` as its signer
  have hx : ∀ k, (recents.insert (m + 1) x).lookup k = some x → k = m + 1 := by
    intro k hk
    by_contra hne
    rw [AList.lookup_insert_ne hne] at hk
    exact hfree k hk
  constructor
  · intro k₁ k₂ y h₁ h₂
    by_cases hy : y = x
    · subst hy
      rw [hx k₁ h₁, hx k₂ h₂]
    · have hne : ∀ k, (recents.insert (m + 1) x).lookup k = some y → k ≠ m + 1 := by
        rintro k hk rfl
        simp [AList.lookup_insert, Ne.symm hy] at hk
      rw [AList.lookup_insert_ne (hne k₁ h₁)] at h₁
      rw [AList.lookup_insert_ne (hne k₂ h₂)] at h₂
      exact h.injective k₁ k₂ y h₁ h₂
  · intro k hk
    rcases (AList.mem_insert _).mp hk with rfl | hk
    · omega
    · exact h.window k hk

theorem Snapshot.limit_pos (s : Snapshot) : 0 < s.limit := by
  simp [Snapshot.limit]

theorem recentsOk_passVote {s : Snapshot} {n : Nat} (h : RecentsOk s.Recents s.limit n)
    (c : Address) : RecentsOk (s.passVote n c).Recents (s.passVote n c).limit n := by
  unfold Snapshot.passVote
  dsimp only
  split_ifs with hpass hauth
  · -- one more signer: the window only widens
    have hcard := Finset.card_le_card (Finset.subset_insert c s.Signers)
    refine ⟨h.injective, fun k hk => ?_⟩
    have := h.window k hk
    simp only [Snapshot.limit] at this ⊢
    omega
  · -- one signer less: the window narrows by at most one block
    have hcard := Finset.pred_card_le_card_erase (s := s.Signers) (a := c)
    have := Snapshot.RecentsOk.forgetRecent (s := { s with Signers := s.Signers.erase c }) h
      (by simp only [Snapshot.limit]; omega)
    simpa [Snapshot.limit, Snapshot.discardVotesBy] using this
  · exact h

/-! ### The invariant over runs of `apply` -/

/-- The invariant of a snapshot whose last applied block is `number`. -/
structure Snapshot.Invariant (s : Snapshot) (number : Nat) : Prop where
  votes : VotesOk s.Votes s.Tally s.Signers
  recents : RecentsOk s.Recents s.limit number

theorem newSnapshot_invariant (number : Nat) (signers : List Address) :
    (newSnapshot number signers).Invariant number :=
  ⟨votesOk_nil _, recentsOk_empty _ _⟩

/-- A window of `limit` blocks up to `m` is one of `limit + 1` blocks up to `m + 1`. -/
theorem RecentsOk.succ {recents : AList fun _ : Nat => Address} {L m : Nat}
    (h : RecentsOk recents L m) : RecentsOk recents (L + 1) (m + 1) := by
  refine ⟨h.injective, fun k hk => ?_⟩
  have := h.window k hk
  omega

section Apply

variable {config : CliqueConfig} {ecrecover : Header → Except CliqueError Address}

/-- A header applies when its signer is recovered, authorized and not recent, and its nonce is a
vote; the snapshot is then the one the stages build. -/
theorem applyHeader_eq_ok {snap snap' : Snapshot} {header : Header}
    (h : applyHeader config ecrecover snap header = .ok snap') :
    ∃ signer authorize, ecrecover header = .ok signer ∧
      let pre := (snap.resetVotes config.Epoch header.Number).forgetRecent header.Number
      signer ∈ snap.Signers ∧ pre.recentlySigned signer = false ∧
      snap' = (({ pre with Recents := pre.Recents.insert header.Number signer }.discardVote signer
        header.Coinbase).tallyVote signer header.Number header.Coinbase authorize).passVote
          header.Number header.Coinbase := by
  unfold applyHeader at h
  cases hr : ecrecover header with
  | error e => simp only [hr, Except.error_bind, reduceCtorEq] at h
  | ok signer =>
    simp only [hr, Except.ok_bind] at h
    split_ifs at h with hmem hrecent hauth hdrop <;>
      simp only [Except.throw_eq_error, Except.error_bind, Except.pure_eq_ok, Except.ok_bind,
        reduceCtorEq, Except.ok.injEq] at h
    · exact ⟨signer, true, rfl, by simpa using hmem, by simpa using hrecent, h.symm⟩
    · exact ⟨signer, false, rfl, by simpa using hmem, by simpa using hrecent, h.symm⟩

/-- One header keeps the invariant, one block further. -/
theorem applyHeader_invariant {snap snap' : Snapshot} {header : Header} {m : Nat}
    (hinv : snap.Invariant m) (hn : header.Number = m + 1)
    (h : applyHeader config ecrecover snap header = .ok snap') : snap'.Invariant (m + 1) := by
  obtain ⟨signer, authorize, -, hmem, hfree, rfl⟩ := applyHeader_eq_ok h
  obtain ⟨n, coinbase, nonce, difficulty⟩ := header
  dsimp only at hn hfree ⊢
  subst hn
  set pre := (snap.resetVotes config.Epoch (m + 1)).forgetRecent (m + 1)
  -- the checkpoint reset and the forgetting of the oldest recent signer
  have hv₀ : VotesOk pre.Votes pre.Tally pre.Signers := by
    simp only [pre, Snapshot.forgetRecent_votes, Snapshot.forgetRecent_tally,
      Snapshot.forgetRecent_signers]
    unfold Snapshot.resetVotes
    split_ifs
    · exact votesOk_nil _
    · exact hinv.votes
  have hr₀ : RecentsOk pre.Recents pre.limit (m + 1) := by
    simp only [pre, Snapshot.forgetRecent_limit]
    exact Snapshot.RecentsOk.forgetRecent (s := snap.resetVotes config.Epoch (m + 1))
      (by simpa [Snapshot.limit] using hinv.recents.succ) (by simp [Snapshot.limit])
  -- the new signer is recorded, its old vote on the coinbase discarded and the new one tallied
  have hr₁ := hr₀.sign pre.limit_pos (Snapshot.recentlySigned_eq_false.mp hfree)
  obtain ⟨hv₂, hfresh⟩ :=
    votesOk_discardVote (s := { pre with Recents := pre.Recents.insert (m + 1) signer }) hv₀
      signer coinbase
  have hv₃ := votesOk_tallyVote (by simpa using hv₂) (by simpa [pre] using hmem) hfresh
    (m + 1) authorize
  exact ⟨votesOk_passVote (by simpa using hv₃) _ _,
    recentsOk_passVote (by simpa [Snapshot.limit] using hr₁) _⟩

/-- A run of headers numbered `m + 1, m + 2, …` keeps the invariant. -/
theorem foldlM_applyHeader_invariant : ∀ (headers : List Header) {snap snap' : Snapshot} {m : Nat},
    headers.map Header.Number = List.range' (m + 1) headers.length → snap.Invariant m →
    headers.foldlM (applyHeader config ecrecover) snap = .ok snap' →
      snap'.Invariant (m + headers.length)
  | [], snap, snap', m, _, hinv, h => by
    simp only [List.foldlM_nil, Except.pure_eq_ok, Except.ok.injEq] at h
    simpa [← h] using hinv
  | header :: headers, snap, snap', m, hnums, hinv, h => by
    simp only [List.map_cons, List.length_cons, List.range'_succ, List.cons.injEq] at hnums
    rw [List.foldlM_cons] at h
    obtain ⟨mid, hmid, hrest⟩ := Except.bind_eq_ok_iff.mp h
    have := foldlM_applyHeader_invariant headers hnums.2 (applyHeader_invariant hinv hnums.1 hmid)
      hrest
    simpa [Nat.add_assoc, Nat.add_comm 1] using this

theorem consecutive_numbers : ∀ {header : Header} {headers : List Header},
    Consecutive (header :: headers) = true →
      (header :: headers).map Header.Number = List.range' header.Number (headers.length + 1)
  | _, [], _ => by simp
  | header, next :: headers, h => by
    simp only [Consecutive, Bool.and_eq_true, beq_iff_eq] at h
    rw [List.map_cons, consecutive_numbers h.2, h.1]
    simp [List.range'_succ]

/-- `apply` keeps the invariant of the snapshot it starts from. -/
theorem Snapshot.apply_invariant {s s' : Snapshot} {headers : List Header}
    (hinv : s.Invariant s.Number) (h : s.apply config ecrecover headers = .ok s') :
    s'.Invariant s'.Number := by
  unfold Snapshot.apply at h
  split at h
  · simp only [Except.pure_eq_ok, Except.ok.injEq] at h
    exact h ▸ hinv
  · next first rest =>
    split_ifs at h with hcons hfirst
    obtain ⟨mid, hmid, h⟩ := Except.bind_eq_ok_iff.mp h
    simp only [Except.pure_eq_ok, Except.ok.injEq] at h
    subst h
    have hnums := consecutive_numbers (by simpa using hcons)
    rw [not_not.mp hfirst] at hnums
    have := foldlM_applyHeader_invariant _ hnums hinv hmid
    exact ⟨this.votes, this.recents⟩

end Apply

/-! ### The snapshot invariant in the words of the snapshot -/

/-- A consistent voting snapshot: the tally of an address exists exactly when a vote is on it,
counts those votes and agrees with each; a signer has at most one vote per address; voters are
signers and every vote is valid; no signer is recent at two blocks; and the recent blocks lie in
the last `len(Signers)/2 + 1` up to `Number`. -/
structure Snapshot.Consistent (s : Snapshot) : Prop where
  tally_isSome : ∀ a, (s.Tally.lookup a).isSome ↔ ∃ v ∈ s.Votes, v.Address = a
  tally_votes : ∀ a t, s.Tally.lookup a = some t →
    t.Votes = s.Votes.countP (fun v => v.Address = a) ∧
      ∀ v ∈ s.Votes, v.Address = a → v.Authorize = t.Authorize
  one_vote : (s.Votes.map fun v => (v.Signer, v.Address)).Nodup
  signer_mem : ∀ v ∈ s.Votes, v.Signer ∈ s.Signers
  valid : ∀ v ∈ s.Votes, s.validVote v.Address v.Authorize = true
  recents_injective : ∀ k₁ k₂ x, s.Recents.lookup k₁ = some x → s.Recents.lookup k₂ = some x →
    k₁ = k₂
  recents_window : ∀ k ∈ s.Recents, s.Number - s.limit < k ∧ k ≤ s.Number

theorem TallyAt.isSome_iff {votes : List Vote} {a : Address} {o : Option Tally}
    (h : TallyAt votes a o) : o.isSome ↔ ∃ v ∈ votes, v.Address = a := by
  cases o with
  | none =>
    simp only [Option.isSome_none, Bool.false_eq_true, false_iff, not_exists, not_and]
    exact fun v hv => h.no_vote hv
  | some t => simpa using h.exists_vote

/-- The tally of one address in the words of the snapshot is its `TallyAt`. -/
theorem tallyAt_of_consistent {votes : List Vote} {a : Address} {o : Option Tally}
    (hsome : o.isSome ↔ ∃ v ∈ votes, v.Address = a)
    (hvotes : ∀ t, o = some t → t.Votes = votes.countP (fun v => v.Address = a) ∧
      ∀ v ∈ votes, v.Address = a → v.Authorize = t.Authorize) : TallyAt votes a o := by
  cases o with
  | none =>
    simp only [Option.isSome_none, Bool.false_eq_true, false_iff, not_exists, not_and] at hsome
    exact List.countP_eq_zero.mpr fun v hv hva => hsome v hv (of_decide_eq_true hva)
  | some t =>
    obtain ⟨hcount, hagree⟩ := hvotes t rfl
    obtain ⟨w, hw, hwa⟩ := hsome.mp rfl
    refine ⟨hcount, ?_, ?_⟩
    · rw [hcount]
      exact List.countP_pos_iff.mpr ⟨w, hw, decide_eq_true hwa⟩
    · exact List.countP_eq_zero.mpr fun v hv hva => by
        simp only [decide_eq_true_eq] at hva
        exact hva.2 (hagree v hv hva.1)

theorem Snapshot.consistent_iff_invariant (s : Snapshot) : s.Consistent ↔ s.Invariant s.Number := by
  constructor
  · intro h
    refine ⟨⟨fun a => tallyAt_of_consistent (h.tally_isSome a) (h.tally_votes a), h.one_vote,
      h.signer_mem, fun v hv => s.validVote_iff.mp (h.valid v hv)⟩,
      ⟨h.recents_injective, h.recents_window⟩⟩
  · intro h
    have htally := h.votes.tally
    exact ⟨fun a => (htally a).isSome_iff,
      fun a t ht => ⟨by have := htally a; rw [ht] at this; exact this.1,
        fun v hv hva => by have := htally a; rw [ht] at this; exact this.authorize_eq hv hva⟩,
      h.votes.one_vote, h.votes.signer_mem, fun v hv => s.validVote_iff.mpr (h.votes.valid v hv),
      h.recents.injective, h.recents.window⟩

section Apply

variable {config : CliqueConfig} {ecrecover : Header → Except CliqueError Address}

/-- `apply` keeps a snapshot consistent. -/
theorem Snapshot.apply_consistent {s s' : Snapshot} {headers : List Header} (hs : s.Consistent)
    (h : s.apply config ecrecover headers = .ok s') : s'.Consistent :=
  s'.consistent_iff_invariant.mpr (apply_invariant (s.consistent_iff_invariant.mp hs) h)

theorem apply_newSnapshot_consistent {number : Nat} {signers : List Address}
    {headers : List Header} {s : Snapshot}
    (h : (newSnapshot number signers).apply config ecrecover headers = .ok s) : s.Consistent :=
  Snapshot.apply_consistent ((Snapshot.consistent_iff_invariant _).mpr
    (newSnapshot_invariant number signers)) h

end Apply

/-- One signer votes a second one in at block 1, which then signs block 2. -/
theorem apply_newSnapshot_consistent_two_signers : ∃ s,
    (newSnapshot 0 [1]).apply ⟨30000, by decide⟩
      (fun header => pure (if header.Number = 1 then 1 else 2))
      [⟨1, 2, nonceAuthVote, 2⟩, ⟨2, 3, nonceAuthVote, 2⟩] = .ok s ∧ s.Consistent := by
  have h : ∃ s, (newSnapshot 0 [1]).apply ⟨30000, by decide⟩
      (fun header => pure (if header.Number = 1 then 1 else 2))
      [⟨1, 2, nonceAuthVote, 2⟩, ⟨2, 3, nonceAuthVote, 2⟩] = .ok s := by
    apply Exists.intro
    with_unfolding_all rfl
  obtain ⟨s, hs⟩ := h
  exact ⟨s, hs, apply_newSnapshot_consistent hs⟩

/-! ### `verifySeal` against `apply` -/

section Seal

variable {ecrecover : Header → Except CliqueError Address}

/-- How `verifySeal` fails: at block 0, in the signature recovery, or in one of its three checks,
each reached only when the ones before it passed. -/
theorem verifySeal_eq_error {fakeDiff : Bool} {snap : Snapshot} {header : Header}
    {e : CliqueError} (h : verifySeal ecrecover fakeDiff snap header = .error e) :
    header.Number = 0 ∧ e = .unknownBlock ∨ ecrecover header = .error e ∨
      ∃ signer, ecrecover header = .ok signer ∧
        (signer ∉ snap.Signers ∧ e = .unauthorizedSigner ∨
          signer ∈ snap.Signers ∧ snap.recentlySignedAt header.Number signer = true ∧
            e = .recentlySigned ∨
          signer ∈ snap.Signers ∧ snap.recentlySignedAt header.Number signer = false ∧
            e = .wrongDifficulty) := by
  unfold verifySeal at h
  by_cases h0 : header.Number = 0
  · simp [h0] at h
    exact .inl ⟨h0, h.symm⟩
  cases hr : ecrecover header with
  | error e' =>
    simp [h0, hr] at h
    exact .inr (.inl (by rw [h]))
  | ok signer =>
    refine .inr (.inr ⟨signer, rfl, ?_⟩)
    simp only [h0, hr, if_false, Except.ok_bind] at h
    -- every branch that throws names its error; the difficulty checks come last
    split_ifs at h with hmem hrecent <;> simp only [Except.throw_eq_error, Except.error_bind,
      Except.pure_eq_ok, reduceCtorEq, Except.error.injEq] at h <;> subst h <;> simp_all

end Seal

/-- Five signers, so that a signer may sign one block in three. Signer 1 signs block 1 and then
block 2: `apply` rejects block 2 as recently signed, while neither signer check of `verifySeal`
rejects it, whatever its difficulty checks do, since `2 - 3` wraps around in `uint64`. -/
theorem verifySeal_accepts_recent_signer : ∃ s,
    (newSnapshot 0 [1, 2, 3, 4, 5]).apply ⟨30000, by decide⟩ (fun _ => pure 1)
      [⟨1, 0, nonceDropVote, 2⟩] = .ok s ∧
    (∀ fakeDiff,
      verifySeal (fun _ => pure 1) fakeDiff s ⟨2, 0, nonceDropVote, 1⟩ ≠ .error .unauthorizedSigner ∧
      verifySeal (fun _ => pure 1) fakeDiff s ⟨2, 0, nonceDropVote, 1⟩ ≠ .error .recentlySigned) ∧
    s.apply ⟨30000, by decide⟩ (fun _ => pure 1) [⟨2, 0, nonceDropVote, 1⟩] =
      .error .recentlySigned := by
  apply Exists.intro
  refine ⟨?_, fun fakeDiff => ⟨fun h => ?_, fun h => ?_⟩, ?_⟩
  · with_unfolding_all rfl
  · rcases verifySeal_eq_error h with ⟨h0, -⟩ | hr | ⟨signer, hr, ⟨hu, -⟩ | ⟨-, -, he⟩ | ⟨-, -, he⟩⟩
    · cases h0
    · cases hr
    · cases hr
      exact hu (by with_unfolding_all decide)
    · cases he
    · cases he
  · rcases verifySeal_eq_error h with ⟨h0, -⟩ | hr | ⟨signer, hr, ⟨-, he⟩ | ⟨-, hrec, -⟩ | ⟨-, -, he⟩⟩
    · cases h0
    · cases hr
    · cases he
    · cases hr
      exact absurd hrec (by with_unfolding_all decide)
    · cases he
  · with_unfolding_all rfl

end Ccmchain.Clique
