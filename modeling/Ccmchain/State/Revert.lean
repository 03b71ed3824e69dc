import Ccmchain.State.Methods

/-!
# Reverting to a snapshot

`journal.revert` undoes the entries from the last one down, each as `undo` says, so it walks
back the history the journal records (`journalRevert_ok`, from `UndoLog.forM_undo`). With the
valid revisions sorted, `RevertToSnapshot` finds the revision it is given and goes back to the
view the state had when that revision was taken.

The main theorem follows one revision through any run of calls that does not revert past it:
each setter and getter only logs, a snapshot adds a later revision, and a revert to a later
revision keeps the earlier ones and the views they point to.
-/

namespace Ccmchain.State

open Common EStateM StateDB

/-! ### Reverting one entry -/

section Entry

variable {s : StateDB} {a : Address} {o : StateObject}

/-- The view after an account leaves the live set: the account the trie holds, if any. -/
theorem view_remove (s : StateDB) (a : Address) (dirty : Address → Bool) :
    view { s with stateObjects := Function.update s.stateObjects a none, stateObjectsDirty := dirty } =
      { view s with
        accounts := Function.update (view s).accounts a
          ((s.trie a).map fun d => objectView s.db (newObject a d)) } := by
  ext1
  · funext b
    by_cases hb : b = a
    · subst hb
      simp [view, live, Function.comp_def]
    · simp [view, live, Function.update_of_ne hb]
  all_goals rfl

theorem mapAccount_of_none {v : View} (h : v.accounts a = none) (g : ObjectView → ObjectView) :
    v.mapAccount a g = v := by
  unfold View.mapAccount
  rw [h, Option.map_none, ← h, Function.update_eq_self]

/-- Writing back the live object changed so that its view changes by `g`. -/
theorem revert_put (hwf : WF s) (h : live s a = some o) (o' : StateObject)
    (hd' : o'.deleted = false) (ha' : o'.address = o.address) {g : ObjectView → ObjectView}
    (hg : objectView s.db o' = g (objectView s.db o)) :
    WF { s with stateObjects := Function.update s.stateObjects a (some o') } ∧
      view { s with stateObjects := Function.update s.stateObjects a (some o') } =
        (view s).mapAccount a g := by
  have hacc : (view s).accounts a = some (objectView s.db o) := by
    rw [accounts_view, h, Option.map_some]
  refine ⟨hwf.put (ha'.trans (hwf.address_of_live h)) hd' s.journal, ?_⟩
  rw [view_put hd' s.journal]
  unfold View.mapAccount
  rw [hacc, Option.map_some, ← hg]

/-- An entry that changes an account is logged while the account is live. -/
theorem live_of_good_isSome (h : ((view s).accounts a).isSome) : ∃ o, live s a = some o := by
  rw [accounts_view, Option.isSome_map] at h
  exact Option.isSome_iff_exists.mp h

/-- The state the revert of an entry leaves when it writes back the object at `a`: the load of
`getStateObject` is overwritten. -/
theorem revert_put_eq (h : live s a = some o) (f : StateObject → StateObject)
    (onNone : StateDBM Unit) :
    (getStateObject a >>= fun r => match r with
      | some obj => writeObject a (f obj)
      | none => onNone) s =
      .ok () { s with stateObjects := Function.update s.stateObjects a (some (f o)) } := by
  rw [bind_of_ok (getStateObject_eq s a), h]
  simp [writeObject, update_loadObjects]

/-- What the revert of an entry does: it keeps the trie, the database and the journal, and
changes the view as `undo` says, from any view where `Good` holds of the entry. -/
theorem revertChange_ok (hwf : WF s) {e : JournalEntry} (hg : Good e (view s)) :
    ∃ t, revertChange e s = .ok () t ∧ t.db = s.db ∧ t.trie = s.trie ∧ t.journal = s.journal ∧
      t.validRevisions = s.validRevisions ∧ t.nextRevisionId = s.nextRevisionId ∧ WF t ∧
      view t = undo s.db s.trie e (view s) := by
  cases e with
  | createObjectChange a =>
    refine ⟨{ s with
      stateObjects := Function.update s.stateObjects a none
      stateObjectsDirty := Function.update s.stateObjectsDirty a false },
      rfl, rfl, rfl, rfl, rfl, rfl, ?_, view_remove s a _⟩
    intro b x hb
    by_cases hba : b = a
    · subst hba
      simp at hb
    · simp only [Function.update_of_ne hba] at hb
      exact hwf b x hb
  | resetObjectChange prev =>
    exact ⟨_, rfl, rfl, rfl, rfl, rfl, rfl, hwf.put rfl hg s.journal,
      view_writeObject s prev.address prev hg⟩
  | suicideChange a prev prevbalance =>
    cases h : live s a with
    | none =>
      -- the account is gone: the Go revert skips it
      have hacc : (view s).accounts a = none := by rw [accounts_view, h, Option.map_none]
      refine ⟨{ s with stateObjects := loadObjects s a }, ?_, rfl, rfl, rfl, rfl, rfl,
        hwf.loadObjects a, ?_⟩
      · simp [revertChange, bind_of_ok (getStateObject_eq s a), h]
      · rw [view_loadObjects]
        exact (mapAccount_of_none hacc _).symm
    | some o =>
      have hd := deleted_of_live h
      obtain ⟨hwf', hv'⟩ := revert_put hwf h ({ o with suicided := prev }.setBalance prevbalance)
        hd rfl (g := fun v => { v with Suicided := prev, Balance := prevbalance }) rfl
      exact ⟨_, revert_put_eq h _ _, rfl, rfl, rfl, rfl, rfl, hwf', hv'⟩
  | touchChange a => exact ⟨s, rfl, rfl, rfl, rfl, rfl, rfl, hwf, rfl⟩
  | balanceChange a prev =>
    obtain ⟨o, h⟩ := live_of_good_isSome hg
    have hd := deleted_of_live h
    obtain ⟨hwf', hv'⟩ := revert_put hwf h (o.setBalance prev) hd rfl
      (g := fun v => { v with Balance := prev }) rfl
    exact ⟨_, revert_put_eq h _ _, rfl, rfl, rfl, rfl, rfl, hwf', hv'⟩
  | nonceChange a prev =>
    obtain ⟨o, h⟩ := live_of_good_isSome hg
    have hd := deleted_of_live h
    obtain ⟨hwf', hv'⟩ := revert_put hwf h (o.setNonce prev) hd rfl
      (g := fun v => { v with Nonce := prev }) rfl
    exact ⟨_, revert_put_eq h _ _, rfl, rfl, rfl, rfl, rfl, hwf', hv'⟩
  | codeChange a prevcode prevhash =>
    obtain ⟨o, h⟩ := live_of_good_isSome hg
    have hd := deleted_of_live h
    obtain ⟨hwf', hv'⟩ := revert_put hwf h (o.setCode prevhash prevcode) hd rfl
      (g := fun v => { v with
        Code := codeView s.db prevcode prevhash
        CodeSize := codeSizeView s.db prevcode prevhash
        CodeHash := prevhash }) rfl
    exact ⟨_, revert_put_eq h _ _, rfl, rfl, rfl, rfl, rfl, hwf', hv'⟩
  | storageChange a key prevalue =>
    obtain ⟨o, h⟩ := live_of_good_isSome hg
    have hd := deleted_of_live h
    obtain ⟨hwf', hv'⟩ := revert_put hwf h (o.setState key prevalue) hd rfl
      (g := fun v => { v with Value := Function.update v.Value key prevalue })
      (objectView_setState _ _ _ _)
    exact ⟨_, revert_put_eq h _ _, rfl, rfl, rfl, rfl, rfl, hwf', hv'⟩
  | refundChange prev =>
    exact ⟨{ s with refund := prev }, rfl, rfl, rfl, rfl, rfl, rfl, hwf, rfl⟩
  | addLogChange txhash =>
    have hne : s.logs txhash ≠ [] := hg
    -- the Go code slices off the last log, and a list of one log becomes empty
    cases hl : s.logs txhash with
    | nil => exact absurd hl hne
    | cons x rest =>
      refine ⟨{ s with
        logs := Function.update s.logs txhash (x :: rest).dropLast
        logSize := s.logSize - 1 }, ?_, rfl, rfl, rfl, rfl, rfl, hwf, ?_⟩
      · cases rest <;> simp [revertChange, hl]
      · ext1 <;> simp [undo, view, live, hl]
  | addPreimageChange hash =>
    exact ⟨{ s with preimages := Function.update s.preimages hash none },
      rfl, rfl, rfl, rfl, rfl, rfl, hwf, rfl⟩

end Entry

/-! ### Reverting the journal -/

/-- What `revert` changes: the view, and the dirty counts. -/
def revertView (s : StateDB) : View × (Address → Int) := (view s, s.journal.dirties)

/-- Undoing an entry: its change, and one dirty mark of its address. -/
def undoEntry (db : Database) (trie : Address → Option Account) (e : JournalEntry)
    (x : View × (Address → Int)) : View × (Address → Int) :=
  (undo db trie e x.1,
    match e.dirtied with
    | some a => Function.update x.2 a (x.2 a - 1)
    | none => x.2)

/-- `t` is `s` with the journal entries, the revisions, the trie and the database kept. -/
structure SameLog (s t : StateDB) : Prop where
  db : t.db = s.db
  trie : t.trie = s.trie
  entries : t.journal.entries = s.journal.entries
  revisions : t.validRevisions = s.validRevisions
  next : t.nextRevisionId = s.nextRevisionId

theorem SameLog.trans {s t u : StateDB} (h₁ : SameLog s t) (h₂ : SameLog t u) : SameLog s u :=
  ⟨h₂.db.trans h₁.db, h₂.trie.trans h₁.trie, h₂.entries.trans h₁.entries,
    h₂.revisions.trans h₁.revisions, h₂.next.trans h₁.next⟩

theorem revertEntry_ok {s : StateDB} (hwf : WF s) {e : JournalEntry} (hg : Good e (view s)) :
    ∃ t, revertEntry e s = .ok () t ∧ SameLog s t ∧ WF t ∧
      revertView t = undoEntry s.db s.trie e (revertView s) := by
  obtain ⟨t, ht, hdb, htrie, hj, hrevs, hnext, hwf', hview⟩ := revertChange_ok hwf hg
  have hsame : SameLog s t := ⟨hdb, htrie, by rw [hj], hrevs, hnext⟩
  unfold revertEntry
  rw [bind_of_ok ht]
  cases hd : e.dirtied with
  | none =>
    refine ⟨t, by simp, hsame, hwf', ?_⟩
    simp [revertView, undoEntry, hd, hview, hj]
  | some a =>
    refine ⟨{ t with
      journal := { t.journal with
        dirties := Function.update t.journal.dirties a (t.journal.dirties a - 1) } },
      by simp, ⟨hdb, htrie, by simp [hj], hrevs, hnext⟩, hwf', Prod.ext hview ?_⟩
    simp [revertView, undoEntry, hd, hj]

/-- The dirty counts along a history: the entries below `i` and the marks on `ripemd`. -/
def dirtiesAt (es : List JournalEntry) (k : Nat) (i : Nat) : Address → Int :=
  fun a => dirtyCount (es.take i) a + if a = ripemd then (k : Int) else 0

theorem records_undoEntry {db : Database} {trie : Address → Option Account}
    {es : List JournalEntry} {h : Nat → View} (hr : UndoLog.Records (undo db trie) es h) (k : Nat) :
    UndoLog.Records (undoEntry db trie) es fun i => (h i, dirtiesAt es k i) := by
  intro i hi
  unfold undoEntry
  rw [hr i hi]
  congr 1
  funext a
  cases hd : es[i].dirtied with
  | none => simp [dirtiesAt, dirtyCount_take_succ hi, hd]
  | some b =>
    by_cases hab : a = b
    · subst hab
      simp [dirtiesAt, dirtyCount_take_succ hi, hd]
      ring
    · simp [dirtiesAt, dirtyCount_take_succ hi, hd, Function.update_of_ne hab, Ne.symm hab]

/-- `journal.revert` to position `n` goes back to the view `h n`, with the dirty counts of the
entries it keeps; with revisions that fit the shorter journal, the invariant holds again. -/
theorem journalRevert_ok {s : StateDB} {h : Nat → View} (hi : Inv s h) {n : Nat}
    (hn : n ≤ s.journal.entries.length) :
    ∃ t, journalRevert n s = .ok () t ∧ t.db = s.db ∧ t.validRevisions = s.validRevisions ∧
      t.nextRevisionId = s.nextRevisionId ∧ t.journal.entries.length = n ∧ view t = h n ∧
      ∀ revs, RevisionsOk revs s.nextRevisionId n → Inv { t with validRevisions := revs } h := by
  obtain ⟨k, hk⟩ := hi.dirties
  have hstart : revertView s = (h s.journal.entries.length, dirtiesAt s.journal.entries k s.journal.entries.length) := by
    rw [hi.current]
    unfold revertView dirtiesAt
    congr 1
    funext a
    rw [hk, List.take_length]
  -- the loop keeps the log and well-formedness, and walks back the extended history
  have hstep : ∀ e t, SameLog s t ∧ WF t → Good e (revertView t).1 →
      ∃ t', revertEntry e t = .ok () t' ∧ (SameLog s t' ∧ WF t') ∧
        revertView t' = undoEntry s.db s.trie e (revertView t) := by
    intro e t hI hg
    obtain ⟨t', ht', hsame', hwf', hv'⟩ := revertEntry_ok hI.2 hg
    refine ⟨t', ht', ⟨hI.1.trans hsame', hwf'⟩, ?_⟩
    rw [hv', hI.1.db, hI.1.trie]
  obtain ⟨t, hrun, ⟨hsame, hwf⟩, hview⟩ :=
    @UndoLog.forM_undo _ _ _ _ _ revertView (fun t => SameLog s t ∧ WF t)
      (fun e x => Good e x.1) revertEntry hstep
      _ _ (records_undoEntry hi.records k) (fun i hi' => hi.good i hi')
      (s.journal.entries.length - n) n (by omega) s
      ⟨⟨rfl, rfl, rfl, rfl, rfl⟩, hi.wf⟩ hstart
  have hlen : (s.journal.entries.take n).length = n := by
    rw [List.length_take]
    omega
  have hv : view t = h n := congrArg Prod.fst hview
  have hd : t.journal.dirties = dirtiesAt s.journal.entries k n := congrArg Prod.snd hview
  refine ⟨{ t with journal := { t.journal with entries := t.journal.entries.take n } }, ?_,
    hsame.db, hsame.revisions, hsame.next, by simp [hsame.entries, hlen], hv, fun revs hrevs => ?_⟩
  · unfold journalRevert
    rw [get_bind_apply, bind_of_ok hrun]
    rfl
  · constructor
    · exact hwf
    · show UndoLog.Records (undo t.db t.trie) (t.journal.entries.take n) h
      rw [hsame.db, hsame.trie, hsame.entries]
      exact hi.records.take n
    · show h (t.journal.entries.take n).length = view t
      rw [hsame.entries, hlen, hv]
    · intro i hi'
      show Good (t.journal.entries.take n)[i] (h (i + 1))
      simp only [hsame.entries, List.getElem_take]
      exact hi.good i _
    · refine ⟨k, fun a => ?_⟩
      show t.journal.dirties a = _
      rw [hd, hsame.entries]
      rfl
    · show RevisionsOk revs t.nextRevisionId (t.journal.entries.take n).length
      rw [hsame.next, hsame.entries, hlen]
      exact hrevs

/-! ### Snapshots -/

theorem snapshot_eq (s : StateDB) :
    Snapshot s = .ok s.nextRevisionId
      { s with
        nextRevisionId := s.nextRevisionId + 1
        validRevisions := s.validRevisions ++
          [({ id := s.nextRevisionId, journalIndex := s.journal.length } : Revision)] } := rfl

theorem Inv.snapshot {s : StateDB} {h : Nat → View} (hi : Inv s h) :
    Inv { s with
      nextRevisionId := s.nextRevisionId + 1
      validRevisions := s.validRevisions ++
        [({ id := s.nextRevisionId, journalIndex := s.journal.length } : Revision)] } h :=
  ⟨hi.wf, hi.records, hi.current, hi.good, hi.dirties, hi.revisions.snapshot⟩

/-- With sorted ids, the binary search finds the position of every valid revision. -/
theorem revisionIndex_getElem {revs : List Revision} {next len : Nat}
    (hr : RevisionsOk revs next len) {j : Nat} (hj : j < revs.length) :
    revisionIndex revs revs[j].id = j := by
  have hsorted := List.pairwise_iff_getElem.mp hr.sorted
  have hget : ∀ i (hi : i < revs.length), revs.getD i ⟨0, 0⟩ = revs[i] := by
    intro i hi
    rw [List.getD_eq_getElem _ _ hi]
  unfold revisionIndex
  rw [BinarySearch.search_eq_iff _ (Nat.le_of_lt hj)]
  · constructor
    · intro m hm
      have := (hsorted m j (by omega) hj hm).1
      simp only [hget m (by omega), decide_eq_false_iff_not, Nat.not_le]
      exact this
    · intro _
      simp only [hget j hj, decide_eq_true_eq, le_refl]
  · -- the ids increase below the length
    intro x y hxy hy hfx
    simp only [hget x (by omega), decide_eq_true_eq] at hfx
    simp only [hget y hy, decide_eq_true_eq]
    rcases Nat.eq_or_lt_of_le hxy with rfl | hlt
    · exact hfx
    · exact Nat.le_trans hfx (Nat.le_of_lt (hsorted x y (by omega) hy hlt).1)

/-- Reverting to a valid revision goes back to the view it points to, and drops it and the
revisions after it. -/
theorem revertToSnapshot_ok {s : StateDB} {h : Nat → View} (hi : Inv s h) {j : Nat}
    (hj : j < s.validRevisions.length) :
    ∃ t, RevertToSnapshot s.validRevisions[j].id s = .ok () t ∧ Inv t h ∧ t.db = s.db ∧
      view t = h s.validRevisions[j].journalIndex ∧ t.validRevisions = s.validRevisions.take j ∧
      t.nextRevisionId = s.nextRevisionId := by
  have hbound := (hi.revisions.bounded _ (List.getElem_mem hj)).2
  obtain ⟨t, hrun, hdb, hrevs, hnext, -, hview, hinv⟩ := journalRevert_ok hi hbound
  refine ⟨{ t with validRevisions := t.validRevisions.take j }, ?_, ?_, hdb, hview, by rw [hrevs],
    hnext⟩
  · unfold RevertToSnapshot
    rw [get_bind_apply, revisionIndex_getElem hi.revisions hj, List.getElem?_eq_getElem hj]
    simp only [ne_eq, not_true_eq_false, ↓reduceIte]
    rw [bind_of_ok hrun]
    rfl
  · rw [hrevs]
    exact hinv _ (hi.revisions.take hj)

/-- A successful revert names a valid revision. -/
theorem revertToSnapshot_valid {s t : StateDB} {revid : Nat}
    (hok : RevertToSnapshot revid s = .ok () t) :
    ∃ j, ∃ hj : j < s.validRevisions.length, s.validRevisions[j].id = revid := by
  unfold RevertToSnapshot at hok
  rw [get_bind_apply] at hok
  cases hr : s.validRevisions[revisionIndex s.validRevisions revid]? with
  | none => simp [hr] at hok
  | some r =>
    obtain ⟨hlt, hget⟩ := List.getElem?_eq_some_iff.mp hr
    by_cases hid : r.id = revid
    · exact ⟨_, hlt, (congrArg Revision.id hget).trans hid⟩
    · simp [hr, hid] at hok

/-! ### Runs of calls -/

/-- A call on the state: a setter, a getter, or a snapshot operation. -/
inductive Op where
  | AddBalance (addr : Address) (amount : Int)
  | SubBalance (addr : Address) (amount : Int)
  | SetBalance (addr : Address) (amount : Int)
  | SetNonce (addr : Address) (nonce : UInt64)
  | SetCode (addr : Address) (code : Bytes)
  | SetState (addr : Address) (key value : Hash)
  | Suicide (addr : Address)
  | CreateAccount (addr : Address)
  | AddRefund (gas : UInt64)
  | SubRefund (gas : UInt64)
  | AddLog (log : Log)
  | AddPreimage (hash : Hash) (preimage : Bytes)
  | Snapshot
  | RevertToSnapshot (revid : Nat)
  | Get {α : Type} (query : Query α)

/-- Make the call, dropping what it returns. -/
def Op.run : Op → StateDBM Unit
  | .AddBalance addr amount => StateDB.AddBalance addr amount
  | .SubBalance addr amount => StateDB.SubBalance addr amount
  | .SetBalance addr amount => StateDB.SetBalance addr amount
  | .SetNonce addr nonce => StateDB.SetNonce addr nonce
  | .SetCode addr code => StateDB.SetCode addr code
  | .SetState addr key value => StateDB.SetState addr key value
  | .Suicide addr => do let _ ← StateDB.Suicide addr
  | .CreateAccount addr => StateDB.CreateAccount addr
  | .AddRefund gas => StateDB.AddRefund gas
  | .SubRefund gas => StateDB.SubRefund gas
  | .AddLog log => StateDB.AddLog log
  | .AddPreimage hash preimage => StateDB.AddPreimage hash preimage
  | .Snapshot => do let _ ← StateDB.Snapshot
  | .RevertToSnapshot revid => StateDB.RevertToSnapshot revid
  | .Get query => do let _ ← query.run

/-- Make the calls in order. -/
def runOps : List Op → StateDBM Unit
  | [] => pure ()
  | op :: ops => do
    op.run
    runOps ops

/-- The states that calls reach from a fresh `StateDB`. -/
def Reachable (s : StateDB) : Prop :=
  ∃ db trie ops, runOps ops (New db trie) = .ok () s

/-- `RevertToSnapshot` appears nowhere in the call, or with an id above `id`. -/
def Op.Above (id : Nat) : Op → Prop
  | .RevertToSnapshot revid => id < revid
  | _ => True

/-- A call other than a snapshot operation only logs. -/
theorem Op.grows {op : Op} {s t : StateDB} (hop : ∀ revid, op ≠ .RevertToSnapshot revid)
    (hs : op ≠ .Snapshot) (h : op.run s = .ok () t) : Grows s t := by
  cases op with
  | AddBalance addr amount =>
    obtain ⟨t', ht', hg⟩ := addBalance_grows s addr amount
    cases ht'.symm.trans h
    exact hg
  | SubBalance addr amount =>
    obtain ⟨t', ht', hg⟩ := subBalance_grows s addr amount
    cases ht'.symm.trans h
    exact hg
  | SetBalance addr amount =>
    obtain ⟨t', ht', hg⟩ := setBalance_grows s addr amount
    cases ht'.symm.trans h
    exact hg
  | SetNonce addr nonce =>
    obtain ⟨t', ht', hg⟩ := setNonce_grows s addr nonce
    cases ht'.symm.trans h
    exact hg
  | SetCode addr code =>
    obtain ⟨t', ht', hg⟩ := setCode_grows s addr code
    cases ht'.symm.trans h
    exact hg
  | SetState addr key value =>
    obtain ⟨t', ht', hg⟩ := setState_grows s addr key value
    cases ht'.symm.trans h
    exact hg
  | Suicide addr =>
    obtain ⟨r, t', ht', hg⟩ := suicide_grows s addr
    have h' : (StateDB.Suicide addr >>= fun _ => pure ()) s = .ok () t := h
    rw [bind_of_ok ht'] at h'
    cases h'
    exact hg
  | CreateAccount addr =>
    obtain ⟨t', ht', hg⟩ := createAccount_grows s addr
    cases ht'.symm.trans h
    exact hg
  | AddRefund gas =>
    obtain ⟨t', ht', hg⟩ := addRefund_grows s gas
    cases ht'.symm.trans h
    exact hg
  | SubRefund gas => exact subRefund_grows s h
  | AddLog log =>
    obtain ⟨t', ht', hg⟩ := addLog_grows s log
    cases ht'.symm.trans h
    exact hg
  | AddPreimage hash preimage =>
    obtain ⟨t', ht', hg⟩ := addPreimage_grows s hash preimage
    cases ht'.symm.trans h
    exact hg
  | Snapshot => exact absurd rfl hs
  | RevertToSnapshot revid => exact absurd rfl (hop revid)
  | Get query =>
    obtain ⟨t', ht', hg⟩ := query_run query s
    have h' : (query.run >>= fun _ => pure ()) s = .ok () t := h
    rw [bind_of_ok ht'] at h'
    cases h'
    exact hg

/-- A call keeps the invariant, with a history that extends the one before it up to the
journal position of every revision it keeps. -/
theorem Op.inv {op : Op} {s t : StateDB} {h : Nat → View} (hi : Inv s h) (hrun : op.run s = .ok () t) :
    ∃ h', Inv t h' ∧ t.db = s.db ∧
      ∀ r ∈ s.validRevisions, (∀ revid, op = .RevertToSnapshot revid → r.id < revid) →
        r ∈ t.validRevisions ∧ h' r.journalIndex = h r.journalIndex := by
  by_cases hs : op = .Snapshot
  · subst hs
    have h' : (StateDB.Snapshot >>= fun _ => pure ()) s = .ok () t := hrun
    rw [bind_of_ok (snapshot_eq s)] at h'
    cases h'
    refine ⟨h, hi.snapshot, rfl, fun r hr _ => ⟨List.mem_append_left _ hr, rfl⟩⟩
  by_cases hr : ∃ revid, op = .RevertToSnapshot revid
  · obtain ⟨revid, rfl⟩ := hr
    obtain ⟨j, hj, rfl⟩ := revertToSnapshot_valid hrun
    obtain ⟨t', ht', hinv, hdb, -, hrevs, -⟩ := revertToSnapshot_ok hi hj
    cases ht'.symm.trans hrun
    refine ⟨h, hinv, hdb, fun r hmem habove => ⟨?_, rfl⟩⟩
    -- a revision with a smaller id sits before position `j`, which the revert keeps
    have hlt := habove _ rfl
    obtain ⟨i, hi', rfl⟩ := List.getElem_of_mem hmem
    have hij : i < j := by
      by_contra hge
      rcases Nat.eq_or_lt_of_le (Nat.le_of_not_lt hge) with heq | hlt'
      · subst heq
        exact Nat.lt_irrefl _ hlt
      · have := (List.pairwise_iff_getElem.mp hi.revisions.sorted j i hj hi' hlt').1
        omega
    rw [hrevs]
    exact List.mem_iff_getElem.mpr ⟨i, by simp [hij, hi'], by simp⟩
  · have hg := Op.grows (fun revid heq => hr ⟨revid, heq⟩) hs hrun
    obtain ⟨h', hi', hagree⟩ := hg.history h hi
    refine ⟨h', hi', hg.db, fun r hmem _ => ⟨hg.revisions ▸ hmem, ?_⟩⟩
    exact hagree _ (hi.revisions.bounded r hmem).2

theorem runOps_inv {ops : List Op} :
    ∀ {s t : StateDB} {h : Nat → View}, Inv s h → runOps ops s = .ok () t →
      ∃ h', Inv t h' ∧ t.db = s.db ∧
        ∀ r ∈ s.validRevisions, (∀ op ∈ ops, ∀ revid, op = .RevertToSnapshot revid → r.id < revid) →
          r ∈ t.validRevisions ∧ h' r.journalIndex = h r.journalIndex := by
  induction ops with
  | nil =>
    intro s t h hi hrun
    cases hrun
    exact ⟨h, hi, rfl, fun r hr _ => ⟨hr, rfl⟩⟩
  | cons op ops ih =>
    intro s t h hi hrun
    obtain ⟨s₁, hrun₁, hrun₂⟩ : ∃ s₁, op.run s = .ok () s₁ ∧ runOps ops s₁ = .ok () t := by
      obtain ⟨u, s₁, h₁, h₂⟩ := bind_eq_ok.mp hrun
      exact ⟨s₁, h₁, h₂⟩
    obtain ⟨h₁, hi₁, hdb₁, hkeep₁⟩ := Op.inv hi hrun₁
    obtain ⟨h₂, hi₂, hdb₂, hkeep₂⟩ := ih hi₁ hrun₂
    refine ⟨h₂, hi₂, hdb₂.trans hdb₁, fun r hr habove => ?_⟩
    obtain ⟨hr₁, hh₁⟩ := hkeep₁ r hr (habove op List.mem_cons_self)
    obtain ⟨hr₂, hh₂⟩ := hkeep₂ r hr₁ fun op' hop' => habove op' (List.mem_cons_of_mem _ hop')
    exact ⟨hr₂, hh₂.trans hh₁⟩

theorem Reachable.inv {s : StateDB} (h : Reachable s) : ∃ h, Inv s h := by
  obtain ⟨db, trie, ops, hrun⟩ := h
  obtain ⟨h', hi, -, -⟩ := runOps_inv (inv_new db trie) hrun
  exact ⟨h', hi⟩

/-- After `id := Snapshot()` and any calls that revert only to later snapshots,
`RevertToSnapshot(id)` succeeds, every getter answers as it did when the snapshot was taken,
and the dirty counts are those of the journal entries left, but for `ripemd`. -/
theorem revertToSnapshot_restores {s₀ s₁ s₂ : StateDB} {id : Nat} {ops : List Op}
    (hreach : Reachable s₀) (hsnap : StateDB.Snapshot s₀ = .ok id s₁)
    (hops : runOps ops s₁ = .ok () s₂)
    (hnest : ∀ revid, Op.RevertToSnapshot revid ∈ ops → id < revid) :
    ∃ s₃, StateDB.RevertToSnapshot id s₂ = .ok () s₃ ∧
      (∀ {α : Type} (q : Query α), ∃ r t₀ t₃, q.run s₀ = .ok r t₀ ∧ q.run s₃ = .ok r t₃) ∧
      ∀ a, a ≠ ripemd → s₃.journal.dirties a = dirtyCount s₃.journal.entries a := by
  obtain ⟨h₀, hi₀⟩ := hreach.inv
  rw [snapshot_eq] at hsnap
  injection hsnap with hid hs₁
  subst hid hs₁
  -- the snapshot's revision, which the calls keep with the view it points to
  have hmem : ({ id := s₀.nextRevisionId, journalIndex := s₀.journal.length } : Revision) ∈
      s₀.validRevisions ++ [({ id := s₀.nextRevisionId, journalIndex := s₀.journal.length } : Revision)] :=
    List.mem_append_right _ (List.mem_singleton_self _)
  obtain ⟨h₂, hi₂, hdb₂, hkeep⟩ := runOps_inv hi₀.snapshot hops
  obtain ⟨hmem₂, hh₂⟩ := hkeep _ hmem fun op hop revid heq => hnest revid (heq ▸ hop)
  obtain ⟨j, hj, hrj⟩ := List.getElem_of_mem hmem₂
  obtain ⟨s₃, hrun, hi₃, hdb₃, hview₃, -, -⟩ := revertToSnapshot_ok hi₂ hj
  rw [hrj] at hrun hview₃
  refine ⟨s₃, hrun, fun q => ?_, fun a ha => ?_⟩
  · obtain ⟨t₀, ht₀, -⟩ := query_run q s₀
    obtain ⟨t₃, ht₃, -⟩ := query_run q s₃
    have hv : view s₃ = view s₀ := by
      rw [hview₃, hh₂]
      exact hi₀.current
    refine ⟨_, t₀, t₃, ht₀, ?_⟩
    rw [ht₃, hv, hdb₃, hdb₂]
  · obtain ⟨k, hk⟩ := hi₃.dirties
    rw [hk a, if_neg ha, add_zero]

theorem revertToSnapshot_restores_fresh :
    ∃ s₁ s₂,
      StateDB.Snapshot (New ⟨fun _ _ => 0, fun _ => [], fun _ => 0⟩ fun _ => none) = .ok 0 s₁ ∧
      runOps [.AddBalance 1 5, .SetState 1 2 7, .Snapshot, .SetNonce 1 3] s₁ = .ok () s₂ ∧
      ∃ s₃, StateDB.RevertToSnapshot 0 s₂ = .ok () s₃ ∧
        (∀ {α : Type} (q : Query α), ∃ r t₀ t₃,
          q.run (New ⟨fun _ _ => 0, fun _ => [], fun _ => 0⟩ fun _ => none) = .ok r t₀ ∧
            q.run s₃ = .ok r t₃) ∧
        ∀ a, a ≠ ripemd → s₃.journal.dirties a = dirtyCount s₃.journal.entries a := by
  have hnest : ∀ revid, Op.RevertToSnapshot revid ∈
      [Op.AddBalance 1 5, .SetState 1 2 7, .Snapshot, .SetNonce 1 3] → 0 < revid := by
    intro revid h
    simp at h
  exact ⟨_, _, rfl, rfl, revertToSnapshot_restores ⟨_, _, [], rfl⟩ rfl rfl hnest⟩

end Ccmchain.State
