import Ccmchain.State.View

/-!
# The history a journal records

`Inv s h` says that `h 0, h 1, …, h n` are the views `s` went through while it logged the `n`
entries of its journal: undoing entry `i` from view `h (i + 1)` gives view `h i`, and the Go
revert of the entry can run there. With it go the facts `revert` and `RevertToSnapshot` read:
the journal counts its dirtied addresses, and the valid revisions are sorted and point into
the journal.

`Grows s t` says that `t` comes from `s` by methods that only log: the journal grows, and every
history of `s` extends to one of `t` that keeps the views it had.
-/

namespace Ccmchain.State

open Common

/-! ### Counting dirtied addresses -/

/-- The entries of `es` that dirtied `a`. -/
def dirtyCount (es : List JournalEntry) (a : Address) : Nat :=
  (es.filter fun e => decide (e.dirtied = some a)).length

theorem dirtyCount_append_singleton (es : List JournalEntry) (e : JournalEntry) (a : Address) :
    dirtyCount (es ++ [e]) a = dirtyCount es a + if e.dirtied = some a then 1 else 0 := by
  unfold dirtyCount
  rw [List.filter_append, List.length_append]
  by_cases he : e.dirtied = some a <;> simp [he]

theorem dirtyCount_take_succ {es : List JournalEntry} {i : Nat} (hi : i < es.length) (a : Address) :
    dirtyCount (es.take (i + 1)) a = dirtyCount (es.take i) a + if es[i].dirtied = some a then 1 else 0 := by
  rw [List.take_succ_eq_append_getElem hi, dirtyCount_append_singleton]

/-- `dirties` holds the count of entries for each address, and for `ripemd` some marks more. -/
def DirtiesCount (j : Journal) : Prop :=
  ∃ k : Nat, ∀ a, j.dirties a = dirtyCount j.entries a + if a = ripemd then (k : Int) else 0

theorem dirtiesCount_newJournal : DirtiesCount Journal.newJournal :=
  ⟨0, fun a => by simp [Journal.newJournal, dirtyCount]⟩

@[simp] theorem Journal.dirties_append (j : Journal) (e : JournalEntry) :
    (j.append e).dirties = match e.dirtied with
      | some addr => Journal.bump j.dirties addr
      | none => j.dirties := rfl

theorem Journal.bump_apply (d : Address → Int) (addr a : Address) :
    Journal.bump d addr a = d a + if a = addr then 1 else 0 := by
  unfold Journal.bump
  by_cases ha : a = addr
  · subst ha
    simp
  · simp [ha]

theorem DirtiesCount.append {j : Journal} (hj : DirtiesCount j) (e : JournalEntry) :
    DirtiesCount (j.append e) := by
  obtain ⟨k, hk⟩ := hj
  refine ⟨k, fun a => ?_⟩
  rw [Journal.entries_append, dirtyCount_append_singleton, Journal.dirties_append]
  cases hd : e.dirtied with
  | none => simp [hk]
  | some b =>
    show Journal.bump j.dirties b a = _
    rw [Journal.bump_apply, hk]
    by_cases hab : a = b
    · subst hab
      simp only [↓reduceIte]
      push_cast
      ring
    · simp [hab, Ne.symm hab]

/-- `dirty` marks `ripemd` once more. -/
theorem DirtiesCount.dirty_ripemd {j : Journal} (hj : DirtiesCount j) :
    DirtiesCount (j.dirty ripemd) := by
  obtain ⟨k, hk⟩ := hj
  refine ⟨k + 1, fun a => ?_⟩
  rw [Journal.entries_dirty]
  show Journal.bump j.dirties ripemd a = _
  rw [Journal.bump_apply, hk]
  by_cases ha : a = ripemd
  · simp only [ha, ↓reduceIte]
    push_cast
    ring
  · simp [ha]

/-! ### Valid revisions -/

/-- The valid revisions have increasing ids below `next`, and increasing journal indices up to
the length `len` of the journal. -/
structure RevisionsOk (revs : List Revision) (next len : Nat) : Prop where
  sorted : revs.Pairwise fun r r' => r.id < r'.id ∧ r.journalIndex ≤ r'.journalIndex
  bounded : ∀ r ∈ revs, r.id < next ∧ r.journalIndex ≤ len

theorem RevisionsOk.mono {revs : List Revision} {next len len' : Nat}
    (hr : RevisionsOk revs next len) (hle : len ≤ len') : RevisionsOk revs next len' where
  sorted := hr.sorted
  bounded := by
    intro r hmem
    have := hr.bounded r hmem
    omega

/-- `Snapshot` adds a revision with the next id at the end of the journal. -/
theorem RevisionsOk.snapshot {revs : List Revision} {next len : Nat}
    (hr : RevisionsOk revs next len) :
    RevisionsOk (revs ++ [({ id := next, journalIndex := len } : Revision)]) (next + 1) len where
  sorted := by
    rw [List.pairwise_append]
    refine ⟨hr.sorted, List.pairwise_singleton _ _, ?_⟩
    intro r hr' r' hr''
    rw [List.mem_singleton] at hr''
    subst hr''
    have := hr.bounded r hr'
    exact ⟨this.1, this.2⟩
  bounded := by
    intro r hmem
    rw [List.mem_append, List.mem_singleton] at hmem
    rcases hmem with hmem | rfl
    · have := hr.bounded r hmem
      omega
    · exact ⟨Nat.lt_succ_self _, Nat.le_refl _⟩

/-- Dropping the revisions from position `idx` on, and the journal after the index of the
revision at `idx`. -/
theorem RevisionsOk.take {revs : List Revision} {next len idx : Nat}
    (hr : RevisionsOk revs next len) (hidx : idx < revs.length) :
    RevisionsOk (revs.take idx) next revs[idx].journalIndex where
  sorted := hr.sorted.sublist (List.take_sublist _ _)
  bounded := by
    intro r hmem
    obtain ⟨j, hj, rfl⟩ := List.getElem_of_mem hmem
    rw [List.length_take] at hj
    rw [List.getElem_take]
    have hlt : j < idx := by omega
    have hpair := List.pairwise_iff_getElem.mp hr.sorted j idx (by omega) hidx hlt
    exact ⟨(hr.bounded _ (List.getElem_mem _)).1, hpair.2⟩

/-! ### The invariant -/

/-- `h` is a history of the journal of `s`, and the journal and the revisions are consistent. -/
structure Inv (s : StateDB) (h : Nat → View) : Prop where
  wf : WF s
  records : UndoLog.Records (undo s.db s.trie) s.journal.entries h
  current : h s.journal.entries.length = view s
  good : ∀ i (hi : i < s.journal.entries.length), Good s.journal.entries[i] (h (i + 1))
  dirties : DirtiesCount s.journal
  revisions : RevisionsOk s.validRevisions s.nextRevisionId s.journal.entries.length

/-- A fresh `StateDB` has an empty journal, whose only view is the current one. -/
theorem inv_new (db : Database) (trie : Address → Option Account) :
    Inv (StateDB.New db trie) fun _ => view (StateDB.New db trie) where
  wf := by
    intro a o ho
    cases ho
  records := UndoLog.Records.nil _
  current := rfl
  good := by
    intro i hi
    cases hi
  dirties := dirtiesCount_newJournal
  revisions := ⟨List.Pairwise.nil, fun r hr => by cases hr⟩

section Log

variable {s t : StateDB} {h : Nat → View} {e : JournalEntry}

/-- Logging `e` while going from `s` to `t`, where undoing `e` from the view of `t` gives that
of `s`, extends the history by the view of `t`. -/
theorem Inv.log (hi : Inv s h) (hdb : t.db = s.db) (htrie : t.trie = s.trie)
    (hj : t.journal = s.journal.append e) (hrevs : t.validRevisions = s.validRevisions)
    (hnext : t.nextRevisionId = s.nextRevisionId) (hwf : WF t)
    (hundo : undo s.db s.trie e (view t) = view s) (hgood : Good e (view t)) :
    Inv t (Function.update h (s.journal.entries.length + 1) (view t)) := by
  have hent : t.journal.entries = s.journal.entries ++ [e] := by rw [hj, Journal.entries_append]
  have hlen : t.journal.entries.length = s.journal.entries.length + 1 := by simp [hent]
  constructor
  · exact hwf
  · rw [hdb, htrie, hent]
    exact hi.records.append (hundo.trans hi.current.symm)
  · rw [hlen, Function.update_self]
  · intro i hlt
    rw [hlen] at hlt
    by_cases hold : i < s.journal.entries.length
    · have hget : t.journal.entries[i] = s.journal.entries[i] := by
        simp only [hent, List.getElem_append_left hold]
      rw [hget, Function.update_of_ne (by omega)]
      exact hi.good i hold
    · obtain rfl : i = s.journal.entries.length := by omega
      have hget : t.journal.entries[s.journal.entries.length] = e := by
        simp only [hent, List.getElem_append_right (Nat.le_refl _), Nat.sub_self,
          List.getElem_cons_zero]
      rw [hget, Function.update_self]
      exact hgood
  · rw [hj]
    exact hi.dirties.append e
  · rw [hrevs, hnext, hlen]
    exact hi.revisions.mono (Nat.le_succ _)

end Log

/-! ### States that only log -/

/-- `t` comes from `s` by logging: the trie, the database and the revisions stay, the journal
grows, and every history of `s` extends to one of `t` that keeps its views up to the length of
the journal of `s`. -/
structure Grows (s t : StateDB) : Prop where
  db : t.db = s.db
  trie : t.trie = s.trie
  revisions : t.validRevisions = s.validRevisions
  next : t.nextRevisionId = s.nextRevisionId
  length : s.journal.entries.length ≤ t.journal.entries.length
  history : ∀ h, Inv s h → ∃ h', Inv t h' ∧ ∀ i ≤ s.journal.entries.length, h' i = h i

namespace Grows

theorem refl (s : StateDB) : Grows s s :=
  ⟨rfl, rfl, rfl, rfl, Nat.le_refl _, fun h hi => ⟨h, hi, fun _ _ => rfl⟩⟩

theorem trans {s t u : StateDB} (h₁ : Grows s t) (h₂ : Grows t u) : Grows s u where
  db := h₂.db.trans h₁.db
  trie := h₂.trie.trans h₁.trie
  revisions := h₂.revisions.trans h₁.revisions
  next := h₂.next.trans h₁.next
  length := h₁.length.trans h₂.length
  history := by
    intro h hi
    obtain ⟨h', hi', hh'⟩ := h₁.history h hi
    obtain ⟨h'', hi'', hh''⟩ := h₂.history h' hi'
    refine ⟨h'', hi'', fun i hle => ?_⟩
    rw [hh'' i (hle.trans h₁.length), hh' i hle]

/-- A change of the live set that the getters do not see, such as loading an account or a
storage value into a cache. -/
theorem objects {s : StateDB} {objs : Address → Option StateObject}
    (hview : view { s with stateObjects := objs } = view s)
    (hwf : WF s → WF { s with stateObjects := objs }) :
    Grows s { s with stateObjects := objs } := by
  refine ⟨rfl, rfl, rfl, rfl, Nat.le_refl _, fun h hi => ⟨h, ?_, fun _ _ => rfl⟩⟩
  exact ⟨hwf hi.wf, hi.records, hi.current.trans hview.symm, hi.good, hi.dirties, hi.revisions⟩

/-- A change logged by `e`, which undoing `e` takes back in a well-formed state. -/
theorem log {s t : StateDB} {e : JournalEntry} (hdb : t.db = s.db) (htrie : t.trie = s.trie)
    (hj : t.journal = s.journal.append e) (hrevs : t.validRevisions = s.validRevisions)
    (hnext : t.nextRevisionId = s.nextRevisionId) (hwf : WF s → WF t)
    (hundo : WF s → undo s.db s.trie e (view t) = view s) (hgood : Good e (view t)) :
    Grows s t := by
  refine ⟨hdb, htrie, hrevs, hnext, by simp [hj], fun h hi => ?_⟩
  refine ⟨_, hi.log hdb htrie hj hrevs hnext (hwf hi.wf) (hundo hi.wf) hgood, fun i hle => ?_⟩
  exact Function.update_of_ne (by omega) _ _

/-- The extra mark `dirty` puts on `ripemd`. -/
theorem dirty_ripemd (s : StateDB) :
    Grows s { s with journal := s.journal.dirty ripemd } := by
  refine ⟨rfl, rfl, rfl, rfl, Nat.le_refl _, fun h hi => ⟨h, ?_, fun _ _ => rfl⟩⟩
  exact ⟨hi.wf, hi.records, hi.current, hi.good, hi.dirties.dirty_ripemd, hi.revisions⟩

end Grows

end Ccmchain.State
