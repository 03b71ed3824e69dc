import Ccmchain.State.History

/-!
# What the `StateDB` methods do to the journal

For each method, a lemma computes its result and the state it leaves, and a lemma says that it
only logs (`Grows`): every change it makes to what the getters see is taken back by the entry it
appends. Loading an account into the live set, or a code or a storage value into an object's
cache, is not logged and is not seen by the getters.
-/

namespace Ccmchain.State

open Common EStateM StateDB

/-! ### Loading an account -/

/-- The live set after `getStateObject addr`: the account loaded from the trie if the set does
not hold it. -/
def loadObjects (s : StateDB) (addr : Address) : Address → Option StateObject :=
  match s.stateObjects addr, s.trie addr with
  | none, some data => Function.update s.stateObjects addr (some (newObject addr data))
  | _, _ => s.stateObjects

theorem getStateObject_eq (s : StateDB) (addr : Address) :
    getStateObject addr s = .ok (live s addr) { s with stateObjects := loadObjects s addr } := by
  unfold getStateObject loadObjects live
  cases ho : s.stateObjects addr with
  | some o => simp [ho]
  | none =>
    cases ht : s.trie addr with
    | none => simp [ho, ht]
    | some d => simp [ho, ht, setStateObject, newObject]

section Load

variable {s : StateDB} {a : Address} {o : StateObject}

theorem live_loadObjects (s : StateDB) (a b : Address) :
    live { s with stateObjects := loadObjects s a } b = live s b := by
  unfold loadObjects
  cases ho : s.stateObjects a with
  | some o => rfl
  | none =>
    cases ht : s.trie a with
    | none => rfl
    | some d =>
      by_cases hb : b = a
      · subst hb
        simp [live, ho, ht, newObject]
      · exact live_update_ne s a _ hb

theorem view_loadObjects (s : StateDB) (a : Address) :
    view { s with stateObjects := loadObjects s a } = view s := by
  unfold view
  simp only [live_loadObjects]

theorem WF.loadObjects (hwf : WF s) (a : Address) :
    WF { s with stateObjects := loadObjects s a } := by
  intro b o hb
  unfold State.loadObjects at hb
  cases ho : s.stateObjects a with
  | some o' =>
    simp only [ho] at hb
    exact hwf b o hb
  | none =>
    cases ht : s.trie a with
    | none =>
      simp only [ho, ht] at hb
      exact hwf b o hb
    | some d =>
      simp only [ho, ht] at hb
      by_cases hba : b = a
      · subst hba
        rw [Function.update_self, Option.some.injEq] at hb
        subst hb
        exact ⟨rfl, fun h => by cases h⟩
      · rw [Function.update_of_ne hba] at hb
        exact hwf b o hb

/-- Once loaded, the live object is in the live set. -/
theorem loadObjects_of_live (h : live s a = some o) : loadObjects s a a = some o := by
  unfold live at h
  unfold loadObjects
  cases ho : s.stateObjects a with
  | some o' =>
    rw [ho] at h
    by_cases hd : o'.deleted = true
    · simp [hd] at h
    · simp only [hd, Bool.false_eq_true, ↓reduceIte, Option.some.injEq] at h
      subst h
      exact ho
  | none =>
    rw [ho] at h
    cases ht : s.trie a with
    | none => simp [ht] at h
    | some d =>
      rw [ht, Option.map_some, Option.some.injEq] at h
      simp [h]

theorem deleted_of_live (h : live s a = some o) : o.deleted = false := by
  unfold live at h
  split at h
  · split at h
    · cases h
    · rename_i hd
      cases h
      simpa using hd
  · obtain ⟨d, -, rfl⟩ := Option.map_eq_some_iff.mp h
    rfl

theorem WF.address_of_live (hwf : WF s) (h : live s a = some o) : o.address = a :=
  (hwf.loadObjects a a o (loadObjects_of_live h)).1

theorem WF.trie_of_live (hwf : WF s) (h : live s a = none) : s.trie a = none := by
  unfold live at h
  split at h
  · rename_i o ho
    by_cases hd : o.deleted = true
    · exact (hwf a o ho).2 hd
    · simp [hd] at h
  · exact Option.map_eq_none_iff.mp h

theorem accounts_view (s : StateDB) (a : Address) :
    (view s).accounts a = (live s a).map (objectView s.db) := rfl

theorem getStateObject_grows (s : StateDB) (a : Address) :
    Grows s { s with stateObjects := loadObjects s a } :=
  Grows.objects (view_loadObjects s a) fun hwf => hwf.loadObjects a

theorem objectAt_eq (ho : s.stateObjects a = some o) : objectAt a s = .ok o s := by
  simp [objectAt, ho]

end Load

/-! ### Writing an object back -/

section Put

variable {s : StateDB} {a : Address} {o o' : StateObject}

theorem WF.put (hwf : WF s) (ha : o'.address = a) (hd' : o'.deleted = false) (j : Journal) :
    WF { s with journal := j, stateObjects := Function.update s.stateObjects a (some o') } := by
  intro b x hb
  by_cases hba : b = a
  · subst hba
    simp only [Function.update_self, Option.some.injEq] at hb
    subst hb
    exact ⟨ha, fun h => by rw [hd'] at h; cases h⟩
  · simp only [Function.update_of_ne hba] at hb
    exact hwf b x hb

theorem stateObjects_put (s : StateDB) (a : Address) (o : StateObject) :
    ({ s with stateObjects := Function.update s.stateObjects a (some o) } : StateDB).stateObjects a =
      some o :=
  Function.update_self ..

theorem view_put (hd' : o'.deleted = false) (j : Journal) :
    view { s with journal := j, stateObjects := Function.update s.stateObjects a (some o') } =
      { view s with accounts := Function.update (view s).accounts a (some (objectView s.db o')) } :=
  view_writeObject { s with journal := j } a o' hd'

/-- Undoing a change of the object at `a` that `g` maps back gives the view before it. -/
theorem mapAccount_view_put (ho : s.stateObjects a = some o) (hd : o.deleted = false)
    (hd' : o'.deleted = false) {g : ObjectView → ObjectView}
    (hg : g (objectView s.db o') = objectView s.db o) (j : Journal) :
    (view { s with journal := j, stateObjects := Function.update s.stateObjects a (some o') }).mapAccount
      a g = view s := by
  have hacc : (view s).accounts a = some (objectView s.db o) := by
    rw [accounts_view, live_of_some s a ho hd, Option.map_some]
  rw [view_put hd' j]
  unfold View.mapAccount
  simp only [Function.update_self, Option.map_some, hg, Function.update_idem]
  rw [← hacc, Function.update_eq_self]

/-- Putting back the object at `a` changed in a way the getters do not see. -/
theorem Grows.cache (ho : s.stateObjects a = some o) (hd : o.deleted = false)
    (hd' : o'.deleted = false) (ha : o'.address = o.address)
    (hv : objectView s.db o' = objectView s.db o) :
    Grows s { s with stateObjects := Function.update s.stateObjects a (some o') } := by
  refine Grows.objects ?_ fun hwf => hwf.put (ha.trans (hwf a o ho).1) hd' s.journal
  have h := mapAccount_view_put ho hd hd' (g := id) hv s.journal
  rwa [View.mapAccount_id] at h

/-- Putting back the object at `a` changed in a way that undoing `e` takes back. -/
theorem Grows.put (ho : s.stateObjects a = some o) (hd : o.deleted = false) (o' : StateObject)
    (hd' : o'.deleted = false) (ha : o'.address = o.address) (e : JournalEntry)
    (g : ObjectView → ObjectView) (he : ∀ v, undo s.db s.trie e v = v.mapAccount a g)
    (hgood : ∀ v : View, (v.accounts a).isSome → Good e v)
    (hg : g (objectView s.db o') = objectView s.db o) :
    Grows s { s with
      journal := s.journal.append e
      stateObjects := Function.update s.stateObjects a (some o') } := by
  refine Grows.log rfl rfl rfl rfl rfl (fun hwf => hwf.put (ha.trans (hwf a o ho).1) hd' _)
    (fun _ => (he _).trans (mapAccount_view_put ho hd hd' hg _)) (hgood _ ?_)
  rw [view_put hd']
  simp

end Put

/-! ### Creating an object -/

/-- The object `createObject` puts at `addr`. -/
def freshObject (db : Database) (addr : Address) : StateObject :=
  newObject addr ⟨0, 0, 0, db.emptyCodeHash⟩

@[simp] theorem freshObject_address (db : Database) (addr : Address) :
    (freshObject db addr).address = addr := rfl

/-- The entry `createObject` logs: a creation, or a reset of the live object it replaces. -/
def createEntry (addr : Address) : Option StateObject → JournalEntry
  | none => .createObjectChange addr
  | some prev => .resetObjectChange prev

theorem update_loadObjects (s : StateDB) (a : Address) (x : Option StateObject) :
    Function.update (loadObjects s a) a x = Function.update s.stateObjects a x := by
  unfold loadObjects
  split
  · exact Function.update_idem _ _ _
  · rfl

theorem createObject_eq (s : StateDB) (a : Address) :
    createObject a s = .ok (freshObject s.db a, live s a)
      { s with
        journal := s.journal.append (createEntry a (live s a))
        stateObjects := Function.update s.stateObjects a (some (freshObject s.db a)) } := by
  unfold createObject
  rw [bind_of_ok (getStateObject_eq s a)]
  cases h : live s a <;>
    simp [createEntry, appendJournal, setStateObject, freshObject, update_loadObjects]

section Create

variable {s : StateDB} {a : Address}

theorem good_createEntry (s : StateDB) (a : Address) (v : View) :
    Good (createEntry a (live s a)) v := by
  cases h : live s a with
  | none => trivial
  | some o => exact deleted_of_live h

/-- Undoing the creation takes the account back to the one `getStateObject` found, or to none:
a missing account is missing from the trie too. -/
theorem undo_createEntry (hwf : WF s) {x : StateObject} (hx : x.deleted = false) (j : Journal) :
    undo s.db s.trie (createEntry a (live s a))
      (view { s with journal := j, stateObjects := Function.update s.stateObjects a (some x) }) =
      view s := by
  rw [view_put hx j]
  have hacc := accounts_view s a
  cases h : live s a with
  | none =>
    rw [h, Option.map_none] at hacc
    simp only [createEntry, undo, hwf.trie_of_live h, Option.map_none, Function.update_idem]
    rw [← hacc, Function.update_eq_self]
  | some o =>
    rw [h, Option.map_some] at hacc
    simp only [createEntry, undo, hwf.address_of_live h, Function.update_idem]
    rw [← hacc, Function.update_eq_self]

/-- A new object at `a`, logged by `createEntry`. -/
theorem Grows.create (x : StateObject) (ha : x.address = a) (hx : x.deleted = false) :
    Grows s { s with
      journal := s.journal.append (createEntry a (live s a))
      stateObjects := Function.update s.stateObjects a (some x) } :=
  Grows.log rfl rfl rfl rfl rfl (fun hwf => hwf.put ha hx _) (fun hwf => undo_createEntry hwf hx _)
    (good_createEntry s a _)

end Create

theorem getOrNewStateObject_grows (s : StateDB) (a : Address) :
    ∃ o t, GetOrNewStateObject a s = .ok o t ∧ Grows s t ∧ t.stateObjects a = some o ∧
      o.deleted = false := by
  cases h : live s a with
  | some o =>
    have hd := deleted_of_live h
    refine ⟨o, _, ?_, getStateObject_grows s a, loadObjects_of_live h, hd⟩
    simp [GetOrNewStateObject, bind_of_ok (getStateObject_eq s a), h, hd]
  | none =>
    have hl : live { s with stateObjects := loadObjects s a } a = none := by
      rw [live_loadObjects, h]
    refine ⟨_, _, ?_, (getStateObject_grows s a).trans (Grows.create (freshObject s.db a) rfl rfl),
      Function.update_self .., rfl⟩
    simp [GetOrNewStateObject, bind_of_ok (getStateObject_eq s a), h, createObject_eq, hl]

theorem createAccount_grows (s : StateDB) (a : Address) :
    ∃ t, CreateAccount a s = .ok () t ∧ Grows s t := by
  cases h : live s a with
  | none =>
    refine ⟨_, ?_, h ▸ Grows.create (freshObject s.db a) rfl rfl⟩
    simp [CreateAccount, bind_of_ok (createObject_eq s a), h]
  | some prev =>
    refine ⟨_, ?_, h ▸ Grows.create ((freshObject s.db a).setBalance prev.data.Balance) rfl rfl⟩
    simp [CreateAccount, bind_of_ok (createObject_eq s a), h, writeObject]

/-! ### Methods of `stateObject` -/

section Object

variable {s : StateDB} {a : Address} {o : StateObject}

theorem touch_grows (s : StateDB) (a : Address) : ∃ t, touch a s = .ok () t ∧ Grows s t := by
  have hlog : Grows s { s with journal := s.journal.append (.touchChange a) } :=
    Grows.log rfl rfl rfl rfl rfl id (fun _ => rfl) trivial
  by_cases ha : a = ripemd
  · refine ⟨_, ?_, hlog.trans (Grows.dirty_ripemd _)⟩
    simp [touch, appendJournal, ha]
  · exact ⟨_, by simp [touch, appendJournal, ha], hlog⟩

theorem setBalanceObj_grows (ho : s.stateObjects a = some o) (hd : o.deleted = false)
    (amount : Int) : ∃ t, SetBalanceObj a amount s = .ok () t ∧ Grows s t :=
  ⟨_, by simp [SetBalanceObj, bind_of_ok (objectAt_eq ho), appendJournal, writeObject],
    Grows.put ho hd (o.setBalance amount) hd rfl (.balanceChange a o.data.Balance) _
      (fun _ => rfl) (fun _ hv => hv) rfl⟩

theorem addBalanceObj_grows (ho : s.stateObjects a = some o) (hd : o.deleted = false)
    (amount : Int) : ∃ t, AddBalanceObj a amount s = .ok () t ∧ Grows s t := by
  by_cases h0 : amount = 0
  · by_cases he : o.empty s.db.emptyCodeHash = true
    · obtain ⟨t, ht, hg⟩ := touch_grows s a
      exact ⟨t, by simp [AddBalanceObj, bind_of_ok (objectAt_eq ho), h0, he, ht], hg⟩
    · exact ⟨s, by simp [AddBalanceObj, bind_of_ok (objectAt_eq ho), h0, he], Grows.refl s⟩
  · obtain ⟨t, ht, hg⟩ := setBalanceObj_grows ho hd (o.data.Balance + amount)
    exact ⟨t, by simp [AddBalanceObj, bind_of_ok (objectAt_eq ho), h0, ht], hg⟩

theorem subBalanceObj_grows (ho : s.stateObjects a = some o) (hd : o.deleted = false)
    (amount : Int) : ∃ t, SubBalanceObj a amount s = .ok () t ∧ Grows s t := by
  by_cases h0 : amount = 0
  · exact ⟨s, by simp [SubBalanceObj, h0], Grows.refl s⟩
  · obtain ⟨t, ht, hg⟩ := setBalanceObj_grows ho hd (o.data.Balance - amount)
    exact ⟨t, by simp [SubBalanceObj, bind_of_ok (objectAt_eq ho), h0, ht], hg⟩

theorem setNonceObj_grows (ho : s.stateObjects a = some o) (hd : o.deleted = false)
    (nonce : UInt64) : ∃ t, SetNonceObj a nonce s = .ok () t ∧ Grows s t :=
  ⟨_, by simp [SetNonceObj, bind_of_ok (objectAt_eq ho), appendJournal, writeObject],
    Grows.put ho hd (o.setNonce nonce) hd rfl (.nonceChange a o.data.Nonce) _
      (fun _ => rfl) (fun _ hv => hv) rfl⟩

/-- The object `CodeObj` leaves: its code loaded from the database, unless it is set already or
the code hash is that of the empty code. -/
def withCode (db : Database) (o : StateObject) : StateObject :=
  match o.code with
  | some _ => o
  | none =>
    if o.data.CodeHash = db.emptyCodeHash then o
    else { o with code := some (db.code o.data.CodeHash) }

theorem withCode_fields (db : Database) (o : StateObject) :
    (withCode db o).data = o.data ∧ (withCode db o).address = o.address ∧
      (withCode db o).deleted = o.deleted := by
  unfold withCode
  split
  · exact ⟨rfl, rfl, rfl⟩
  · split <;> exact ⟨rfl, rfl, rfl⟩

theorem objectView_withCode (db : Database) (o : StateObject) :
    objectView db (withCode db o) = objectView db o := by
  unfold withCode
  split
  · rfl
  · rename_i hc
    split
    · rfl
    · rename_i he
      simp [objectView, codeView, codeSizeView, hc, he]

/-- The put back of an unchanged object leaves the state as it is. -/
theorem put_self (ho : s.stateObjects a = some o) :
    { s with stateObjects := Function.update s.stateObjects a (some o) } = s := by
  rw [← ho, Function.update_eq_self]

theorem codeObj_eq (ho : s.stateObjects a = some o) :
    CodeObj a s = .ok (withCode s.db o).code
      { s with stateObjects := Function.update s.stateObjects a (some (withCode s.db o)) } := by
  unfold CodeObj withCode
  rw [bind_of_ok (objectAt_eq ho)]
  cases hc : o.code with
  | some c => simp [hc, put_self ho]
  | none =>
    by_cases he : o.data.CodeHash = s.db.emptyCodeHash
    · simp [hc, he, put_self ho]
    · simp [he, writeObject]

theorem Grows.withCode (ho : s.stateObjects a = some o) (hd : o.deleted = false) :
    Grows s { s with stateObjects := Function.update s.stateObjects a (some (withCode s.db o)) } :=
  Grows.cache ho hd ((withCode_fields s.db o).2.2.trans hd) (withCode_fields s.db o).2.1
    (objectView_withCode s.db o)

theorem setCodeObj_grows (ho : s.stateObjects a = some o) (hd : o.deleted = false)
    (codeHash : Hash) (code : Option Bytes) :
    ∃ t, SetCodeObj a codeHash code s = .ok () t ∧ Grows s t := by
  have ho₁ := stateObjects_put s a (withCode s.db o)
  have hd₁ : (withCode s.db o).deleted = false := (withCode_fields s.db o).2.2.trans hd
  refine ⟨_, ?_, (Grows.withCode ho hd).trans
    (Grows.put ho₁ hd₁ ((withCode s.db o).setCode codeHash code) hd₁ rfl
      (.codeChange a (withCode s.db o).code (withCode s.db o).data.CodeHash) _
      (fun _ => rfl) (fun _ hv => hv) rfl)⟩
  simp [SetCodeObj, bind_of_ok (codeObj_eq ho), bind_of_ok (objectAt_eq ho₁), appendJournal,
    writeObject]

/-- The object `GetCommittedState` leaves: the original value of `key` kept. -/
def cacheOrigin (db : Database) (o : StateObject) (key : Hash) : StateObject :=
  match o.originStorage key with
  | some _ => o
  | none =>
    { o with
      originStorage := Function.update o.originStorage key (some (db.storageAt o.data.Root key)) }

/-- The object `GetState` leaves: the original value of `key` kept, unless it is dirty. -/
def cacheValue (db : Database) (o : StateObject) (key : Hash) : StateObject :=
  match o.dirtyStorage key with
  | some _ => o
  | none => cacheOrigin db o key

theorem cacheOrigin_fields (db : Database) (o : StateObject) (key : Hash) :
    (cacheOrigin db o key).address = o.address ∧ (cacheOrigin db o key).deleted = o.deleted := by
  unfold cacheOrigin
  split <;> exact ⟨rfl, rfl⟩

theorem objectView_cacheOrigin (db : Database) (o : StateObject) (key : Hash) :
    objectView db (cacheOrigin db o key) = objectView db o := by
  unfold cacheOrigin
  split
  · rfl
  · rename_i hk
    exact objectView_cacheOrigin_of_none db o hk

theorem cacheValue_fields (db : Database) (o : StateObject) (key : Hash) :
    (cacheValue db o key).address = o.address ∧ (cacheValue db o key).deleted = o.deleted := by
  unfold cacheValue
  split
  · exact ⟨rfl, rfl⟩
  · exact cacheOrigin_fields db o key

theorem objectView_cacheValue (db : Database) (o : StateObject) (key : Hash) :
    objectView db (cacheValue db o key) = objectView db o := by
  unfold cacheValue
  split
  · rfl
  · exact objectView_cacheOrigin db o key

theorem getCommittedStateObj_eq (ho : s.stateObjects a = some o) (key : Hash) :
    GetCommittedStateObj a key s = .ok ((objectView s.db o).Committed key)
      { s with stateObjects := Function.update s.stateObjects a (some (cacheOrigin s.db o key)) } := by
  unfold GetCommittedStateObj cacheOrigin
  rw [bind_of_ok (objectAt_eq ho)]
  cases hk : o.originStorage key with
  | some v => simp [hk, put_self ho, objectView]
  | none => simp [hk, writeObject, objectView]

theorem getStateObj_eq (ho : s.stateObjects a = some o) (key : Hash) :
    GetStateObj a key s = .ok ((objectView s.db o).Value key)
      { s with stateObjects := Function.update s.stateObjects a (some (cacheValue s.db o key)) } := by
  unfold GetStateObj cacheValue
  rw [bind_of_ok (objectAt_eq ho)]
  cases hk : o.dirtyStorage key with
  | some v => simp [hk, put_self ho, objectView]
  | none =>
    show GetCommittedStateObj a key s = _
    rw [getCommittedStateObj_eq ho key]
    simp [hk, objectView]

theorem Grows.cacheOrigin (ho : s.stateObjects a = some o) (hd : o.deleted = false) (key : Hash) :
    Grows s { s with stateObjects := Function.update s.stateObjects a (some (cacheOrigin s.db o key)) } :=
  Grows.cache ho hd ((cacheOrigin_fields s.db o key).2.trans hd) (cacheOrigin_fields s.db o key).1
    (objectView_cacheOrigin s.db o key)

theorem Grows.cacheValue (ho : s.stateObjects a = some o) (hd : o.deleted = false) (key : Hash) :
    Grows s { s with stateObjects := Function.update s.stateObjects a (some (cacheValue s.db o key)) } :=
  Grows.cache ho hd ((cacheValue_fields s.db o key).2.trans hd) (cacheValue_fields s.db o key).1
    (objectView_cacheValue s.db o key)

theorem setStateObj_grows (ho : s.stateObjects a = some o) (hd : o.deleted = false)
    (key value : Hash) : ∃ t, SetStateObj a key value s = .ok () t ∧ Grows s t := by
  have ho₁ := stateObjects_put s a (cacheValue s.db o key)
  have hd₁ : (cacheValue s.db o key).deleted = false := (cacheValue_fields s.db o key).2.trans hd
  by_cases hv : (objectView s.db o).Value key = value
  · exact ⟨_, by simp [SetStateObj, bind_of_ok (getStateObj_eq ho key), hv], Grows.cacheValue ho hd key⟩
  -- the value before is the one the cached object shows, which the entry logs
  have hprev : (objectView s.db (cacheValue s.db o key)).Value key = (objectView s.db o).Value key := by
    rw [objectView_cacheValue]
  refine ⟨_, ?_, (Grows.cacheValue ho hd key).trans
    (Grows.put ho₁ hd₁ ((cacheValue s.db o key).setState key value) hd₁ rfl
      (.storageChange a key ((objectView s.db o).Value key)) _ (fun _ => rfl) (fun _ hv => hv) ?_)⟩
  · simp [SetStateObj, bind_of_ok (getStateObj_eq ho key), hv, appendJournal, objectAt,
      writeObject]
  · rw [objectView_setState, ← hprev]
    ext1 <;> try rfl
    simp

end Object

/-! ### Setters -/

section Setters

variable (s : StateDB) (a : Address)

theorem addBalance_grows (amount : Int) : ∃ t, AddBalance a amount s = .ok () t ∧ Grows s t := by
  obtain ⟨o, s₁, h₁, hg₁, ho, hd⟩ := getOrNewStateObject_grows s a
  obtain ⟨t, h₂, hg₂⟩ := addBalanceObj_grows ho hd amount
  exact ⟨t, by rw [AddBalance, bind_of_ok h₁]; exact h₂, hg₁.trans hg₂⟩

theorem subBalance_grows (amount : Int) : ∃ t, SubBalance a amount s = .ok () t ∧ Grows s t := by
  obtain ⟨o, s₁, h₁, hg₁, ho, hd⟩ := getOrNewStateObject_grows s a
  obtain ⟨t, h₂, hg₂⟩ := subBalanceObj_grows ho hd amount
  exact ⟨t, by rw [SubBalance, bind_of_ok h₁]; exact h₂, hg₁.trans hg₂⟩

theorem setBalance_grows (amount : Int) : ∃ t, SetBalance a amount s = .ok () t ∧ Grows s t := by
  obtain ⟨o, s₁, h₁, hg₁, ho, hd⟩ := getOrNewStateObject_grows s a
  obtain ⟨t, h₂, hg₂⟩ := setBalanceObj_grows ho hd amount
  exact ⟨t, by rw [SetBalance, bind_of_ok h₁]; exact h₂, hg₁.trans hg₂⟩

theorem setNonce_grows (nonce : UInt64) : ∃ t, SetNonce a nonce s = .ok () t ∧ Grows s t := by
  obtain ⟨o, s₁, h₁, hg₁, ho, hd⟩ := getOrNewStateObject_grows s a
  obtain ⟨t, h₂, hg₂⟩ := setNonceObj_grows ho hd nonce
  exact ⟨t, by rw [SetNonce, bind_of_ok h₁]; exact h₂, hg₁.trans hg₂⟩

theorem setCode_grows (code : Bytes) : ∃ t, SetCode a code s = .ok () t ∧ Grows s t := by
  obtain ⟨o, s₁, h₁, hg₁, ho, hd⟩ := getOrNewStateObject_grows s a
  obtain ⟨t, h₂, hg₂⟩ := setCodeObj_grows ho hd (s₁.db.keccak code) (some code)
  exact ⟨t, by rw [SetCode, bind_of_ok h₁, get_bind_apply]; exact h₂, hg₁.trans hg₂⟩

theorem setState_grows (key value : Hash) : ∃ t, SetState a key value s = .ok () t ∧ Grows s t := by
  obtain ⟨o, s₁, h₁, hg₁, ho, hd⟩ := getOrNewStateObject_grows s a
  obtain ⟨t, h₂, hg₂⟩ := setStateObj_grows ho hd key value
  exact ⟨t, by rw [SetState, bind_of_ok h₁]; exact h₂, hg₁.trans hg₂⟩

theorem suicide_grows : ∃ r t, Suicide a s = .ok r t ∧ Grows s t := by
  cases h : live s a with
  | none =>
    exact ⟨false, _, by simp [Suicide, bind_of_ok (getStateObject_eq s a), h],
      getStateObject_grows s a⟩
  | some o =>
    have ho := loadObjects_of_live h
    have hd := deleted_of_live h
    refine ⟨true, _, ?_, (getStateObject_grows s a).trans
      (Grows.put (s := { s with stateObjects := loadObjects s a }) ho hd
        (o.markSuicided.setBalance 0) hd rfl (.suicideChange a o.suicided o.data.Balance) _
        (fun _ => rfl) (fun _ _ => trivial) rfl)⟩
    simp [Suicide, bind_of_ok (getStateObject_eq s a), h, appendJournal, writeObject]

theorem addRefund_grows (gas : UInt64) : ∃ t, AddRefund gas s = .ok () t ∧ Grows s t := by
  refine ⟨_, rfl, ?_⟩
  exact Grows.log rfl rfl rfl rfl rfl id (fun _ => rfl) trivial

/-- `SubRefund` logs the counter before it checks it. -/
theorem subRefund_eq (gas : UInt64) :
    SubRefund gas s =
      if gas > s.refund then
        .error "Refund counter below zero" { s with journal := s.journal.append (.refundChange s.refund) }
      else
        .ok () { s with
          journal := s.journal.append (.refundChange s.refund)
          refund := s.refund - gas } := by
  unfold SubRefund
  by_cases hg : gas > s.refund <;> simp [appendJournal, hg]

theorem subRefund_grows {gas : UInt64} {t : StateDB} (h : SubRefund gas s = .ok () t) :
    Grows s t := by
  rw [subRefund_eq] at h
  split at h
  · cases h
  · cases h
    exact Grows.log rfl rfl rfl rfl rfl id (fun _ => rfl) trivial

/-- The log `AddLog` keeps: stamped with the transaction, the block and its index. -/
def stampedLog (s : StateDB) (log : Log) : Log :=
  { log with TxHash := s.thash, BlockHash := s.bhash, TxIndex := s.txIndex, Index := s.logSize }

theorem addLog_eq (log : Log) :
    AddLog log s = .ok ()
      { s with
        journal := s.journal.append (.addLogChange s.thash)
        logs := Function.update s.logs s.thash (s.logs s.thash ++ [stampedLog s log])
        logSize := s.logSize + 1 } := rfl

theorem addLog_grows (log : Log) : ∃ t, AddLog log s = .ok () t ∧ Grows s t := by
  refine ⟨_, addLog_eq s log, Grows.log rfl rfl rfl rfl rfl id (fun _ => ?_) ?_⟩
  · ext1
    · rfl
    · rfl
    · simp [undo, view]
    · simp [undo, view]
    · rfl
  · simp [Good, view]

theorem addPreimage_grows (hash : Hash) (preimage : Bytes) :
    ∃ t, AddPreimage hash preimage s = .ok () t ∧ Grows s t := by
  by_cases hp : s.preimages hash = none
  · have heq : AddPreimage hash preimage s = .ok ()
        { s with
          journal := s.journal.append (.addPreimageChange hash)
          preimages := Function.update s.preimages hash (some preimage) } := by
      simp [AddPreimage, appendJournal, hp]
    refine ⟨_, heq, Grows.log rfl rfl rfl rfl rfl id (fun _ => ?_) trivial⟩
    ext1
    all_goals try rfl
    simp only [undo, view, Function.update_idem]
    rw [← hp, Function.update_eq_self]
  · exact ⟨s, by simp [AddPreimage, hp], Grows.refl s⟩

end Setters

/-! ### Getters -/

/-- The getters, each with the type of what it returns. -/
inductive Query : Type → Type where
  | Exist (addr : Address) : Query Bool
  | Empty (addr : Address) : Query Bool
  | GetBalance (addr : Address) : Query Int
  | GetNonce (addr : Address) : Query UInt64
  | GetCode (addr : Address) : Query Bytes
  | GetCodeSize (addr : Address) : Query Nat
  | GetCodeHash (addr : Address) : Query Hash
  | GetState (addr : Address) (hash : Hash) : Query Hash
  | GetCommittedState (addr : Address) (hash : Hash) : Query Hash
  | HasSuicided (addr : Address) : Query Bool
  | GetRefund : Query UInt64
  | GetLogs (hash : Hash) : Query (List Log)
  | Preimages : Query (Hash → Option Bytes)

namespace Query

/-- Call the getter. -/
def run {α : Type} : Query α → StateDBM α
  | .Exist addr => StateDB.Exist addr
  | .Empty addr => StateDB.Empty addr
  | .GetBalance addr => StateDB.GetBalance addr
  | .GetNonce addr => StateDB.GetNonce addr
  | .GetCode addr => StateDB.GetCode addr
  | .GetCodeSize addr => StateDB.GetCodeSize addr
  | .GetCodeHash addr => StateDB.GetCodeHash addr
  | .GetState addr hash => StateDB.GetState addr hash
  | .GetCommittedState addr hash => StateDB.GetCommittedState addr hash
  | .HasSuicided addr => StateDB.HasSuicided addr
  | .GetRefund => StateDB.GetRefund
  | .GetLogs hash => StateDB.GetLogs hash
  | .Preimages => StateDB.Preimages

/-- What the getter answers, read off the view. -/
def answer {α : Type} (db : Database) (v : View) : Query α → α
  | .Exist addr => (v.accounts addr).isSome
  | .Empty addr =>
    match v.accounts addr with
    | none => true
    | some o => o.Nonce = 0 && o.Balance = 0 && o.CodeHash = db.emptyCodeHash
  | .GetBalance addr => ((v.accounts addr).map ObjectView.Balance).getD 0
  | .GetNonce addr => ((v.accounts addr).map ObjectView.Nonce).getD 0
  | .GetCode addr => ((v.accounts addr).map ObjectView.Code).getD []
  | .GetCodeSize addr => ((v.accounts addr).map ObjectView.CodeSize).getD 0
  | .GetCodeHash addr => ((v.accounts addr).map ObjectView.CodeHash).getD 0
  | .GetState addr hash => ((v.accounts addr).map fun o => o.Value hash).getD 0
  | .GetCommittedState addr hash => ((v.accounts addr).map fun o => o.Committed hash).getD 0
  | .HasSuicided addr => ((v.accounts addr).map ObjectView.Suicided).getD false
  | .GetRefund => v.refund
  | .GetLogs hash => v.logs hash
  | .Preimages => v.preimages

end Query

theorem code_withCode (db : Database) (o : StateObject) :
    (withCode db o).code.getD [] = codeView db o.code o.data.CodeHash := by
  unfold withCode codeView
  cases hc : o.code with
  | some c => simp [hc]
  | none =>
    by_cases he : o.data.CodeHash = db.emptyCodeHash
    · simp [hc, he]
    · simp [he]

/-- Every getter answers from the view, and only loads into caches. -/
theorem query_run {α : Type} (q : Query α) (s : StateDB) :
    ∃ t, q.run s = .ok (q.answer s.db (view s)) t ∧ Grows s t := by
  have hload := getStateObject_grows s
  cases q with
  | Exist a =>
    exact ⟨_, by simp [Query.run, Exist, bind_of_ok (getStateObject_eq s a), Query.answer, accounts_view], hload a⟩
  | Empty a =>
    refine ⟨_, ?_, hload a⟩
    cases h : live s a <;>
      simp [Query.run, StateDB.Empty, bind_of_ok (getStateObject_eq s a), Query.answer, accounts_view, h, objectView,
        StateObject.empty]
  | GetBalance a =>
    refine ⟨_, ?_, hload a⟩
    cases h : live s a <;>
      simp [Query.run, GetBalance, bind_of_ok (getStateObject_eq s a), Query.answer, accounts_view, h, objectView]
  | GetNonce a =>
    refine ⟨_, ?_, hload a⟩
    cases h : live s a <;>
      simp [Query.run, GetNonce, bind_of_ok (getStateObject_eq s a), Query.answer, accounts_view, h, objectView]
  | GetCode a =>
    cases h : live s a with
    | none =>
      exact ⟨_, by simp [Query.run, GetCode, bind_of_ok (getStateObject_eq s a), Query.answer, accounts_view, h],
        hload a⟩
    | some o =>
      have ho := loadObjects_of_live h
      refine ⟨_, ?_, (hload a).trans (Grows.withCode (s := { s with stateObjects := loadObjects s a })
        ho (deleted_of_live h))⟩
      simp [Query.run, GetCode, bind_of_ok (getStateObject_eq s a), h, codeObj_eq (s := { s with stateObjects := loadObjects s a }) ho, Query.answer, accounts_view,
        objectView, code_withCode]
  | GetCodeSize a =>
    refine ⟨_, ?_, hload a⟩
    cases h : live s a with
    | none => simp [Query.run, GetCodeSize, bind_of_ok (getStateObject_eq s a), Query.answer, accounts_view, h]
    | some o =>
      cases hc : o.code <;>
        simp [Query.run, GetCodeSize, bind_of_ok (getStateObject_eq s a), Query.answer, accounts_view, h, hc,
          objectView, codeSizeView]
  | GetCodeHash a =>
    refine ⟨_, ?_, hload a⟩
    cases h : live s a <;>
      simp [Query.run, GetCodeHash, bind_of_ok (getStateObject_eq s a), Query.answer, accounts_view, h, objectView]
  | GetState a key =>
    cases h : live s a with
    | none =>
      exact ⟨_, by simp [Query.run, GetState, bind_of_ok (getStateObject_eq s a), Query.answer, accounts_view, h],
        hload a⟩
    | some o =>
      have ho := loadObjects_of_live h
      refine ⟨_, ?_, (hload a).trans (Grows.cacheValue (s := { s with stateObjects := loadObjects s a })
        ho (deleted_of_live h) key)⟩
      simp [Query.run, GetState, bind_of_ok (getStateObject_eq s a), h, getStateObj_eq (s := { s with stateObjects := loadObjects s a }) ho, Query.answer,
        accounts_view]
  | GetCommittedState a key =>
    cases h : live s a with
    | none =>
      exact ⟨_, by simp [Query.run, GetCommittedState, bind_of_ok (getStateObject_eq s a), Query.answer,
        accounts_view, h], hload a⟩
    | some o =>
      have ho := loadObjects_of_live h
      refine ⟨_, ?_, (hload a).trans (Grows.cacheOrigin (s := { s with stateObjects := loadObjects s a })
        ho (deleted_of_live h) key)⟩
      simp [Query.run, GetCommittedState, bind_of_ok (getStateObject_eq s a), h, getCommittedStateObj_eq (s := { s with stateObjects := loadObjects s a }) ho,
        Query.answer, accounts_view]
  | HasSuicided a =>
    refine ⟨_, ?_, hload a⟩
    cases h : live s a <;>
      simp [Query.run, HasSuicided, bind_of_ok (getStateObject_eq s a), Query.answer, accounts_view, h, objectView]
  | GetRefund => exact ⟨s, rfl, Grows.refl s⟩
  | GetLogs hash => exact ⟨s, rfl, Grows.refl s⟩
  | Preimages => exact ⟨s, rfl, Grows.refl s⟩

end Ccmchain.State
