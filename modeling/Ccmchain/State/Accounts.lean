import Ccmchain.State.Methods

/-!
# What the account setters do to balances and nonces

`View.balance` and `View.nonce` are what `GetBalance` and `GetNonce` report. `AddBalance`,
`SubBalance` and `SetNonce` first make sure an object exists (`GetOrNewStateObject`), which
creates an empty one, of balance and nonce zero, exactly where the getters reported zero; they
then change that one account. The getters themselves only load into caches.
-/

namespace Ccmchain.State

open Common EStateM StateDB

/-- The balance `GetBalance` reports. -/
def View.balance (v : View) (a : Address) : Int := ((v.accounts a).map ObjectView.Balance).getD 0

/-- The nonce `GetNonce` reports. -/
def View.nonce (v : View) (a : Address) : UInt64 := ((v.accounts a).map ObjectView.Nonce).getD 0

section Accounts

variable {s t : StateDB} {a : Address} {o : StateObject}

theorem balance_of_accounts {v w : View} {a : Address} {ov : ObjectView}
    (h : w.accounts = Function.update v.accounts a (some ov)) (b : Address) :
    w.balance b = if b = a then ov.Balance else v.balance b := by
  unfold View.balance
  rw [h]
  by_cases hb : b = a
  · subst hb
    simp
  · simp [hb]

theorem nonce_of_accounts {v w : View} {a : Address} {ov : ObjectView}
    (h : w.accounts = Function.update v.accounts a (some ov)) (b : Address) :
    w.nonce b = if b = a then ov.Nonce else v.nonce b := by
  unfold View.nonce
  rw [h]
  by_cases hb : b = a
  · subst hb
    simp
  · simp [hb]

/-- `GetOrNewStateObject` returns the live object at `a`, or a fresh one it puts there; either
way the object carries the balance and nonce the getters reported, and no other account
changes. -/
theorem getOrNew_accounts (s : StateDB) (a : Address) :
    ∃ o t, GetOrNewStateObject a s = .ok o t ∧ t.stateObjects a = some o ∧ o.deleted = false ∧
      t.db = s.db ∧ (view t).accounts = Function.update (view s).accounts a (some (objectView s.db o)) ∧
      o.data.Balance = (view s).balance a ∧ o.data.Nonce = (view s).nonce a := by
  have hacc := accounts_view s a
  cases h : live s a with
  | some o =>
    have hd := deleted_of_live h
    rw [h, Option.map_some] at hacc
    refine ⟨o, { s with stateObjects := loadObjects s a }, ?_, loadObjects_of_live h, hd, rfl, ?_, ?_, ?_⟩
    · simp [GetOrNewStateObject, bind_of_ok (getStateObject_eq s a), h, hd]
    · rw [view_loadObjects, ← hacc, Function.update_eq_self]
    · simp [View.balance, hacc, objectView]
    · simp [View.nonce, hacc, objectView]
  | none =>
    rw [h, Option.map_none] at hacc
    have hl : live { s with stateObjects := loadObjects s a } a = none := by
      rw [live_loadObjects, h]
    refine ⟨freshObject s.db a,
      { s with
        journal := s.journal.append (.createObjectChange a)
        stateObjects := Function.update s.stateObjects a (some (freshObject s.db a)) },
      ?_, Function.update_self .., rfl, rfl, ?_, ?_, ?_⟩
    · simp [GetOrNewStateObject, bind_of_ok (getStateObject_eq s a), h, createObject_eq, hl,
        createEntry, update_loadObjects]
    · rw [view_put rfl]
    · simp [View.balance, hacc, freshObject, newObject]
    · simp [View.nonce, hacc, freshObject, newObject]

theorem setBalanceObj_eq (ho : s.stateObjects a = some o) (x : Int) :
    SetBalanceObj a x s = .ok ()
      { s with
        journal := s.journal.append (.balanceChange a o.data.Balance)
        stateObjects := Function.update s.stateObjects a (some (o.setBalance x)) } := by
  simp [SetBalanceObj, bind_of_ok (objectAt_eq ho), appendJournal, writeObject]

/-- `stateObject.SetBalance` changes the balance of its own account only. -/
theorem accounts_setBalanceObj (ho : s.stateObjects a = some o) (hd : o.deleted = false) {x : Int}
    (h : SetBalanceObj a x s = .ok () t) :
    t.db = s.db ∧ (view t).accounts =
      Function.update (view s).accounts a (some { objectView s.db o with Balance := x }) := by
  rw [setBalanceObj_eq ho] at h
  cases h
  exact ⟨rfl, by rw [view_put (show (o.setBalance x).deleted = false from hd)]; rfl⟩

/-- `stateObject.AddBalance` and `SubBalance` set the balance to `o`'s plus `x`; adding zero only
touches the account. -/
theorem balance_addBalanceObj (ho : s.stateObjects a = some o) (hd : o.deleted = false) {x : Int}
    (h : AddBalanceObj a x s = .ok () t) (b : Address) :
    t.db = s.db ∧ (view t).balance b =
      if b = a then o.data.Balance + x else (view s).balance b := by
  have hacc : (view s).accounts a = some (objectView s.db o) := by
    rw [accounts_view, live_of_some s a ho hd, Option.map_some]
  by_cases h0 : x = 0
  · -- adding zero writes only to the journal
    have hv : t.db = s.db ∧ view t = view s := by
      simp only [AddBalanceObj, bind_of_ok (objectAt_eq ho), h0, if_true] at h
      by_cases he : o.empty s.db.emptyCodeHash = true
      · simp only [get_bind_apply, he, if_true, touch, appendJournal, modify_bind_apply] at h
        split at h <;> cases h <;> exact ⟨rfl, rfl⟩
      · simp only [get_bind_apply, he] at h
        cases h
        exact ⟨rfl, rfl⟩
    refine ⟨hv.1, ?_⟩
    rw [hv.2, h0, Int.add_zero]
    by_cases hb : b = a
    · subst hb
      simp [View.balance, hacc, objectView]
    · simp [hb]
  · simp only [AddBalanceObj, bind_of_ok (objectAt_eq ho), h0, if_false] at h
    obtain ⟨hdb, hv⟩ := accounts_setBalanceObj ho hd h
    exact ⟨hdb, balance_of_accounts hv b⟩

theorem balance_subBalanceObj (ho : s.stateObjects a = some o) (hd : o.deleted = false) {x : Int}
    (h : SubBalanceObj a x s = .ok () t) (b : Address) :
    t.db = s.db ∧ (view t).balance b =
      if b = a then o.data.Balance - x else (view s).balance b := by
  by_cases h0 : x = 0
  · simp only [SubBalanceObj, h0, if_true] at h
    cases h
    refine ⟨rfl, ?_⟩
    by_cases hb : b = a
    · subst hb
      simp [View.balance, accounts_view, live_of_some s b ho hd, objectView, h0]
    · simp [hb]
  · simp only [SubBalanceObj, h0, if_false, bind_of_ok (objectAt_eq ho)] at h
    obtain ⟨hdb, hv⟩ := accounts_setBalanceObj ho hd h
    exact ⟨hdb, balance_of_accounts hv b⟩

/-- `AddBalance` adds `x` to what `GetBalance` reports for `a`, and to no other account. -/
theorem balance_addBalance {x : Int} (h : AddBalance a x s = .ok () t) (b : Address) :
    t.db = s.db ∧ (view t).balance b = (view s).balance b + if b = a then x else 0 := by
  obtain ⟨o, s₁, h₁, ho, hd, hdb, hacc, hbal, -⟩ := getOrNew_accounts s a
  rw [AddBalance, bind_of_ok h₁] at h
  obtain ⟨hdb', hb'⟩ := balance_addBalanceObj ho hd h b
  refine ⟨hdb'.trans hdb, ?_⟩
  rw [hb', balance_of_accounts hacc b]
  by_cases hb : b = a
  · subst hb
    simp [hbal]
  · simp [hb]

/-- `SubBalance` takes `x` from what `GetBalance` reports for `a`, and from no other account. -/
theorem balance_subBalance {x : Int} (h : SubBalance a x s = .ok () t) (b : Address) :
    t.db = s.db ∧ (view t).balance b = (view s).balance b - if b = a then x else 0 := by
  obtain ⟨o, s₁, h₁, ho, hd, hdb, hacc, hbal, -⟩ := getOrNew_accounts s a
  rw [SubBalance, bind_of_ok h₁] at h
  obtain ⟨hdb', hb'⟩ := balance_subBalanceObj ho hd h b
  refine ⟨hdb'.trans hdb, ?_⟩
  rw [hb', balance_of_accounts hacc b]
  by_cases hb : b = a
  · subst hb
    simp [hbal]
  · simp [hb]

theorem setNonceObj_eq (ho : s.stateObjects a = some o) (n : UInt64) :
    SetNonceObj a n s = .ok ()
      { s with
        journal := s.journal.append (.nonceChange a o.data.Nonce)
        stateObjects := Function.update s.stateObjects a (some (o.setNonce n)) } := by
  simp [SetNonceObj, bind_of_ok (objectAt_eq ho), appendJournal, writeObject]

/-- `stateObject.SetNonce` changes the nonce of its own account only. -/
theorem accounts_setNonceObj (ho : s.stateObjects a = some o) (hd : o.deleted = false) {n : UInt64}
    (h : SetNonceObj a n s = .ok () t) :
    t.db = s.db ∧ (view t).accounts =
      Function.update (view s).accounts a (some { objectView s.db o with Nonce := n }) := by
  rw [setNonceObj_eq ho] at h
  cases h
  exact ⟨rfl, by rw [view_put (show (o.setNonce n).deleted = false from hd)]; rfl⟩

/-- `SetNonce` changes no balance, and sets the nonce of its account. -/
theorem accounts_setNonce {n : UInt64} (h : SetNonce a n s = .ok () t) (b : Address) :
    t.db = s.db ∧ (view t).balance b = (view s).balance b ∧
      (view t).nonce b = if b = a then n else (view s).nonce b := by
  obtain ⟨o, s₁, h₁, ho, hd, hdb, hacc, hbal, -⟩ := getOrNew_accounts s a
  rw [SetNonce, bind_of_ok h₁] at h
  obtain ⟨hdb', hv⟩ := accounts_setNonceObj ho hd h
  have hacc' : (view t).accounts =
      Function.update (view s).accounts a (some { objectView s.db o with Nonce := n }) := by
    rw [hv, hacc, Function.update_idem, hdb]
  refine ⟨hdb'.trans hdb, ?_, ?_⟩
  · rw [balance_of_accounts hacc' b]
    by_cases hb : b = a
    · subst hb
      simp [objectView, hbal]
    · simp [hb]
  · rw [nonce_of_accounts hacc' b]

/-! ### The getters a state transition calls -/

theorem getBalance_eq (s : StateDB) (a : Address) :
    GetBalance a s = .ok ((view s).balance a) { s with stateObjects := loadObjects s a } := by
  have hacc := accounts_view s a
  cases h : live s a <;>
    simp [GetBalance, bind_of_ok (getStateObject_eq s a), h, View.balance, hacc, objectView]

theorem getNonce_eq (s : StateDB) (a : Address) :
    GetNonce a s = .ok ((view s).nonce a) { s with stateObjects := loadObjects s a } := by
  have hacc := accounts_view s a
  cases h : live s a <;>
    simp [GetNonce, bind_of_ok (getStateObject_eq s a), h, View.nonce, hacc, objectView]

end Accounts

end Ccmchain.State
