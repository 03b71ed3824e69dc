import Ccmchain.State.StateDB
import Ccmchain.Lib.UndoLog

/-!
# What the getters of `StateDB` observe

`view s` collects everything the getters return: for each address the account `getStateObject`
finds (its nonce, balance, code hash, code, suicide flag, and the current and original value of
each storage slot), the refund counter, the logs, the log count and the preimages. Loading an
account or a storage value into a cache leaves the view as it is.

`undo` says what reverting a journal entry does to the view, and `Good` when the Go revert of the
entry can run without a nil object or an empty log list.
-/

namespace Ccmchain.State

open Common EStateM StateDB

/-- The code `stateObject.Code` returns for a code field and a code hash, `nil` read as empty. -/
def codeView (db : Database) (code : Option Bytes) (codeHash : Hash) : Bytes :=
  match code with
  | some c => c
  | none => if codeHash = db.emptyCodeHash then [] else db.code codeHash

/-- The size `GetCodeSize` reports: that of the code set or loaded before, else of the code the
database holds for the hash. -/
def codeSizeView (db : Database) (code : Option Bytes) (codeHash : Hash) : Nat :=
  match code with
  | some c => c.length
  | none => (db.code codeHash).length

/-- What the getters see of one account. -/
@[ext] structure ObjectView where
  Nonce : UInt64
  Balance : Int
  CodeHash : Hash
  Code : Bytes
  CodeSize : Nat
  Suicided : Bool
  Value : Hash → Hash
  Committed : Hash → Hash

/-- The view of a state object. -/
def objectView (db : Database) (o : StateObject) : ObjectView where
  Nonce := o.data.Nonce
  Balance := o.data.Balance
  CodeHash := o.data.CodeHash
  Code := codeView db o.code o.data.CodeHash
  CodeSize := codeSizeView db o.code o.data.CodeHash
  Suicided := o.suicided
  Value := fun k => (o.dirtyStorage k).getD ((o.originStorage k).getD (db.storageAt o.data.Root k))
  Committed := fun k => (o.originStorage k).getD (db.storageAt o.data.Root k)

/-- The object `getStateObject` finds at `addr`, loaded or not. -/
def live (s : StateDB) (addr : Address) : Option StateObject :=
  match s.stateObjects addr with
  | some o => if o.deleted then none else some o
  | none => (s.trie addr).map (newObject addr)

/-- Everything the getters observe. -/
@[ext] structure View where
  accounts : Address → Option ObjectView
  refund : UInt64
  logs : Hash → List Log
  logSize : UInt64
  preimages : Hash → Option Bytes

/-- The view of a state. -/
def view (s : StateDB) : View where
  accounts := fun a => (live s a).map (objectView s.db)
  refund := s.refund
  logs := s.logs
  logSize := s.logSize
  preimages := s.preimages

/-- The account at `a` changed by `f`, if there is one. -/
def View.mapAccount (a : Address) (f : ObjectView → ObjectView) (v : View) : View :=
  { v with accounts := Function.update v.accounts a ((v.accounts a).map f) }

@[simp] theorem View.mapAccount_id (a : Address) (v : View) : v.mapAccount a id = v := by
  unfold View.mapAccount
  rw [Option.map_id, id_eq, Function.update_eq_self]

/-- What reverting an entry does to the view; the trie and the database do not change between
two commits. -/
def undo (db : Database) (trie : Address → Option Account) : JournalEntry → View → View
  | .createObjectChange a, v =>
    { v with accounts := Function.update v.accounts a ((trie a).map fun d => objectView db (newObject a d)) }
  | .resetObjectChange prev, v =>
    { v with accounts := Function.update v.accounts prev.address (some (objectView db prev)) }
  | .suicideChange a prev prevbalance, v =>
    v.mapAccount a fun o => { o with Suicided := prev, Balance := prevbalance }
  | .touchChange _, v => v
  | .balanceChange a prev, v => v.mapAccount a fun o => { o with Balance := prev }
  | .nonceChange a prev, v => v.mapAccount a fun o => { o with Nonce := prev }
  | .codeChange a prevcode prevhash, v =>
    v.mapAccount a fun o =>
      { o with
        Code := codeView db prevcode prevhash
        CodeSize := codeSizeView db prevcode prevhash
        CodeHash := prevhash }
  | .storageChange a key prevalue, v =>
    v.mapAccount a fun o => { o with Value := Function.update o.Value key prevalue }
  | .refundChange prev, v => { v with refund := prev }
  | .addLogChange txhash, v =>
    { v with logs := Function.update v.logs txhash (v.logs txhash).dropLast, logSize := v.logSize - 1 }
  | .addPreimageChange hash, v => { v with preimages := Function.update v.preimages hash none }

/-- When the revert of an entry runs: the object it changes exists, a reset restores a live
object, and a log to take back is there. -/
def Good : JournalEntry → View → Prop
  | .resetObjectChange prev, _ => prev.deleted = false
  | .balanceChange a _, v => (v.accounts a).isSome
  | .nonceChange a _, v => (v.accounts a).isSome
  | .codeChange a _ _, v => (v.accounts a).isSome
  | .storageChange a _ _, v => (v.accounts a).isSome
  | .addLogChange txhash, v => v.logs txhash ≠ []
  | _, _ => True

/-- The live set holds each object at its own address, and a deleted object has left the trie,
as `deleteStateObject` makes it. -/
def WF (s : StateDB) : Prop :=
  ∀ a o, s.stateObjects a = some o → o.address = a ∧ (o.deleted = true → s.trie a = none)

/-! ### The live object under changes of the live set -/

section Live

variable (s : StateDB) (a b : Address)

theorem live_of_some {o : StateObject} (h : s.stateObjects a = some o) (hd : o.deleted = false) :
    live s a = some o := by
  simp [live, h, hd]

@[simp] theorem live_update_self (x : Option StateObject) :
    live { s with stateObjects := Function.update s.stateObjects a x } a =
      match x with
      | some o => if o.deleted then none else some o
      | none => (s.trie a).map (newObject a) := by
  simp [live]

theorem live_update_ne {b : Address} (x : Option StateObject) (hb : b ≠ a) :
    live { s with stateObjects := Function.update s.stateObjects a x } b = live s b := by
  simp [live, Function.update_of_ne hb]

end Live

/-! ### The view under changes of the live set -/

theorem view_writeObject (s : StateDB) (a : Address) (o : StateObject) (hd : o.deleted = false) :
    view { s with stateObjects := Function.update s.stateObjects a (some o) } =
      { view s with accounts := Function.update (view s).accounts a (some (objectView s.db o)) } := by
  ext1
  · funext b
    by_cases hb : b = a
    · subst hb
      simp [view, hd]
    · simp [view, live_update_ne s a _ hb, Function.update_of_ne hb]
  all_goals rfl

theorem view_journal (s : StateDB) (j : Journal) : view { s with journal := j } = view s := rfl

theorem objectView_setBalance (db : Database) (o : StateObject) (x : Int) :
    objectView db (o.setBalance x) = { objectView db o with Balance := x } := rfl

theorem objectView_setNonce (db : Database) (o : StateObject) (n : UInt64) :
    objectView db (o.setNonce n) = { objectView db o with Nonce := n } := rfl

theorem objectView_setCode (db : Database) (o : StateObject) (h : Hash) (c : Option Bytes) :
    objectView db (o.setCode h c) =
      { objectView db o with Code := codeView db c h, CodeSize := codeSizeView db c h, CodeHash := h } :=
  rfl

theorem objectView_setState (db : Database) (o : StateObject) (k v : Hash) :
    objectView db (o.setState k v) =
      { objectView db o with Value := Function.update (objectView db o).Value k v } := by
  ext1 <;> try rfl
  funext k'
  by_cases hk : k' = k
  · subst hk
    simp [objectView, StateObject.setState]
  · simp [objectView, StateObject.setState, Function.update_of_ne hk]

/-- Caching the original value of a slot that is not cached yet changes no view. -/
theorem objectView_cacheOrigin_of_none (db : Database) (o : StateObject) {k : Hash}
    (hk : o.originStorage k = none) :
    objectView db
      { o with originStorage := Function.update o.originStorage k (some (db.storageAt o.data.Root k)) } =
      objectView db o := by
  ext1 <;> try rfl
  all_goals
    funext k'
    by_cases hk' : k' = k
    · subst hk'
      simp [objectView, hk]
    · simp [objectView, Function.update_of_ne hk']

end Ccmchain.State
