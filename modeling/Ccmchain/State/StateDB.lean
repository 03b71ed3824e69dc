import Ccmchain.State.Journal
import Ccmchain.Lib.EStateM
import Ccmchain.Lib.Search

/-!
# `StateDB` of `core/state/statedb.go`

The live objects, the refund counter, the logs, the preimages, the journal and the snapshots
that a transaction changes, and the methods the EVM calls on them. The account trie is the map
`trie` from addresses to decoded accounts; `getStateObject` loads an account from it into the
live set on first use. A `stateObject` method is a method here on the object the live set holds
at its address, which every caller has obtained just before.

A Go panic (a negative refund counter, an unknown revision, a nil object) is the error of
`StateDBM`; the error values of the Go code are part of the result.
-/

namespace Ccmchain.State

open Common EStateM

/-- `revision`. -/
structure Revision where
  id : Nat
  journalIndex : Nat

/-- `StateDB`. -/
structure StateDB where
  db : Database
  trie : Address → Option Account
  stateObjects : Address → Option StateObject
  stateObjectsDirty : Address → Bool
  refund : UInt64
  thash : Hash
  bhash : Hash
  txIndex : Nat
  logs : Hash → List Log
  logSize : UInt64
  preimages : Hash → Option Bytes
  journal : Journal
  validRevisions : List Revision
  nextRevisionId : Nat

/-- `StateDB` methods: they change the state and may panic. -/
abbrev StateDBM := EStateM String StateDB

namespace StateDB

/-- `New`, over the account trie `trie`. -/
def New (db : Database) (trie : Address → Option Account) : StateDB where
  db := db
  trie := trie
  stateObjects := fun _ => none
  stateObjectsDirty := fun _ => false
  refund := 0
  thash := 0
  bhash := 0
  txIndex := 0
  logs := fun _ => []
  logSize := 0
  preimages := fun _ => none
  journal := Journal.newJournal
  validRevisions := []
  nextRevisionId := 0

/-- The panic of a method called on a `nil` object. -/
def nilDeref : String := "invalid memory address or nil pointer dereference"

/-- `setStateObject`: put `object` in the live set at its address. -/
def setStateObject (object : StateObject) : StateDBM Unit :=
  modify fun s => { s with stateObjects := Function.update s.stateObjects object.address (some object) }

/-- Write back the object at `addr` after a method changed it in place. -/
def writeObject (addr : Address) (object : StateObject) : StateDBM Unit :=
  modify fun s => { s with stateObjects := Function.update s.stateObjects addr (some object) }

/-- `journal.append`. -/
def appendJournal (entry : JournalEntry) : StateDBM Unit :=
  modify fun s => { s with journal := s.journal.append entry }

/-- `getStateObject`: the live object, unless it was deleted, or the account loaded from the
trie into the live set. -/
def getStateObject (addr : Address) : StateDBM (Option StateObject) := do
  let s ← get
  match s.stateObjects addr with
  | some obj => return if obj.deleted then none else some obj
  | none =>
    match s.trie addr with
    | none => return none
    | some data =>
      let obj := newObject addr data
      setStateObject obj
      return some obj

/-- The receiver of a `stateObject` method: the object the live set holds at `addr`. -/
def objectAt (addr : Address) : StateDBM StateObject := do
  match (← get).stateObjects addr with
  | some obj => return obj
  | none => throw nilDeref

/-- `createObject`: a new object at `addr`, journalled as a creation or, over a live object, as
a reset. -/
def createObject (addr : Address) : StateDBM (StateObject × Option StateObject) := do
  let prev ← getStateObject addr
  -- `Account{}` with the balance and code hash `newObject` fills in; `setNonce(0)` keeps it
  let newobj := newObject addr ⟨0, 0, 0, (← get).db.emptyCodeHash⟩
  match prev with
  | none => appendJournal (.createObjectChange addr)
  | some prev => appendJournal (.resetObjectChange prev)
  setStateObject newobj
  return (newobj, prev)

/-- `GetOrNewStateObject`. -/
def GetOrNewStateObject (addr : Address) : StateDBM StateObject := do
  match ← getStateObject addr with
  | some obj => if obj.deleted then return (← createObject addr).1 else return obj
  | none => return (← createObject addr).1

/-- `CreateAccount`: a new object that keeps the balance of the one it replaces. -/
def CreateAccount (addr : Address) : StateDBM Unit := do
  let (newObj, prev) ← createObject addr
  match prev with
  | some prev => writeObject addr (newObj.setBalance prev.data.Balance)
  | none => pure ()

/-! ### Methods of `stateObject` -/

/-- `stateObject.touch`. -/
def touch (addr : Address) : StateDBM Unit := do
  appendJournal (.touchChange addr)
  if addr = ripemd then
    modify fun s => { s with journal := s.journal.dirty addr }

/-- `stateObject.SetBalance`. -/
def SetBalanceObj (addr : Address) (amount : Int) : StateDBM Unit := do
  let obj ← objectAt addr
  appendJournal (.balanceChange addr obj.data.Balance)
  writeObject addr (obj.setBalance amount)

/-- `stateObject.AddBalance`: adding zero only touches an empty account. -/
def AddBalanceObj (addr : Address) (amount : Int) : StateDBM Unit := do
  let obj ← objectAt addr
  if amount = 0 then
    if obj.empty (← get).db.emptyCodeHash then touch addr
  else SetBalanceObj addr (obj.data.Balance + amount)

/-- `stateObject.SubBalance`. -/
def SubBalanceObj (addr : Address) (amount : Int) : StateDBM Unit := do
  if amount = 0 then return
  let obj ← objectAt addr
  SetBalanceObj addr (obj.data.Balance - amount)

/-- `stateObject.SetNonce`. -/
def SetNonceObj (addr : Address) (nonce : UInt64) : StateDBM Unit := do
  let obj ← objectAt addr
  appendJournal (.nonceChange addr obj.data.Nonce)
  writeObject addr (obj.setNonce nonce)

/-- `stateObject.Code`: the code set or loaded before, `nil` for the empty code hash, or the
code loaded from the database and kept. -/
def CodeObj (addr : Address) : StateDBM (Option Bytes) := do
  let obj ← objectAt addr
  match obj.code with
  | some code => return some code
  | none =>
    let db := (← get).db
    if obj.data.CodeHash = db.emptyCodeHash then return none
    else
      let code := db.code obj.data.CodeHash
      writeObject addr { obj with code := some code }
      return some code

/-- `stateObject.SetCode`. -/
def SetCodeObj (addr : Address) (codeHash : Hash) (code : Option Bytes) : StateDBM Unit := do
  let prevcode ← CodeObj addr
  let obj ← objectAt addr
  appendJournal (.codeChange addr prevcode obj.data.CodeHash)
  writeObject addr (obj.setCode codeHash code)

/-- `stateObject.GetCommittedState`: the original value, read from the storage trie once and
kept in `originStorage`. -/
def GetCommittedStateObj (addr : Address) (key : Hash) : StateDBM Hash := do
  let obj ← objectAt addr
  match obj.originStorage key with
  | some value => return value
  | none =>
    let value := (← get).db.storageAt obj.data.Root key
    writeObject addr { obj with originStorage := Function.update obj.originStorage key (some value) }
    return value

/-- `stateObject.GetState`. -/
def GetStateObj (addr : Address) (key : Hash) : StateDBM Hash := do
  let obj ← objectAt addr
  match obj.dirtyStorage key with
  | some value => return value
  | none => GetCommittedStateObj addr key

/-- `stateObject.SetState`: a write of the current value is not journalled. -/
def SetStateObj (addr : Address) (key value : Hash) : StateDBM Unit := do
  let prev ← GetStateObj addr key
  if prev = value then return
  appendJournal (.storageChange addr key prev)
  let obj ← objectAt addr
  writeObject addr (obj.setState key value)

/-! ### Getters -/

/-- `Exist`: a suicided account exists until it is deleted. -/
def Exist (addr : Address) : StateDBM Bool := return (← getStateObject addr).isSome

/-- `Empty`. -/
def Empty (addr : Address) : StateDBM Bool := do
  match ← getStateObject addr with
  | none => return true
  | some so => return so.empty (← get).db.emptyCodeHash

/-- `GetBalance`. -/
def GetBalance (addr : Address) : StateDBM Int := do
  match ← getStateObject addr with
  | some so => return so.data.Balance
  | none => return 0

/-- `GetNonce`. -/
def GetNonce (addr : Address) : StateDBM UInt64 := do
  match ← getStateObject addr with
  | some so => return so.data.Nonce
  | none => return 0

/-- `GetCode`. -/
def GetCode (addr : Address) : StateDBM Bytes := do
  match ← getStateObject addr with
  | some _ => return (← CodeObj addr).getD []
  | none => return []

/-- `GetCodeSize`. -/
def GetCodeSize (addr : Address) : StateDBM Nat := do
  match ← getStateObject addr with
  | none => return 0
  | some so =>
    match so.code with
    | some code => return code.length
    | none => return ((← get).db.code so.data.CodeHash).length

/-- `GetCodeHash`. -/
def GetCodeHash (addr : Address) : StateDBM Hash := do
  match ← getStateObject addr with
  | none => return 0
  | some so => return so.data.CodeHash

/-- `GetState`. -/
def GetState (addr : Address) (hash : Hash) : StateDBM Hash := do
  match ← getStateObject addr with
  | some _ => GetStateObj addr hash
  | none => return 0

/-- `GetCommittedState`. -/
def GetCommittedState (addr : Address) (hash : Hash) : StateDBM Hash := do
  match ← getStateObject addr with
  | some _ => GetCommittedStateObj addr hash
  | none => return 0

/-- `HasSuicided`. -/
def HasSuicided (addr : Address) : StateDBM Bool := do
  match ← getStateObject addr with
  | some so => return so.suicided
  | none => return false

/-- `GetRefund`. -/
def GetRefund : StateDBM UInt64 := return (← get).refund

/-- `GetLogs`. -/
def GetLogs (hash : Hash) : StateDBM (List Log) := return (← get).logs hash

/-- `Preimages`. -/
def Preimages : StateDBM (Hash → Option Bytes) := return (← get).preimages

/-! ### Setters -/

/-- `AddBalance`. -/
def AddBalance (addr : Address) (amount : Int) : StateDBM Unit := do
  let _ ← GetOrNewStateObject addr
  AddBalanceObj addr amount

/-- `SubBalance`. -/
def SubBalance (addr : Address) (amount : Int) : StateDBM Unit := do
  let _ ← GetOrNewStateObject addr
  SubBalanceObj addr amount

/-- `SetBalance`. -/
def SetBalance (addr : Address) (amount : Int) : StateDBM Unit := do
  let _ ← GetOrNewStateObject addr
  SetBalanceObj addr amount

/-- `SetNonce`. -/
def SetNonce (addr : Address) (nonce : UInt64) : StateDBM Unit := do
  let _ ← GetOrNewStateObject addr
  SetNonceObj addr nonce

/-- `SetCode`. -/
def SetCode (addr : Address) (code : Bytes) : StateDBM Unit := do
  let _ ← GetOrNewStateObject addr
  SetCodeObj addr ((← get).db.keccak code) (some code)

/-- `SetState`. -/
def SetState (addr : Address) (key value : Hash) : StateDBM Unit := do
  let _ ← GetOrNewStateObject addr
  SetStateObj addr key value

/-- `Suicide`: mark the account and clear its balance; `false` if there is no account. -/
def Suicide (addr : Address) : StateDBM Bool := do
  match ← getStateObject addr with
  | none => return false
  | some obj =>
    appendJournal (.suicideChange addr obj.suicided obj.data.Balance)
    writeObject addr (obj.markSuicided.setBalance 0)
    return true

/-- `AddLog`: the log is stamped with the transaction and its index in the block. -/
def AddLog (log : Log) : StateDBM Unit := do
  appendJournal (.addLogChange (← get).thash)
  modify fun s =>
    let log := { log with
      TxHash := s.thash, BlockHash := s.bhash, TxIndex := s.txIndex, Index := s.logSize }
    { s with
      logs := Function.update s.logs s.thash (s.logs s.thash ++ [log])
      logSize := s.logSize + 1 }

/-- `AddPreimage`: only the first preimage of a hash is kept. -/
def AddPreimage (hash : Hash) (preimage : Bytes) : StateDBM Unit := do
  if (← get).preimages hash = none then
    appendJournal (.addPreimageChange hash)
    modify fun s => { s with preimages := Function.update s.preimages hash (some preimage) }

/-- `AddRefund`. -/
def AddRefund (gas : UInt64) : StateDBM Unit := do
  appendJournal (.refundChange (← get).refund)
  modify fun s => { s with refund := s.refund + gas }

/-- `SubRefund`: panics if the counter would go below zero, after journalling. -/
def SubRefund (gas : UInt64) : StateDBM Unit := do
  appendJournal (.refundChange (← get).refund)
  if gas > (← get).refund then throw "Refund counter below zero"
  modify fun s => { s with refund := s.refund - gas }

/-! ### Snapshots and the journal's `revert` -/

/-- `revert` of one journal entry. -/
def revertChange : JournalEntry → StateDBM Unit
  | .createObjectChange account =>
    modify fun s => { s with
      stateObjects := Function.update s.stateObjects account none
      stateObjectsDirty := Function.update s.stateObjectsDirty account false }
  | .resetObjectChange prev => setStateObject prev
  | .suicideChange account prev prevbalance => do
    match ← getStateObject account with
    | some obj => writeObject account ({ obj with suicided := prev }.setBalance prevbalance)
    | none => pure ()
  | .touchChange _ => pure ()
  | .balanceChange account prev => do
    match ← getStateObject account with
    | some obj => writeObject account (obj.setBalance prev)
    | none => throw nilDeref
  | .nonceChange account prev => do
    match ← getStateObject account with
    | some obj => writeObject account (obj.setNonce prev)
    | none => throw nilDeref
  | .codeChange account prevcode prevhash => do
    match ← getStateObject account with
    | some obj => writeObject account (obj.setCode prevhash prevcode)
    | none => throw nilDeref
  | .storageChange account key prevalue => do
    match ← getStateObject account with
    | some obj => writeObject account (obj.setState key prevalue)
    | none => throw nilDeref
  | .refundChange prev => modify fun s => { s with refund := prev }
  | .addLogChange txhash => do
    let s ← get
    match s.logs txhash with
    | [] => throw "slice bounds out of range [:-1]"
    | [_] => set { s with logs := Function.update s.logs txhash [], logSize := s.logSize - 1 }
    | logs =>
      set { s with logs := Function.update s.logs txhash logs.dropLast, logSize := s.logSize - 1 }
  | .addPreimageChange hash =>
    modify fun s => { s with preimages := Function.update s.preimages hash none }

/-- One step of `journal.revert`: undo the entry, then drop its dirty count. -/
def revertEntry (entry : JournalEntry) : StateDBM Unit := do
  revertChange entry
  match entry.dirtied with
  | some addr =>
    modify fun s => { s with
      journal.dirties := Function.update s.journal.dirties addr (s.journal.dirties addr - 1) }
  | none => pure ()

/-- `journal.revert`: undo the entries from the last one down to `snapshot`, then drop them. -/
def journalRevert (snapshot : Nat) : StateDBM Unit := do
  forM ((← get).journal.entries.drop snapshot).reverse revertEntry
  modify fun s => { s with journal := { s.journal with entries := s.journal.entries.take snapshot } }

/-- `Snapshot`: a new revision id for the current length of the journal. -/
def Snapshot : StateDBM Nat := do
  let s ← get
  let id := s.nextRevisionId
  set { s with
    nextRevisionId := id + 1
    validRevisions := s.validRevisions ++ [({ id := id, journalIndex := s.journal.length } : Revision)] }
  return id

/-- The position `sort.Search` finds for `revid` among the valid revisions. -/
def revisionIndex (revs : List Revision) (revid : Nat) : Nat :=
  BinarySearch.search (fun i => decide (revid ≤ (revs.getD i ⟨0, 0⟩).id)) 0 revs.length

/-- `RevertToSnapshot`: undo the journal back to where the revision was taken, and drop the
revisions from it on. -/
def RevertToSnapshot (revid : Nat) : StateDBM Unit := do
  let s ← get
  let idx := revisionIndex s.validRevisions revid
  match s.validRevisions[idx]? with
  | some r =>
    if r.id ≠ revid then throw ("revision id " ++ toString revid ++ " cannot be reverted")
    journalRevert r.journalIndex
    modify fun s => { s with validRevisions := s.validRevisions.take idx }
  | none => throw ("revision id " ++ toString revid ++ " cannot be reverted")

end StateDB

end Ccmchain.State
