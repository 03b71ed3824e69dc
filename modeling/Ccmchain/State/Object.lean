import Ccmchain.Common.Math

/-!
# Accounts and state objects of `core/state`

`Account` is the consensus form of an account and `StateObject` the live object `StateDB`
keeps for it while a block is processed. The object's handles (its storage trie, the
database, the address hash) and its database error are left out: the storage trie is read
through `Database.storage` at the account's root, and the model's database reads do not fail.

`Account.CodeHash` is a `Hash` here: Go keeps it as a byte slice, which is always the 32 bytes
of a hash (`emptyCodeHash`, a decoded account, or `codeHash[:]` from `setCode`).
-/

namespace Ccmchain.State

open Common

/-- `Account`. -/
structure Account where
  Nonce : UInt64
  Balance : Int
  Root : Hash
  CodeHash : Hash
  deriving DecidableEq

/-- What the state reads from its `Database` and from `crypto`: the value stored under a key
of the storage trie with a given root (already split out of its RLP string), the code with a
given hash, and `Keccak256Hash`. -/
structure Database where
  storage : Hash → Hash → Hash
  code : Hash → Bytes
  keccak : Bytes → Hash

/-- `emptyRoot`, the root of the empty trie. -/
def emptyRoot : Hash :=
  BitVec.ofNat 256 0x56e81f171bcc55a6ff8345e692c0f86e5b48e01b996cadc001622fb5e363b421

/-- `emptyCodeHash`, `Keccak256(nil)`. -/
def Database.emptyCodeHash (db : Database) : Hash := db.keccak []

/-- `TryGet` on the storage trie opened at `root`: a trie opened at the zero hash or at
`emptyRoot` is empty. -/
def Database.storageAt (db : Database) (root key : Hash) : Hash :=
  if root = 0 ∨ root = emptyRoot then 0 else db.storage root key

/-- `stateObject`. `code` is `none` for Go's `nil`, code that has not been loaded. -/
structure StateObject where
  address : Address
  data : Account
  code : Option Bytes
  originStorage : Hash → Option Hash
  dirtyStorage : Hash → Option Hash
  dirtyCode : Bool
  suicided : Bool
  deleted : Bool

/-- `newObject` for an account whose balance and code hash are set. -/
def newObject (address : Address) (data : Account) : StateObject where
  address := address
  data := data
  code := none
  originStorage := fun _ => none
  dirtyStorage := fun _ => none
  dirtyCode := false
  suicided := false
  deleted := false

@[simp] theorem address_newObject (address : Address) (data : Account) :
    (newObject address data).address = address := rfl

namespace StateObject

/-- `empty`: no nonce, no balance and no code (EIP-161). -/
def empty (emptyCodeHash : Hash) (s : StateObject) : Bool :=
  s.data.Nonce = 0 && s.data.Balance = 0 && s.data.CodeHash = emptyCodeHash

/-- `setBalance`. -/
def setBalance (s : StateObject) (amount : Int) : StateObject :=
  { s with data := { s.data with Balance := amount } }

/-- `setNonce`. -/
def setNonce (s : StateObject) (nonce : UInt64) : StateObject :=
  { s with data := { s.data with Nonce := nonce } }

/-- `setCode`. -/
def setCode (s : StateObject) (codeHash : Hash) (code : Option Bytes) : StateObject :=
  { s with code := code, data := { s.data with CodeHash := codeHash }, dirtyCode := true }

/-- `setState`. -/
def setState (s : StateObject) (key value : Hash) : StateObject :=
  { s with dirtyStorage := Function.update s.dirtyStorage key (some value) }

/-- `markSuicided`. -/
def markSuicided (s : StateObject) : StateObject := { s with suicided := true }

@[simp] theorem address_setBalance (s : StateObject) (a : Int) : (s.setBalance a).address = s.address := rfl
@[simp] theorem address_setNonce (s : StateObject) (n : UInt64) : (s.setNonce n).address = s.address := rfl
@[simp] theorem address_setCode (s : StateObject) (h : Hash) (c : Option Bytes) :
    (s.setCode h c).address = s.address := rfl
@[simp] theorem address_setState (s : StateObject) (k v : Hash) : (s.setState k v).address = s.address := rfl
@[simp] theorem address_markSuicided (s : StateObject) : s.markSuicided.address = s.address := rfl
@[simp] theorem deleted_setBalance (s : StateObject) (a : Int) : (s.setBalance a).deleted = s.deleted := rfl
@[simp] theorem deleted_setNonce (s : StateObject) (n : UInt64) : (s.setNonce n).deleted = s.deleted := rfl
@[simp] theorem deleted_setCode (s : StateObject) (h : Hash) (c : Option Bytes) :
    (s.setCode h c).deleted = s.deleted := rfl
@[simp] theorem deleted_setState (s : StateObject) (k v : Hash) : (s.setState k v).deleted = s.deleted := rfl
@[simp] theorem deleted_markSuicided (s : StateObject) : s.markSuicided.deleted = s.deleted := rfl

end StateObject

/-- `types.Log`, without the `Removed` flag that only the filter system sets. -/
structure Log where
  Address : Address
  Topics : List Hash
  Data : Bytes
  BlockNumber : UInt64
  TxHash : Hash
  TxIndex : Nat
  BlockHash : Hash
  Index : UInt64

end Ccmchain.State
