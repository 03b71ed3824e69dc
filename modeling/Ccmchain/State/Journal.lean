import Ccmchain.State.Object

/-!
# The journal of `core/state/journal.go`

Every change `StateDB` makes between two commits is logged as a `JournalEntry`, from which
`revert` (in `StateDB`) undoes it. `dirties` counts, for each address, the entries that dirtied
it; `dirty` bumps the count of the RIPEMD precompile on its own, which `revert` never takes back.
-/

namespace Ccmchain.State

open Common

/-- `journalEntry`, one constructor for each change type. `touchChange` keeps only its account:
its other fields are never set or read. -/
inductive JournalEntry where
  | createObjectChange (account : Address)
  | resetObjectChange (prev : StateObject)
  | suicideChange (account : Address) (prev : Bool) (prevbalance : Int)
  | touchChange (account : Address)
  | balanceChange (account : Address) (prev : Int)
  | nonceChange (account : Address) (prev : UInt64)
  | storageChange (account : Address) (key prevalue : Hash)
  | codeChange (account : Address) (prevcode : Option Bytes) (prevhash : Hash)
  | refundChange (prev : UInt64)
  | addLogChange (txhash : Hash)
  | addPreimageChange (hash : Hash)

/-- `dirtied`: the address an entry changes, if it changes an account. -/
def JournalEntry.dirtied : JournalEntry → Option Address
  | .createObjectChange account => some account
  | .resetObjectChange _ => none
  | .suicideChange account _ _ => some account
  | .touchChange account => some account
  | .balanceChange account _ => some account
  | .nonceChange account _ => some account
  | .storageChange account _ _ => some account
  | .codeChange account _ _ => some account
  | .refundChange _ => none
  | .addLogChange _ => none
  | .addPreimageChange _ => none

/-- `ripemd`, the address `0x…03` whose touch `dirty` marks by hand. -/
def ripemd : Address := 3

/-- `journal`: the entries in order, and the count of entries per dirtied address (a missing
key of the Go map counts `0`). -/
structure Journal where
  entries : List JournalEntry
  dirties : Address → Int

namespace Journal

/-- `newJournal`. -/
def newJournal : Journal := ⟨[], fun _ => 0⟩

/-- Add one to the count of `addr`. -/
def bump (d : Address → Int) (addr : Address) : Address → Int :=
  Function.update d addr (d addr + 1)

/-- `append`. -/
def append (j : Journal) (entry : JournalEntry) : Journal where
  entries := j.entries ++ [entry]
  dirties := match entry.dirtied with
    | some addr => bump j.dirties addr
    | none => j.dirties

/-- `dirty`. -/
def dirty (j : Journal) (addr : Address) : Journal := { j with dirties := bump j.dirties addr }

/-- `length`. -/
def length (j : Journal) : Nat := j.entries.length

@[simp] theorem entries_append (j : Journal) (e : JournalEntry) :
    (j.append e).entries = j.entries ++ [e] := rfl

@[simp] theorem entries_dirty (j : Journal) (a : Address) : (j.dirty a).entries = j.entries := rfl

end Journal

end Ccmchain.State
