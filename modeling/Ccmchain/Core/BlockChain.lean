import Ccmchain.Common.Types
import Ccmchain.Lib.EStateM
import Mathlib.Data.List.AList

/-!
# The canonical chain index of `core/blockchain.go`

`writeBlockWithState` stores a block and its total difficulty, and makes it the head when it is
heavier than the head, or as heavy and lower, or as heavy at the same height and chosen by the
miner's preference or a coin. A new head whose parent is not the old head goes through `reorg`,
which walks both branches back to their common ancestor, makes the new branch canonical except
its head, drops the lookup entries of transactions only the old branch had, and deletes the
canonical hashes above what is then the current block. `insert` then makes the head canonical.

The database is what `rawdb` writes of it: blocks by hash, total difficulties, the canonical
number-to-hash map (`headerHashKey`, finite, so `reorg`'s deletion loop ends) and the transaction
lookup entries, each the number of its block. State commits and trie garbage collection do not
touch these maps and are left out, as are the receipts, the preimages and the event feeds. A Go
error return is the error of `EStateM`, with the writes made before it kept.
-/

namespace Ccmchain.Core

open Common (Hash)
open EStateM

/-- What the chain index reads of a block: its hash, parent, number, difficulty and the hashes of
its transactions. -/
structure Block where
  hash : Hash
  parentHash : Hash
  number : Nat
  difficulty : Nat
  txs : List Hash

/-- The canonical number-to-hash map. -/
abbrev CanonicalMap := AList fun _ : Nat => Hash

/-- The chain database and the head markers of `BlockChain`. -/
structure BlockChain where
  /-- `ReadBlock`, by hash. -/
  blocks : Hash → Option Block
  /-- `ReadTd`. -/
  td : Hash → Option Nat
  /-- `ReadCanonicalHash`: the numbers written by `WriteCanonicalHash` and not deleted. -/
  canonical : CanonicalMap
  /-- `ReadTxLookupEntry`. -/
  txLookup : Hash → Option Nat
  currentBlock : Block
  currentFastBlock : Block
  /-- `hc.currentHeaderHash`. -/
  currentHeader : Hash

/-- The methods of `BlockChain`. -/
abbrev ChainM := EStateM String BlockChain

/-- `WriteStatus`. -/
inductive WriteStatus where
  | NonStatTy
  | CanonStatTy
  | SideStatTy
  deriving DecidableEq, Repr

namespace BlockChain

variable (bc : BlockChain)

/-- `GetBlock(hash, number)`: the stored block of that hash at that number. -/
def GetBlock (hash : Hash) (number : Nat) : Option Block :=
  (bc.blocks hash).filter (·.number = number)

/-- `GetBlock(b.ParentHash(), b.NumberU64()-1)`. At number zero Go asks for number `2^64 - 1`,
which no stored block has: a block is one above its parent, down from the genesis. -/
def parent (b : Block) : Option Block :=
  if b.number = 0 then none else bc.GetBlock b.parentHash (b.number - 1)

/-- `ReadCanonicalHash`: the zero hash where nothing is written. -/
def ReadCanonicalHash (number : Nat) : Hash := (bc.canonical.lookup number).getD 0

end BlockChain

/-- The genesis chain: the genesis block alone, canonical and current. -/
def genesisChain (g : Block) : BlockChain where
  blocks := Function.update (fun _ => none) g.hash (some g)
  td := Function.update (fun _ => none) g.hash (some g.difficulty)
  canonical := AList.singleton g.number g.hash
  txLookup := fun _ => none
  currentBlock := g
  currentFastBlock := g
  currentHeader := g.hash

/-- `WriteTxLookupEntries`: each transaction of the block points at its number. -/
def writeTxLookupEntries (lookup : Hash → Option Nat) (b : Block) : Hash → Option Nat :=
  b.txs.foldl (fun l tx => Function.update l tx (some b.number)) lookup

/-- `insert`: the block becomes canonical at its number and the head; a block that was not
canonical there moves the header and fast-sync heads too. -/
def insert (block : Block) : ChainM Unit :=
  modify fun bc =>
    -- If the block is on a side chain or an unknown one, force other heads onto it too
    let updateHeads := bc.ReadCanonicalHash block.number ≠ block.hash
    { bc with
      canonical := bc.canonical.insert block.number block.hash
      currentBlock := block
      currentHeader := if updateHeads then block.hash else bc.currentHeader
      currentFastBlock := if updateHeads then block else bc.currentFastBlock }

theorem parent_number {bc : BlockChain} {b p : Block} (h : bc.parent b = some p) :
    p.number + 1 = b.number := by
  unfold BlockChain.parent BlockChain.GetBlock at h
  split at h
  · cases h
  · obtain ⟨-, hp⟩ := Option.mem_filter_iff.mp h
    simp only [decide_eq_true_eq] at hp
    omega

/-- The first loop of `reorg`: step `b` back along its parents to the number `target`, collecting
the blocks left behind; `none` where a parent is missing. -/
def BlockChain.walkDown (bc : BlockChain) (target : Nat) (b : Block) (acc : List Block) :
    Option (Block × List Block) :=
  if b.number ≠ target then
    match _hp : bc.parent b with
    | none => none
    | some p => bc.walkDown target p (acc ++ [b])
  else some (b, acc)
termination_by b.number
decreasing_by
  have := parent_number (by assumption)
  omega

/-- The second loop of `reorg`: step both blocks back together until they meet, collecting the
blocks of each branch. -/
def BlockChain.findCommon (bc : BlockChain) (old new : Block) (oldChain newChain : List Block) :
    Except String (Block × List Block × List Block) :=
  -- If the common ancestor was found, bail out
  if old.hash = new.hash then .ok (old, oldChain, newChain)
  else
    match _hp : bc.parent old with
    | none => .error "invalid old chain"
    | some old' =>
      match bc.parent new with
      | none => .error "invalid new chain"
      | some new' => bc.findCommon old' new' (oldChain ++ [old]) (newChain ++ [new])
termination_by old.number
decreasing_by
  have := parent_number (by assumption)
  omega

/-- The deletion loop of `reorg`: the canonical numbers from `i` on, up to the first one not
written. It reads the database, not the batch it deletes in, so it deletes a run of numbers;
`fuel`, the count of numbers written, outlasts any run. -/
def deleteAbove (canonical : CanonicalMap) : Nat → Nat → CanonicalMap → CanonicalMap
  | 0, _, out => out
  | fuel + 1, i, out =>
    if i ∈ canonical then deleteAbove canonical fuel (i + 1) (out.erase i) else out

/-- `reorg`: make the branch of `newBlock` canonical in place of the branch of `oldBlock`, except
`newBlock` itself. -/
def reorg (oldBlock newBlock : Block) : ChainM Unit := do
  let bc ← get
  -- Reduce the longer chain to the same number as the shorter one
  let walked :=
    if oldBlock.number > newBlock.number then
      (bc.walkDown newBlock.number oldBlock []).map fun (o, oldChain) => (o, oldChain, newBlock, [])
    else
      (bc.walkDown oldBlock.number newBlock []).map fun (n, newChain) => (oldBlock, [], n, newChain)
  let some (oldBlock, oldChain, newBlock, newChain) := walked
    | throw (if oldBlock.number > newBlock.number then "invalid old chain" else "invalid new chain")
  -- Both sides of the reorg are at the same number, reduce both until the common ancestor is found
  match bc.findCommon oldBlock newBlock oldChain newChain with
  | .error e => throw e
  | .ok (_, oldChain, newChain) =>
    -- Insert the new chain (except the head block), in reverse, with its lookup entries
    let inserted := (newChain.drop 1).reverse
    for b in inserted do
      insert b
      modify fun bc => { bc with txLookup := writeTxLookupEntries bc.txLookup b }
    let deletedTxs := oldChain.flatMap Block.txs
    let addedTxs := inserted.flatMap Block.txs
    let bc ← get
    -- Delete the lookups of the transactions only the old chain had, and any canonical number
    -- assignments above the new head
    set { bc with
      txLookup := fun tx =>
        if tx ∈ deletedTxs ∧ tx ∉ addedTxs then none else bc.txLookup tx
      canonical := deleteAbove bc.canonical bc.canonical.entries.length
        (bc.currentBlock.number + 1) bc.canonical }

/-- `writeBlockWithState`, with the miner's `shouldPreserve` (if any) and the coin of the
`mrand.Float64() < 0.5` tie-break as parameters. -/
def writeBlockWithState (shouldPreserve : Option (Block → Bool)) (coin : Bool) (block : Block) :
    ChainM WriteStatus := do
  let bc ← get
  -- Calculate the total difficulty of the block
  let some ptd := (bc.parent block).bind fun p => bc.td p.hash | throw "unknown ancestor"
  -- Make sure no inconsistent state is leaked during insertion
  let currentBlock := bc.currentBlock
  let some localTd := bc.td currentBlock.hash | throw "invalid memory address or nil pointer dereference"
  let externTd := block.difficulty + ptd
  -- Irrelevant of the canonical status, write the block itself to the database
  set { bc with
    td := Function.update bc.td block.hash (some externTd)
    blocks := Function.update bc.blocks block.hash (some block) }
  -- If the total difficulty is higher than our known, add it to the canonical chain
  let reorg :=
    if externTd > localTd then true
    else if externTd = localTd then
      -- Split same-difficulty blocks by number, then preferentially select the block generated
      -- by the local miner as the canonical block.
      if block.number < currentBlock.number then true
      else if block.number = currentBlock.number then
        let (currentPreserve, blockPreserve) :=
          match shouldPreserve with
          | some f => (f currentBlock, f block)
          | none => (false, false)
        !currentPreserve && (blockPreserve || coin)
      else false
    else false
  if reorg then
    -- Reorganise the chain if the parent is not the head block
    if block.parentHash ≠ currentBlock.hash then
      Core.reorg currentBlock block
    -- Write the positional metadata for transaction lookups
    modify fun bc => { bc with txLookup := writeTxLookupEntries bc.txLookup block }
    insert block
    return .CanonStatTy
  else
    return .SideStatTy

/-- A reorganisation onto a one-block branch below the head leaves the old head's canonical hash
above the new head. On the genesis `G` (hash 1), `A1` (hash 2) and `A2` (hash 3) extend the chain
by difficulty 1 each; `B1` (hash 4), a child of `G` of difficulty 2, reaches the same total
difficulty at a lower number and becomes the head. `reorg` walks `A2` down to `A1`, meets `B1` at
`G` with `[B1]` as the new branch, inserts nothing, and deletes from number 3, the old head's
number plus one; `insert` then writes number 1 only, and number 2 still reads `A2`. -/
theorem writeBlockWithState_leaves_canonical_above_head : ∃ bc,
    (do
      let _ ← writeBlockWithState none false ⟨2, 1, 1, 1, []⟩
      let _ ← writeBlockWithState none false ⟨3, 2, 2, 1, []⟩
      writeBlockWithState none false ⟨4, 1, 1, 2, []⟩ : ChainM WriteStatus)
      (genesisChain ⟨1, 0, 0, 1, []⟩) = .ok .CanonStatTy bc ∧
    bc.currentBlock.hash = 4 ∧ bc.currentBlock.number = 1 ∧ bc.ReadCanonicalHash 2 = 3 := by
  apply Exists.intro
  refine ⟨?_, ?_, ?_, ?_⟩
  -- `reorg`'s two walks are well-founded recursions: let the evaluation unfold them
  · with_unfolding_all rfl
  · rfl
  · rfl
  · rfl

end Ccmchain.Core
