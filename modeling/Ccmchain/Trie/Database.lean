import Ccmchain.Trie.Hasher
import Ccmchain.Lib.AListSum
import Ccmchain.Lib.EStateM
import Ccmchain.Common.Types

/-!
# The trie node cache of `trie/database.go`

`Database` keeps the trie nodes written since the last flush in `dirties`, keyed by hash, each
with a count of the cached nodes that reference it (`parents`) and, for roots and account nodes,
a map of the external children it references (`children`). The entry at the zero hash is the
meta-root, whose children are the roots the chain holds. A doubly linked flush-list through
`flushPrev` and `flushNext`, from `oldest` to `newest`, orders the entries by insertion.
`dirtiesSize` and `childrenSize` count the memory the entries and the children maps take.

`insert` adds a node, `reference` and `Dereference` add and drop references (dropping the last
one deletes the node and cascades to its children), `Cap` writes the oldest nodes to disk and
uncaches them, and `Commit` writes a whole trie and uncaches it through `cleaner.Put`.

Go maps are `AList`s: a lookup, a write (`insert`) and a `delete` (`erase`); Go iterates a map in
no fixed order, the model in list order. A method that dereferences a missing entry panics, the
error of `DbM`. The two recursions of the source, `dereference` and `commit`, follow hashes: on a
cycle of hashes Go overflows its stack, and the model runs out of `fuel`, one more than the
number of entries, which no recursion along distinct entries uses up. The clean cache and the
preimages are left out: nothing modelled here reads them.
-/

namespace Ccmchain.Trie.Memory

open Common (Hash BytesToHash)
open EStateM

/-- What `cachedNode.node` holds: a collapsed trie node, or the raw blob of `InsertBlob`.
`simplifyNode` only drops cache flags, which `Node` does not have, so a collapsed node is kept
as the hasher gives it. -/
inductive Stored where
  | raw (blob : Bytes)
  | node (n : Node)

/-- `gatherChildren`: the hash children of a collapsed node, through a short node's value and a
full node's first sixteen slots. -/
def gatherChildren : Node → List Hash
  | .short _ v => gatherChildren v
  | .full cs => (List.finRange 16).flatMap fun i => gatherChildren (cs i.castSucc)
  | .hash h => [BytesToHash h]
  | .value _ | .nil => []

/-- A `map[common.Hash]uint16` of external children. -/
abbrev ChildMap := AList fun _ : Hash => UInt16

/-- `cachedNode`. -/
structure CachedNode where
  node : Stored
  size : UInt16
  parents : UInt32
  children : Option ChildMap
  flushPrev : Hash
  flushNext : Hash

namespace CachedNode

/-- `rlp`: the blob, or the encoding of the collapsed node. -/
def rlp (n : CachedNode) : Bytes :=
  match n.node with
  | .raw blob => blob
  | .node x => Rlp.Encode x.toRlp

/-- `childs`: the external children, then the hash children inside the node. -/
def childs (n : CachedNode) : List Hash :=
  (n.children.map AList.keys).getD [] ++
    match n.node with
    | .raw _ => []
    | .node x => gatherChildren x

/-- `len(n.children)`, zero for a `nil` map. -/
def childCount (n : CachedNode) : Nat := (n.children.map fun m => m.keys.length).getD 0

end CachedNode

/-- `common.HashLength`. -/
def HashLength : Int := 32

/-- `cachedNodeSize` on a 64-bit platform: the node interface (16 bytes), the size and parent
counters (2 and 4, padded to 8), the map pointer (8) and the two flush-list hashes (32 each). -/
def cachedNodeSize : Int := 96

/-- `cachedNodeChildrenSize`. -/
def cachedNodeChildrenSize : Int := 48

/-- The memory of a node's children map as `Cap` and `cleaner.Put` count it: the map and a hash
and a `uint16` counter per child; nothing for a `nil` map. -/
def childMapSize (n : CachedNode) : Int :=
  if n.children.isSome then cachedNodeChildrenSize + n.childCount * (HashLength + 2) else 0

/-- `ccmdb.IdealBatchSize`. -/
def IdealBatchSize : Nat := 100 * 1024

/-- `Database`: the disk, the dirty node cache with its flush-list, and the two size counters
(`common.StorageSize`, a float holding whole numbers). -/
structure Database where
  diskdb : Hash → Option Bytes
  dirties : AList fun _ : Hash => CachedNode
  oldest : Hash
  newest : Hash
  dirtiesSize : Int
  childrenSize : Int

/-- The methods of `Database`; an error is a Go panic. -/
abbrev DbM := EStateM String Database

/-- The panic of a nil pointer dereference. -/
def nilDeref : String := "invalid memory address or nil pointer dereference"

/-- The fatal error of a recursion without end. -/
def stackOverflow : String := "stack overflow"

/-- The meta-root: `{children: make(map)}`, with no node and no data. -/
def metaRoot : CachedNode := ⟨.node .nil, 0, 0, some ∅, 0, 0⟩

/-- `NewDatabase`. -/
def NewDatabase (diskdb : Hash → Option Bytes) : Database :=
  ⟨diskdb, AList.singleton 0 metaRoot, 0, 0, 0, 0⟩

/-- `db.dirties[hash]`, used through the pointer: a missing entry is a nil pointer. -/
def entry (hash : Hash) : DbM CachedNode := do
  match (← get).dirties.lookup hash with
  | some n => pure n
  | none => throw nilDeref

/-- A write through the pointer `db.dirties[hash]`. -/
def modifyEntry (hash : Hash) (f : CachedNode → CachedNode) : DbM Unit := do
  let n ← entry hash
  modify fun db => { db with dirties := db.dirties.insert hash (f n) }

/-! ### `insert` and `reference` -/

/-- The `c.parents++` of `insert`, for each child already cached. -/
def addParents (dirties : AList fun _ : Hash => CachedNode) :
    List Hash → AList fun _ : Hash => CachedNode
  | [] => dirties
  | child :: rest =>
    match dirties.lookup child with
    | some c => addParents (dirties.insert child { c with parents := c.parents + 1 }) rest
    | none => addParents dirties rest

/-- `insert`: a node not cached yet goes at the end of the flush-list, and every cached child
gains a parent. -/
def insert (hash : Hash) (blob : Bytes) (node : Stored) : DbM Unit := do
  let db ← get
  -- If the node's already cached, skip
  if hash ∉ db.dirties then
    let entry : CachedNode := ⟨node, blob.length.toUInt16, 0, none, db.newest, 0⟩
    set { db with dirties := (addParents db.dirties entry.childs).insert hash entry }
    -- Update the flush-list endpoints
    if db.oldest = 0 then
      modify fun db => { db with oldest := hash, newest := hash }
    else
      modifyEntry db.newest fun n => { n with flushNext := hash }
      modify fun db => { db with newest := hash }
    modify fun db => { db with dirtiesSize := db.dirtiesSize + (HashLength + entry.size.toNat) }

/-- `InsertBlob`. -/
def InsertBlob (hash : Hash) (blob : Bytes) : DbM Unit :=
  insert hash blob (.raw blob)

/-- The end of `reference`: the child gains a parent, and the parent's map counts the child,
whose first count adds an entry to `childrenSize`. -/
def link (child parent : Hash) : DbM Unit := do
  modifyEntry child fun n => { n with parents := n.parents + 1 }
  let p ← entry parent
  let count := ((p.children.bind fun m => m.lookup child).getD 0) + 1
  modifyEntry parent fun n => { n with children := some ((n.children.getD ∅).insert child count) }
  if count = 1 then
    modify fun db => { db with childrenSize := db.childrenSize + (HashLength + 2) }

/-- `reference`: a cached child gets a reference from `parent`, whose map is made on first use;
a child already in the map of a node other than the meta-root is not counted again. -/
def reference (child parent : Hash) : DbM Unit := do
  -- If the node does not exist, it's a node pulled from disk, skip
  if child ∈ (← get).dirties then
    match (← entry parent).children with
    | none =>
      modifyEntry parent fun n => { n with children := some ∅ }
      modify fun db => { db with childrenSize := db.childrenSize + cachedNodeChildrenSize }
      link child parent
    | some m =>
      -- If the reference already exists, only duplicate for roots
      unless child ∈ m ∧ parent ≠ 0 do
        link child parent

/-- `Reference`. -/
def Reference (child parent : Hash) : DbM Unit :=
  reference child parent

/-! ### `Dereference` -/

/-- Take `hash`, whose entry is `node`, off the flush-list: the `switch` of `dereference` and
`cleaner.Put`. -/
def unlink (hash : Hash) (node : CachedNode) : DbM Unit := do
  let db ← get
  if hash = db.oldest then
    set { db with oldest := node.flushNext }
    modifyEntry node.flushNext fun n => { n with flushPrev := 0 }
  else if hash = db.newest then
    set { db with newest := node.flushPrev }
    modifyEntry node.flushPrev fun n => { n with flushNext := 0 }
  else
    modifyEntry node.flushPrev fun n => { n with flushNext := node.flushNext }
    modifyEntry node.flushNext fun n => { n with flushPrev := node.flushPrev }

/-- The first step of `dereference`: the parent's count of `child`, if positive, goes down, and
the key goes when it reaches zero. -/
def unlinkChild (child parent : Hash) : DbM Unit := do
  let p ← entry parent
  match p.children.bind fun m => m.lookup child with
  | some count =>
    if count > 0 then
      if count - 1 = 0 then
        modifyEntry parent fun n => { n with children := n.children.map (·.erase child) }
        modify fun db => { db with childrenSize := db.childrenSize - (HashLength + 2) }
      else
        modifyEntry parent fun n => { n with children := n.children.map (·.insert child (count - 1)) }
  | none => pure ()

/-- Delete `child`, whose entry was `node`, and its memory from the counters. -/
def deleteEntry (child : Hash) (node : CachedNode) : DbM Unit :=
  modify fun db => { db with
    dirties := db.dirties.erase child
    dirtiesSize := db.dirtiesSize - (HashLength + node.size.toNat)
    childrenSize :=
      if node.children.isSome then db.childrenSize - cachedNodeChildrenSize else db.childrenSize }

/-- `dereference`, with `fuel` for the depth of the Go recursion. A child that loses its last
parent leaves the flush-list, dereferences its own children and is deleted. -/
def dereference : Nat → Hash → Hash → DbM Unit
  | 0, _, _ => throw stackOverflow
  | fuel + 1, child, parent => do
    -- Dereference the parent-child
    unlinkChild child parent
    -- If the child does not exist, it's a previously committed node.
    if child ∈ (← get).dirties then
      -- If there are no more references to the child, delete it and cascade
      if (← entry child).parents > 0 then
        modifyEntry child fun n => { n with parents := n.parents - 1 }
      let node ← entry child
      if node.parents = 0 then
        unlink child node
        node.childs.forM fun hash => dereference fuel hash child
        deleteEntry child node

/-- `Dereference`: drop the meta-root's reference to `root`. -/
def Dereference (root : Hash) : DbM Unit := do
  -- Sanity check to ensure that the meta-root is not removed
  if root ≠ 0 then
    dereference ((← get).dirties.entries.length + 1) root 0

/-! ### `Cap` -/

/-- Write `writes` to the disk in order. -/
def writeAll (diskdb : Hash → Option Bytes) (writes : List (Hash × Bytes)) : Hash → Option Bytes :=
  writes.foldl (fun d w => Function.update d w.1 (some w.2)) diskdb

/-- The memory of a cached node as `Cap` counts it: its hash and data, its metadata, and its
children map. -/
def flushSize (node : CachedNode) : Int :=
  HashLength + node.size.toNat + cachedNodeSize + childMapSize node

theorem childMapSize_nonneg (node : CachedNode) : 0 ≤ childMapSize node := by
  unfold childMapSize
  split
  · simp only [HashLength, cachedNodeChildrenSize]
    omega
  · exact le_refl 0

theorem flushSize_ge (node : CachedNode) : HashLength + cachedNodeSize ≤ flushSize node := by
  have := childMapSize_nonneg node
  unfold flushSize
  omega

/-- The first loop of `Cap`: from `oldest` along the flush-list, the nodes to write while the
size is above the limit, and where the loop stopped. Each node takes at least
`HashLength + cachedNodeSize` off the size, so the loop ends. The batch is written to disk in
pieces of `IdealBatchSize` on the way; the disk ends the same as with the writes in one go. -/
def flushOldest (db : Database) (limit size : Int) (oldest : Hash) :
    Except String (List (Hash × Bytes) × Hash) :=
  if size > limit ∧ oldest ≠ 0 then
    match db.dirties.lookup oldest with
    | none => .error nilDeref
    | some node => do
      let (writes, stop) ← flushOldest db limit (size - flushSize node) node.flushNext
      pure ((oldest, node.rlp) :: writes, stop)
  else .ok ([], oldest)
termination_by (size - limit).toNat
decreasing_by
  have := flushSize_ge node
  simp only [HashLength, cachedNodeSize] at this
  omega

/-- The second loop of `Cap`: uncache the written nodes, from `oldest` up to `stop`. Every turn
deletes an entry, so with `fuel` the number of entries a turn past it would find none and panic,
as the model does. -/
def uncache (stop : Hash) : Nat → DbM Unit
  | 0 => do
    if (← get).oldest ≠ stop then throw nilDeref
  | fuel + 1 => do
    let db ← get
    if db.oldest ≠ stop then
      let node ← entry db.oldest
      set { db with
        dirties := db.dirties.erase db.oldest
        oldest := node.flushNext
        dirtiesSize := db.dirtiesSize - (HashLength + node.size.toNat)
        childrenSize := db.childrenSize - childMapSize node }
      uncache stop fuel

/-- `Cap`: flush the oldest nodes until the memory the cache reports is within `limit`. -/
def Cap (limit : Int) : DbM Unit := do
  let db ← get
  let root ← entry 0
  -- db.dirtiesSize only contains the useful data in the cache, but when reporting the total
  -- memory consumption, the maintenance metadata is also needed to be counted.
  let size := db.dirtiesSize + (db.dirties.entries.length - 1 : Int) * cachedNodeSize +
    db.childrenSize - root.childCount * (HashLength + 2)
  match flushOldest db limit size db.oldest with
  | .error e => throw e
  | .ok (writes, stop) =>
    modify fun db => { db with diskdb := writeAll db.diskdb writes }
    -- Write successful, clear out the flushed data
    uncache stop (← get).dirties.entries.length
    let db ← get
    if db.oldest ≠ 0 then
      modifyEntry db.oldest fun n => { n with flushPrev := 0 }

/-! ### `Commit` -/

/-- A database batch: the writes queued and `ValueSize`, the bytes of their values. -/
structure Batch where
  writes : List (Hash × Bytes)
  size : Nat

/-- `batch.Put`. -/
def Batch.put (b : Batch) (key : Hash) (value : Bytes) : Batch :=
  ⟨b.writes ++ [(key, value)], b.size + value.length⟩

/-- `cleaner.Put`: a written node still cached leaves the flush-list and the cache. The size of its
children map comes off `dirtiesSize`. The blob would go to the clean cache, which is left out. -/
def cleanerPut (hash : Hash) : DbM Unit := do
  match (← get).dirties.lookup hash with
  | none => pure ()
  | some node =>
    unlink hash node
    -- Remove the node from the dirty cache
    modify fun db => { db with
      dirties := db.dirties.erase hash
      dirtiesSize := db.dirtiesSize - (HashLength + node.size.toNat) - childMapSize node }

/-- `batch.Write` followed by `batch.Replay(uncacher)`. -/
def writeReplay (b : Batch) : DbM Unit := do
  modify fun db => { db with diskdb := writeAll db.diskdb b.writes }
  b.writes.forM fun w => cleanerPut w.1

/-- `commit`, with `fuel` for the depth of the Go recursion: the children of a cached node are
written before it, and a batch that reaches `IdealBatchSize` is written and replayed at once. -/
def commit : Nat → Hash → Batch → DbM Batch
  | 0, _, _ => throw stackOverflow
  | fuel + 1, hash, batch => do
    match (← get).dirties.lookup hash with
    | none => pure batch
    | some node =>
      let batch ← node.childs.foldlM (fun batch child => commit fuel child batch) batch
      let batch := batch.put hash node.rlp
      -- If we've reached an optimal batch size, commit and start over
      if batch.size ≥ IdealBatchSize then
        writeReplay batch
        pure ⟨[], 0⟩
      else pure batch

/-- `Commit`: write the trie under `node` to disk and uncache it. -/
def Commit (node : Hash) : DbM Unit := do
  let batch ← commit ((← get).dirties.entries.length + 1) node ⟨[], 0⟩
  writeReplay batch

/-! ### Memory accounting -/

/-- What the counters read of a cached node: its data size and its children map. -/
def CachedNode.shape (n : CachedNode) : UInt16 × Option ChildMap := (n.size, n.children)

/-- What `dirtiesSize` counts: the hash and data of every cached node but the meta-root. -/
def dirtiesTotal (db : Database) : Int :=
  db.dirties.sum fun h n => if h = 0 then 0 else HashLength + n.size.toNat

/-- What `childrenSize` counts: every children map but the meta-root's own, which `NewDatabase`
makes outside the counter, and a hash and a counter for each child in any map. -/
def childrenTotal (db : Database) : Int :=
  db.dirties.sum fun h n => if h = 0 then n.childCount * (HashLength + 2) else childMapSize n

/-- A step that keeps both counters, and the size and children map of every entry: a change of
flush-list pointers or of parent counts. -/
def Frame (db db' : Database) : Prop :=
  db'.dirtiesSize = db.dirtiesSize ∧ db'.childrenSize = db.childrenSize ∧
    ∀ h, (db'.dirties.lookup h).map CachedNode.shape = (db.dirties.lookup h).map CachedNode.shape

section Frame

variable {db db' db'' : Database} {hash : Hash} {n : CachedNode}

theorem Frame.refl (db : Database) : Frame db db := ⟨rfl, rfl, fun _ => rfl⟩

theorem Frame.trans (h₁ : Frame db db') (h₂ : Frame db' db'') : Frame db db'' :=
  ⟨h₂.1.trans h₁.1, h₂.2.1.trans h₁.2.1, fun h => (h₂.2.2 h).trans (h₁.2.2 h)⟩

theorem Frame.totals (h : Frame db db') :
    dirtiesTotal db' = dirtiesTotal db ∧ childrenTotal db' = childrenTotal db := by
  have hl : ∀ a, (db'.dirties.lookup a).map ((fun (_ : Hash) => CachedNode.shape) a) =
      (db.dirties.lookup a).map ((fun (_ : Hash) => CachedNode.shape) a) := h.2.2
  exact ⟨AList.sum_comp_eq_of_lookup (fun _ => CachedNode.shape)
      (fun h s => if h = 0 then 0 else HashLength + s.1.toNat) hl,
    AList.sum_comp_eq_of_lookup (fun _ => CachedNode.shape)
      (fun h s => if h = 0 then ((s.2.map fun m => m.keys.length).getD 0 : Nat) * (HashLength + 2)
        else if s.2.isSome then cachedNodeChildrenSize +
          ((s.2.map fun m => m.keys.length).getD 0 : Nat) * (HashLength + 2) else 0) hl⟩

theorem entry_eq_ok (h : entry hash db = .ok n db') : db.dirties.lookup hash = some n ∧ db' = db := by
  unfold entry at h
  simp only [get_bind_apply] at h
  cases hl : db.dirties.lookup hash with
  | none =>
    rw [hl] at h
    cases h
  | some m =>
    rw [hl] at h
    cases h
    exact ⟨rfl, rfl⟩

theorem modifyEntry_frame {f : CachedNode → CachedNode} (h : modifyEntry hash f db = .ok () db')
    (hf : ∀ n, (f n).shape = n.shape) : Frame db db' := by
  unfold modifyEntry at h
  obtain ⟨n, db₁, h₁, h₂⟩ := bind_eq_ok.mp h
  obtain ⟨hn, rfl⟩ := entry_eq_ok h₁
  cases h₂
  refine ⟨rfl, rfl, fun a => ?_⟩
  by_cases ha : a = hash
  · subst ha
    simp [AList.lookup_insert, hn, hf]
  · simp [AList.lookup_insert_ne ha]

/-- Taking a node off the flush-list changes only flush-list pointers. -/
theorem unlink_frame (h : unlink hash n db = .ok () db') : Frame db db' := by
  unfold unlink at h
  simp only [get_bind_apply] at h
  split_ifs at h with ho hw
  · rw [set_bind_apply] at h
    have h₀ : Frame db { db with oldest := n.flushNext } := ⟨rfl, rfl, fun _ => rfl⟩
    exact h₀.trans (modifyEntry_frame h fun _ => rfl)
  · rw [set_bind_apply] at h
    have h₀ : Frame db { db with newest := n.flushPrev } := ⟨rfl, rfl, fun _ => rfl⟩
    exact h₀.trans (modifyEntry_frame h fun _ => rfl)
  · obtain ⟨u, db₁, h₁, h₂⟩ := bind_eq_ok.mp h
    exact (modifyEntry_frame h₁ fun _ => rfl).trans (modifyEntry_frame h₂ fun _ => rfl)

theorem childMapSize_of_shape {n₁ : CachedNode} (h : n₁.shape = n.shape) :
    childMapSize n₁ = childMapSize n := by
  have hch : n₁.children = n.children := (Prod.mk.inj h).2
  simp only [childMapSize, CachedNode.childCount, hch]

/-- `cleaner.Put` of a cached node other than the meta-root: the counters lose the node's children
map from `dirtiesSize`, where the cache held it in `childrenSize`. -/
theorem cleanerPut_shifts (hn : db.dirties.lookup hash = some n) (h0 : hash ≠ 0)
    (h : cleanerPut hash db = .ok () db') :
    db'.dirtiesSize - dirtiesTotal db' = db.dirtiesSize - dirtiesTotal db - childMapSize n ∧
    db'.childrenSize - childrenTotal db' = db.childrenSize - childrenTotal db + childMapSize n := by
  unfold cleanerPut at h
  simp only [get_bind_apply, hn] at h
  obtain ⟨u, db₁, h₁, h₂⟩ := bind_eq_ok.mp h
  have hf := unlink_frame h₁
  obtain ⟨hd, hc⟩ := hf.totals
  -- the node keeps its size and map while it leaves the flush-list
  obtain ⟨n₁, hn₁, hs⟩ : ∃ n₁, db₁.dirties.lookup hash = some n₁ ∧ n₁.shape = n.shape := by
    have := hf.2.2 hash
    rw [hn] at this
    cases h' : db₁.dirties.lookup hash with
    | none =>
      rw [h'] at this
      cases this
    | some n₁ =>
      rw [h'] at this
      exact ⟨n₁, rfl, Option.some.inj this⟩
  have hsize : n₁.size = n.size := (Prod.mk.inj hs).1
  rw [modify_apply] at h₂
  cases h₂
  have hd' : dirtiesTotal db₁ = HashLength + n.size.toNat + dirtiesTotal
      { db₁ with dirties := db₁.dirties.erase hash } := by
    unfold dirtiesTotal
    rw [AList.sum_eq_add_sum_erase hn₁, if_neg h0, hsize]
  have hc' : childrenTotal db₁ = childMapSize n + childrenTotal
      { db₁ with dirties := db₁.dirties.erase hash } := by
    unfold childrenTotal
    rw [AList.sum_eq_add_sum_erase hn₁, if_neg h0, childMapSize_of_shape hs]
  have hds := hf.1
  have hcs := hf.2.1
  simp only [dirtiesTotal, childrenTotal] at hd hc hd' hc' ⊢
  constructor <;> omega

end Frame

/-- A storage root `1` referenced from an account node `2`, itself a root of the meta-root:
after `Commit` of the account node the cache holds only the meta-root, but `dirtiesSize` has lost
the account node's children map and `childrenSize` still counts it. -/
theorem commit_counts_children_in_dirtiesSize : ∃ db,
    (do
      InsertBlob 1 [1]
      InsertBlob 2 [2]
      Reference 1 2
      Reference 2 0
      Commit 2 : DbM Unit) (NewDatabase fun _ => none) = .ok () db ∧
    db.dirtiesSize = -82 ∧ dirtiesTotal db = 0 ∧ db.childrenSize = 116 ∧ childrenTotal db = 34 :=
  ⟨_, rfl, by decide, by decide, by decide, by decide⟩

end Ccmchain.Trie.Memory
