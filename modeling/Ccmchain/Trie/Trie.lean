import Ccmchain.Trie.Encoding

/-!
# Trie nodes and the operations of `trie/trie.go`

`Node` is the `node` interface of `trie/node.go` without the cache flags: `nodeFlag` holds a
cached hash and a dirty bit that only the hasher and the database read, and no lookup,
insertion or deletion depends on them.

`tryGet`, `insert` and `delete` are the Go functions case by case. Each recurses on the
node it is given, except at a `hashNode`, where Go loads the node from the database and
recurses on it. That call is not on a smaller node, so here it goes to the argument `again`,
and `tryGetFuel`, `insertFuel` and `deleteFuel` tie the knot with a budget of resolutions.
`TryGet`, `TryUpdate` and `TryDelete` allow one resolution per nibble of the hex key and one
more: in a database the hasher wrote every stored node consumes a nibble before the next
hash child, so that is the most a walk can need; a database that does not satisfy this makes
the Go recursion go on without end, which the model reports as `resolveBudget`.
-/

namespace Ccmchain.Trie

set_option linter.dupNamespace false

/-- `node`: `nil`, `*fullNode`, `*shortNode`, `hashNode` or `valueNode`. -/
inductive Node where
  | nil
  | full (children : Fin 17 → Node)
  | short (key : List Nibble) (val : Node)
  | hash (h : Bytes)
  | value (v : Bytes)

namespace Node

/-- `n == nil` for the node interface. -/
def isNil : Node → Bool
  | nil => true
  | _ => false

@[simp] theorem isNil_nil : isNil nil = true := rfl
@[simp] theorem isNil_full (cs : Fin 17 → Node) : isNil (full cs) = false := rfl
@[simp] theorem isNil_short (k : List Nibble) (v : Node) : isNil (short k v) = false := rfl
@[simp] theorem isNil_hash (h : Bytes) : isNil (hash h) = false := rfl
@[simp] theorem isNil_value (v : Bytes) : isNil (value v) = false := rfl

theorem isNil_iff (n : Node) : n.isNil = true ↔ n = nil := by
  cases n <;> simp

end Node

/-- The errors of a trie walk. `missingNode` is `MissingNodeError` (the hash and the path of
the node that is not in the database); `resolveBudget` is a walk that resolved more nodes
than its budget allows; `panic` is a Go runtime panic. -/
inductive TrieError where
  | missingNode (hash : Bytes) (path : List Nibble)
  | resolveBudget
  | panic (msg : String)
  deriving DecidableEq, Repr

/-- The part of `trie.Database` a walk reads: `node(hash)`, the cached or stored node. -/
structure Database where
  node : Bytes → Option Node

/-- `Trie`: its database (`nil` for the zero value) and its root. -/
structure Trie where
  db : Option Database
  root : Node

/-- The zero `Trie`: no database, empty root. -/
def emptyTrie : Trie := ⟨none, .nil⟩

namespace Trie

/-- `resolveHash`: load a node from the database, or report it missing at `pfx`. A trie
without a database dereferences a nil pointer. -/
def resolveHash (t : Trie) (n : Bytes) (pfx : List Nibble) : Except TrieError Node :=
  match t.db with
  | none => .error (.panic "invalid memory address or nil pointer dereference")
  | some db =>
    match db.node n with
    | some node => .ok node
    | none => .error (.missingNode n pfx)

/-- `resolve`: load a `hashNode`, leave every other node as it is. -/
def resolve (t : Trie) (n : Node) (pfx : List Nibble) : Except TrieError Node :=
  match n with
  | .hash h => t.resolveHash h pfx
  | n => .ok n

/-! ### `tryGet` -/

/-- What `tryGet` returns besides its error: the value, the node with the resolved children
swapped in, and whether any node was resolved. -/
abbrev GetResult := Option Bytes × Node × Bool

/-- `tryGet origNode key pos`; `again` continues the walk at a resolved node. -/
def tryGet (t : Trie) (again : Node → List Nibble → Nat → Except TrieError GetResult) :
    Node → List Nibble → Nat → Except TrieError GetResult
  | .nil, _, _ => .ok (none, .nil, false)
  | .value v, _, _ => .ok (some v, .value v, false)
  | .short k v, key, pos =>
    if key.length - pos < k.length ∨ k ≠ (key.drop pos).take k.length then
      -- key not found in trie
      .ok (none, .short k v, false)
    else do
      let (value, newnode, didResolve) ← t.tryGet again v key (pos + k.length)
      if didResolve then pure (value, .short k newnode, true) else pure (value, .short k v, false)
  | .full cs, key, pos =>
    match key[pos]? with
    | none => .error (.panic "index out of range")
    | some i => do
      let (value, newnode, didResolve) ← t.tryGet again (cs i) key (pos + 1)
      if didResolve then pure (value, .full (Function.update cs i newnode), true)
      else pure (value, .full cs, false)
  | .hash h, key, pos => do
    let child ← t.resolveHash h (key.take pos)
    let (value, newnode, _) ← again child key pos
    pure (value, newnode, true)

/-- `tryGet` with at most `fuel` nested resolutions. -/
def tryGetFuel (t : Trie) : Nat → Node → List Nibble → Nat → Except TrieError GetResult
  | 0 => t.tryGet (fun _ _ _ => .error .resolveBudget)
  | fuel + 1 => t.tryGet (t.tryGetFuel fuel)

/-- `TryGet`: the value stored under `key`, and the trie with any resolved nodes cached. -/
def TryGet (t : Trie) (key : Bytes) : Except TrieError (Option Bytes × Trie) := do
  let key := keybytesToHex key
  let (value, newroot, didResolve) ← t.tryGetFuel (key.length + 1) t.root key 0
  pure (value, if didResolve then { t with root := newroot } else t)

/-! ### `insert` -/

/-- The two `t.insert(nil, ...)` calls of the branch case, which never recurse: an empty key
hands back the value, any other key gets a short node. -/
def insertNil (key : List Nibble) (value : Node) : Node :=
  if key = [] then value else .short key value

theorem insertNil_def (key : List Nibble) (value : Node) :
    insertNil key value = if key = [] then value else .short key value := rfl

/-- `insert n prefix key value`, returning the dirty flag and the new node; `again`
continues at a resolved node. -/
def insert (t : Trie) (again : Node → List Nibble → List Nibble → Node → Except TrieError (Bool × Node)) :
    Node → List Nibble → List Nibble → Node → Except TrieError (Bool × Node)
  | n, _, [], value =>
    match n, value with
    | .value v, .value w => .ok (v != w, value)
    | .value _, _ => .error (.panic "interface conversion: node is not trie.valueNode")
    | _, _ => .ok (true, value)
  | .short k v, pfx, key@(_ :: _), value =>
    let matchlen := prefixLen key k
    -- the whole key of the short node matches: keep it and update the value below it
    if matchlen = k.length then do
      let (dirty, nn) ← t.insert again v (pfx ++ key.take matchlen) (key.drop matchlen) value
      if !dirty then pure (false, .short k v) else pure (true, .short k nn)
    else
      -- otherwise branch out at the index where they differ
      match k[matchlen]?, key[matchlen]? with
      | some a, some b =>
        let branch : Node := .full (Function.update
          (Function.update (fun _ => .nil) a (insertNil (k.drop (matchlen + 1)) v))
          b (insertNil (key.drop (matchlen + 1)) value))
        if matchlen = 0 then .ok (true, branch) else .ok (true, .short (key.take matchlen) branch)
      | _, _ => .error (.panic "index out of range")
  | .full cs, pfx, i :: rest, value => do
    let (dirty, nn) ← t.insert again (cs i) (pfx ++ [i]) rest value
    if !dirty then pure (false, .full cs) else pure (true, .full (Function.update cs i nn))
  | .nil, _, key, value => .ok (true, .short key value)
  | .hash h, pfx, key, value => do
    -- a part of the trie that is not loaded yet: load the node and insert into it
    let rn ← t.resolveHash h pfx
    let (dirty, nn) ← again rn pfx key value
    if !dirty then pure (false, rn) else pure (true, nn)
  | .value _, _, _ :: _, _ => .error (.panic "invalid node")

/-- `insert` with at most `fuel` nested resolutions. -/
def insertFuel (t : Trie) : Nat → Node → List Nibble → List Nibble → Node → Except TrieError (Bool × Node)
  | 0 => t.insert (fun _ _ _ _ => .error .resolveBudget)
  | fuel + 1 => t.insert (t.insertFuel fuel)

theorem insert_nil_node (t : Trie) again (pfx key : List Nibble) (value : Node) :
    t.insert again .nil pfx key value = .ok (true, insertNil key value) := by
  cases key <;> simp [insert, insertNil]

/-! ### `delete` -/

/-- The scan of `delete` over a full node's children: Go keeps it in `pos`, with `-1` for no
non-nil child and `-2` for at least two. -/
inductive ScanPos where
  | none
  | single (i : Fin 17)
  | several
  deriving DecidableEq, Repr

/-- One iteration of the scan loop. -/
def scanStep (pos : ScanPos) (i : Fin 17) (cld : Node) : ScanPos :=
  if cld.isNil then pos
  else match pos with
    | .none => .single i
    | _ => .several

/-- The loop `for i, cld := range &n.Children`; going on after `-2` (where Go breaks)
changes nothing, since `-2` stays `-2`. -/
def scanChildren (cs : Fin 17 → Node) : ScanPos :=
  (List.finRange 17).foldl (fun pos i => scanStep pos i (cs i)) .none

/-- `delete n prefix key`, returning the dirty flag and the new node; `again` continues at a
resolved node. -/
def delete (t : Trie) (again : Node → List Nibble → List Nibble → Except TrieError (Bool × Node)) :
    Node → List Nibble → List Nibble → Except TrieError (Bool × Node)
  | .short k v, pfx, key =>
    let matchlen := prefixLen key k
    if matchlen < k.length then .ok (false, .short k v)  -- don't replace n on mismatch
    else if matchlen = key.length then .ok (true, .nil)  -- remove n entirely for whole matches
    else do
      let (dirty, child) ← t.delete again v (pfx ++ key.take k.length) (key.drop k.length)
      if !dirty then pure (false, .short k v)
      else
        match child with
        -- merge the nodes to avoid creating a shortNode{..., shortNode{...}}
        | .short ck cv => pure (true, .short (k ++ ck) cv)
        | child => pure (true, .short k child)
  | .full cs, pfx, key =>
    match key with
    | [] => .error (.panic "index out of range")
    | i :: rest => do
      let (dirty, nn) ← t.delete again (cs i) (pfx ++ [i]) rest
      if !dirty then pure (false, .full cs)
      else
        let cs' := Function.update cs i nn
        match scanChildren cs' with
        | .single pos =>
          if pos ≠ 16 then do
            -- a remaining short node replaces n, with the missing nibble in front of its key
            let cnode ← t.resolve (cs' pos) pfx
            match cnode with
            | .short ck cv => pure (true, .short (pos :: ck) cv)
            | _ => pure (true, .short [pos] (cs' pos))
          else pure (true, .short [pos] (cs' pos))
        | _ => pure (true, .full cs')
  | .value _, _, _ => .ok (true, .nil)
  | .nil, _, _ => .ok (false, .nil)
  | .hash h, pfx, key => do
    let rn ← t.resolveHash h pfx
    let (dirty, nn) ← again rn pfx key
    if !dirty then pure (false, rn) else pure (true, nn)

/-- `delete` with at most `fuel` nested resolutions. -/
def deleteFuel (t : Trie) : Nat → Node → List Nibble → List Nibble → Except TrieError (Bool × Node)
  | 0 => t.delete (fun _ _ _ => .error .resolveBudget)
  | fuel + 1 => t.delete (t.deleteFuel fuel)

section DeleteEqns

-- One equation per node kind, so that proofs rewrite with these instead of unfolding delete.
variable (t : Trie) (again : Node → List Nibble → List Nibble → Except TrieError (Bool × Node))

theorem delete_short (k : List Nibble) (v : Node) (pfx key : List Nibble) :
    t.delete again (.short k v) pfx key =
      if prefixLen key k < k.length then .ok (false, .short k v)
      else if prefixLen key k = key.length then .ok (true, .nil)
      else (do
        let (dirty, child) ← t.delete again v (pfx ++ key.take k.length) (key.drop k.length)
        if !dirty then pure (false, .short k v)
        else
          match child with
          | .short ck cv => pure (true, .short (k ++ ck) cv)
          | child => pure (true, .short k child)) := rfl

theorem delete_full_cons (cs : Fin 17 → Node) (pfx : List Nibble) (i : Nibble)
    (rest : List Nibble) :
    t.delete again (.full cs) pfx (i :: rest) = (do
      let (dirty, nn) ← t.delete again (cs i) (pfx ++ [i]) rest
      if !dirty then pure (false, .full cs)
      else
        let cs' := Function.update cs i nn
        match scanChildren cs' with
        | .single pos =>
          if pos ≠ 16 then do
            let cnode ← t.resolve (cs' pos) pfx
            match cnode with
            | .short ck cv => pure (true, .short (pos :: ck) cv)
            | _ => pure (true, .short [pos] (cs' pos))
          else pure (true, .short [pos] (cs' pos))
        | _ => pure (true, .full cs')) := rfl

@[simp] theorem delete_value (w : Bytes) (pfx key : List Nibble) :
    t.delete again (.value w) pfx key = .ok (true, .nil) := rfl

@[simp] theorem delete_nil (pfx key : List Nibble) :
    t.delete again .nil pfx key = .ok (false, .nil) := rfl

theorem delete_hash (h : Bytes) (pfx key : List Nibble) :
    t.delete again (.hash h) pfx key = (do
      let rn ← t.resolveHash h pfx
      let (dirty, nn) ← again rn pfx key
      if !dirty then pure (false, rn) else pure (true, nn)) := rfl

end DeleteEqns

/-! ### The exported operations -/

/-- `TryUpdate`: a non-empty value is inserted, an empty one deletes the key. -/
def TryUpdate (t : Trie) (key value : Bytes) : Except TrieError Trie :=
  let k := keybytesToHex key
  if value.length ≠ 0 then do
    let (_, n) ← t.insertFuel (k.length + 1) t.root [] k (.value value)
    pure { t with root := n }
  else do
    let (_, n) ← t.deleteFuel (k.length + 1) t.root [] k
    pure { t with root := n }

/-- `TryDelete`: remove any value stored under `key`. -/
def TryDelete (t : Trie) (key : Bytes) : Except TrieError Trie := do
  let k := keybytesToHex key
  let (_, n) ← t.deleteFuel (k.length + 1) t.root [] k
  pure { t with root := n }

end Trie

/-- A write to the trie, as `runRandTest` issues them. -/
inductive Op where
  | update (key value : Bytes)
  | delete (key : Bytes)

/-- Apply one write. -/
def Trie.apply (t : Trie) : Op → Except TrieError Trie
  | .update key value => t.TryUpdate key value
  | .delete key => t.TryDelete key

/-- Apply a sequence of writes in order, stopping at the first error. -/
def Trie.applyAll (t : Trie) (ops : List Op) : Except TrieError Trie :=
  ops.foldlM Trie.apply t

end Ccmchain.Trie
