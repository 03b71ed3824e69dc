import Ccmchain.Trie.Canonical
import Ccmchain.Rlp.Encode

/-!
# The root hash of `trie/hasher.go`

`Trie.Hash` hashes with no database: `hashRoot` hands the root to `hasher.hash` with `force`
set, and `hash` collapses the trie bottom up. A node whose RLP encoding is shorter than a hash
stays embedded in its parent; any other node becomes the hash of its encoding. The hash function
`keccak` is a parameter.

Nodes carry no cache flags here (see `Node`). `insert` and `delete` give every node they build
fresh flags, so a cached hash is always the hash of the node it sits on, and recomputing it, as
`hash` does here, gives what Go reads from the cache. For the same reason the `cached` copy that
`hash` returns, which `Trie.Hash` puts back as the root, is the node it was given.
-/

namespace Ccmchain.Trie

set_option linter.dupNamespace false

open Rlp (RlpValue)

namespace Node

/-- What `rlp.Encode` writes for a collapsed node: a full node through `fullNode.EncodeRLP`,
which writes a `nil` child as the empty `nilValueNode`; a short node as the struct of its key,
in the compact form `hashChildren` gives it, and its child; a hash or value node as a string; a
`nil` interface as the empty list. -/
def toRlp : Node → RlpValue
  | nil => .list []
  | full cs => .list (List.ofFn fun i => if (cs i).isNil then .str [] else (cs i).toRlp)
  | short k v => .list [.str (hexToCompact k), v.toRlp]
  | hash h => .str h
  | value v => .str v

end Node

namespace Hasher

/-- `hasher.store` with no database: `nil` and a hash node are kept; any other node stays
embedded if its encoding is shorter than 32 bytes and `force` is unset, and becomes the hash of
its encoding otherwise. -/
def store (keccak : Bytes → Bytes) (n : Node) (force : Bool) : Node :=
  match n with
  | .nil | .hash _ => n
  | _ =>
    let tmp := Rlp.Encode n.toRlp
    if tmp.length < 32 ∧ !force then n else .hash (keccak tmp)

/-- `hasher.hash` with no database, with `hasher.hashChildren` as its first step: the children
of a short or full node are hashed with `force` unset, except a short node's value child and
slot 16 of a full node, and the collapsed node goes to `store`. -/
def hash (keccak : Bytes → Bytes) (n : Node) (force : Bool) : Node :=
  match n with
  | .short k v => store keccak (.short k (if v.isValue then v else hash keccak v false)) force
  | .full cs =>
    store keccak (.full fun i => if i.val < 16 ∧ !(cs i).isNil then hash keccak (cs i) false else cs i)
      force
  | n => store keccak n force

theorem store_force (keccak : Bytes → Bytes) {n : Node} (hn : n.isNil = false) :
    ∃ h, store keccak n true = .hash h := by
  cases n with
  | nil => simp at hn
  | hash h => exact ⟨h, rfl⟩
  | full cs => exact ⟨_, if_neg (by simp)⟩
  | short k v => exact ⟨_, if_neg (by simp)⟩
  | value v => exact ⟨_, if_neg (by simp)⟩

/-- Hashing a node with `force` set always gives a hash node. -/
theorem hash_force (keccak : Bytes → Bytes) {n : Node} (hn : n.isNil = false) :
    ∃ h, hash keccak n true = .hash h := by
  cases n with
  | nil => simp at hn
  | full cs => exact store_force keccak rfl
  | short k v => exact store_force keccak rfl
  | hash h => exact store_force keccak rfl
  | value v => exact store_force keccak rfl

end Hasher

/-- `emptyRoot`, the root hash of the empty trie. -/
def emptyRoot : Bytes :=
  [0x56, 0xe8, 0x1f, 0x17, 0x1b, 0xcc, 0x55, 0xa6, 0xff, 0x83, 0x45, 0xe6, 0x92, 0xc0, 0xf8, 0x6e,
   0x5b, 0x48, 0xe0, 0x1b, 0x99, 0x6c, 0xad, 0xc0, 0x01, 0x62, 0x2f, 0xb5, 0xe3, 0x63, 0xb4, 0x21]

/-- `common.BytesToHash`: the last 32 bytes, padded with zeros on the left. -/
def bytesToHash (b : Bytes) : Bytes :=
  let b := if b.length > 32 then b.drop (b.length - 32) else b
  List.replicate (32 - b.length) 0 ++ b

theorem length_bytesToHash (b : Bytes) : (bytesToHash b).length = 32 := by
  unfold bytesToHash
  split <;> simp <;> omega

theorem bytesToHash_of_length {b : Bytes} (h : b.length = 32) : bytesToHash b = b := by
  simp [bytesToHash, h]

namespace Trie

/-- `Trie.hashRoot` with no database. -/
def hashRoot (keccak : Bytes → Bytes) (t : Trie) : Node :=
  if t.root.isNil then .hash emptyRoot else Hasher.hash keccak t.root true

/-- `Trie.Hash`: the root hash. The type assertion `hash.(hashNode)` panics on any other node. -/
def Hash (keccak : Bytes → Bytes) (t : Trie) : Except TrieError Bytes :=
  match t.hashRoot keccak with
  | .hash h => .ok (bytesToHash h)
  | _ => .error (.panic "interface conversion: trie.node is not trie.hashNode")

/-- `Hash` never panics, and a root hash is 32 bytes. -/
theorem hash_ok (keccak : Bytes → Bytes) (t : Trie) :
    ∃ h, t.Hash keccak = .ok h ∧ h.length = 32 := by
  obtain ⟨h, hr⟩ : ∃ h, t.hashRoot keccak = .hash h := by
    unfold hashRoot
    split
    · exact ⟨emptyRoot, rfl⟩
    · rename_i hn
      exact Hasher.hash_force keccak (by simpa using hn)
  exact ⟨bytesToHash h, by rw [Hash, hr], length_bytesToHash h⟩

theorem hash_emptyTrie (keccak : Bytes → Bytes) : emptyTrie.Hash keccak = .ok emptyRoot := by
  have hr : emptyTrie.hashRoot keccak = .hash emptyRoot := if_pos rfl
  simp only [Hash, hr, bytesToHash_of_length (show emptyRoot.length = 32 from rfl)]

end Trie

/-- Two canonical tries that hold the same map have the same root hash. -/
theorem Canonical.hash_eq {t₁ t₂ : Trie} {m : Bytes → Option Bytes} (c₁ : Canonical t₁)
    (c₂ : Canonical t₂) (h₁ : Holds t₁ m) (h₂ : Holds t₂ m) (keccak : Bytes → Bytes) :
    t₁.Hash keccak = t₂.Hash keccak := by
  rw [c₁.eq_of_holds c₂ h₁ h₂]

/-- The root hash after a sequence of writes to the empty trie depends only on the map they
leave. -/
theorem hash_history_independent (keccak : Bytes → Bytes) {ops₁ ops₂ : List Op}
    (h : refMap ops₁ = refMap ops₂) :
    ∃ t₁ t₂ root, emptyTrie.applyAll ops₁ = .ok t₁ ∧ emptyTrie.applyAll ops₂ = .ok t₂ ∧
      t₁.Hash keccak = .ok root ∧ t₂.Hash keccak = .ok root := by
  obtain ⟨t₁, hrun₁, hh₁⟩ := emptyTrie_holds.applyAll ops₁
  obtain ⟨t₂, hrun₂, hh₂⟩ := emptyTrie_holds.applyAll ops₂
  have c₁ := emptyTrie_canonical.applyAll hrun₁
  have c₂ := emptyTrie_canonical.applyAll hrun₂
  rw [← refMap, h] at hh₁
  rw [← refMap] at hh₂
  obtain ⟨root, hroot, -⟩ := t₁.hash_ok keccak
  refine ⟨t₁, t₂, root, hrun₁, hrun₂, hroot, ?_⟩
  rw [← c₁.hash_eq c₂ hh₁ hh₂ keccak, hroot]

theorem hash_history_independent_swap :
    refMap [.update [1] [2], .update [3] [4]] = refMap [.update [3] [4], .update [1] [2]] ∧
      ∃ t₁ t₂ root, emptyTrie.applyAll [.update [1] [2], .update [3] [4]] = .ok t₁ ∧
        emptyTrie.applyAll [.update [3] [4], .update [1] [2]] = .ok t₂ ∧
        t₁.Hash id = .ok root ∧ t₂.Hash id = .ok root :=
  have h : refMap [.update [1] [2], .update [3] [4]] = refMap [.update [3] [4], .update [1] [2]] := by
    simp only [refMap, List.foldl_cons, List.foldl_nil, refApply]
    exact Function.update_comm (by decide) _ _ _
  ⟨h, hash_history_independent id h⟩

end Ccmchain.Trie
