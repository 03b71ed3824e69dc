import Ccmchain.Trie.Trie
import Ccmchain.Lib.PrefixMap

/-!
# What a trie node stands for

`Node.lookup` is the map a node stands for, from the hex key below it to the stored value,
built from the three `PrefixMap` constructions: a value is the entry at the empty key, a
short node moves its child's map under its key, a full node chooses its child by the first
nibble. `Node.Good` is the shape that `insert` and `delete` keep: values sit only behind a
terminated key or in the terminator slot of a full node, and every node is in memory.
-/

namespace Ccmchain.Trie

open PrefixMap Trie

namespace Node

/-- The map a node stands for. -/
def lookup : Node → List Nibble → Option Bytes
  | .nil => empty
  | .value v => single v
  | .short k c => under k c.lookup
  | .full cs => branch fun i => (cs i).lookup
  | .hash _ => empty

@[simp] theorem lookup_nil : lookup .nil = empty := rfl
@[simp] theorem lookup_value (v : Bytes) : lookup (.value v) = single v := rfl
@[simp] theorem lookup_short (k : List Nibble) (c : Node) : lookup (.short k c) = under k c.lookup := rfl
@[simp] theorem lookup_full (cs : Fin 17 → Node) : lookup (.full cs) = branch fun i => (cs i).lookup := rfl

/-- `n` is a `valueNode`. -/
def isValue : Node → Bool
  | .value _ => true
  | _ => false

@[simp] theorem isValue_value (v : Bytes) : isValue (.value v) = true := rfl
@[simp] theorem isValue_nil : isValue .nil = false := rfl

theorem isValue_iff {n : Node} : n.isValue = true ↔ ∃ v, n = .value v := by
  cases n <;> simp [isValue]

/-- The shape of the nodes built by `insert` and `delete`, at a position whose path has not
met the terminator yet. -/
def Good : Node → Prop
  | .nil => True
  | .value _ => False
  | .hash _ => False
  | .short k c => k ≠ [] ∧ ((Terminated k ∧ c.isValue) ∨ (16 ∉ k ∧ c.Good))
  | .full cs => ((cs 16).isValue ∨ cs 16 = .nil) ∧ ∀ i, i ≠ 16 → (cs i).Good

@[simp] theorem good_nil : Good .nil := trivial

theorem good_short_iff {k : List Nibble} {c : Node} :
    Good (.short k c) ↔ k ≠ [] ∧ ((Terminated k ∧ c.isValue) ∨ (16 ∉ k ∧ c.Good)) := Iff.rfl

theorem good_full_iff {cs : Fin 17 → Node} :
    Good (.full cs) ↔ ((cs 16).isValue ∨ cs 16 = .nil) ∧ ∀ i, i ≠ 16 → (cs i).Good := Iff.rfl

theorem Good.not_value {n : Node} (h : n.Good) : n.isValue = false := by
  cases n <;> simp_all [Good, isValue]

/-- A leaf: a short node holding a value behind a terminated key. -/
theorem good_leaf {k : List Nibble} (hk : Terminated k) (v : Bytes) : Good (.short k (.value v)) :=
  ⟨hk.ne_nil, Or.inl ⟨hk, rfl⟩⟩

end Node

/-- `insertNil` puts the node's map under the key. -/
@[simp] theorem lookup_insertNil (key : List Nibble) (c : Node) :
    (insertNil key c).lookup = under key c.lookup := by
  unfold insertNil
  split
  · subst key
    simp
  · rfl

/-! ### The scan of `delete` -/

/-- Record one more non-nil child. -/
def ScanPos.push : ScanPos → Fin 17 → ScanPos
  | .none, i => .single i
  | _, _ => .several

/-- The non-nil children of a full node, in index order. -/
def nonNilChildren (cs : Fin 17 → Node) : List (Fin 17) :=
  (List.finRange 17).filter fun i => !(cs i).isNil

theorem foldl_scanStep (cs : Fin 17 → Node) (l : List (Fin 17)) (pos : ScanPos) :
    l.foldl (fun pos i => scanStep pos i (cs i)) pos =
      (l.filter fun i => !(cs i).isNil).foldl ScanPos.push pos := by
  induction l generalizing pos with
  | nil => rfl
  | cons i l ih =>
    rw [List.foldl_cons, ih, List.filter_cons]
    by_cases h : (cs i).isNil
    · simp [scanStep, h]
    · simp only [scanStep, h, Bool.false_eq_true, ↓reduceIte, Bool.not_false, List.foldl_cons]
      cases pos <;> rfl

theorem foldl_push_several (l : List (Fin 17)) : l.foldl ScanPos.push .several = .several := by
  induction l with
  | nil => rfl
  | cons i l ih => simpa [ScanPos.push] using ih

theorem mem_nonNilChildren {cs : Fin 17 → Node} {j : Fin 17} : j ∈ nonNilChildren cs ↔ cs j ≠ .nil := by
  simp [nonNilChildren, ← Node.isNil_iff]

/-- The scan only tells apart no, one, and several non-nil children. -/
theorem scanChildren_eq (cs : Fin 17 → Node) :
    scanChildren cs = match nonNilChildren cs with
      | [] => .none
      | [p] => .single p
      | _ :: _ :: _ => .several := by
  rw [scanChildren, foldl_scanStep]
  change (nonNilChildren cs).foldl ScanPos.push .none = _
  match nonNilChildren cs with
  | [] => rfl
  | [p] => rfl
  | p :: q :: l => simp only [List.foldl_cons, ScanPos.push, foldl_push_several]

/-- The scan finds a single position exactly when that child is the only non-nil one. -/
theorem scanChildren_single {cs : Fin 17 → Node} {p : Fin 17} (h : scanChildren cs = .single p) :
    cs p ≠ .nil ∧ ∀ j, j ≠ p → cs j = .nil := by
  rw [scanChildren_eq] at h
  have hl : nonNilChildren cs = [p] := by
    split at h
    · cases h
    · cases h
      assumption
    · cases h
  constructor
  · exact mem_nonNilChildren.mp (by simp [hl])
  · intro j hj
    by_contra hne
    have := mem_nonNilChildren.mpr hne
    rw [hl, List.mem_singleton] at this
    exact hj this

theorem scanChildren_ne_none {cs : Fin 17 → Node} {j : Fin 17} (hj : cs j ≠ .nil) :
    scanChildren cs ≠ .none := by
  have hmem := mem_nonNilChildren.mpr hj
  rw [scanChildren_eq]
  split
  · rename_i hl
    rw [hl] at hmem
    cases hmem
  · simp
  · simp

theorem scanChildren_several {cs : Fin 17 → Node} {i j : Fin 17} (hij : i ≠ j) (hi : cs i ≠ .nil)
    (hj : cs j ≠ .nil) : scanChildren cs = .several := by
  have hmi := mem_nonNilChildren.mpr hi
  have hmj := mem_nonNilChildren.mpr hj
  rw [scanChildren_eq]
  split
  · rename_i hl
    rw [hl] at hmi
    cases hmi
  · rename_i p hl
    rw [hl, List.mem_singleton] at hmi hmj
    exact absurd (hmi.trans hmj.symm) hij
  · rfl

theorem two_of_scanChildren_several {cs : Fin 17 → Node} (h : scanChildren cs = .several) :
    ∃ i j, i ≠ j ∧ cs i ≠ .nil ∧ cs j ≠ .nil := by
  rw [scanChildren_eq] at h
  split at h
  · cases h
  · cases h
  · rename_i p q l hl
    have hnd : (nonNilChildren cs).Nodup := (List.nodup_finRange 17).filter _
    rw [hl, List.nodup_cons, List.mem_cons, not_or] at hnd
    refine ⟨p, q, hnd.1.1, mem_nonNilChildren.mp ?_, mem_nonNilChildren.mp ?_⟩
    · simp [hl]
    · simp [hl]

end Ccmchain.Trie
