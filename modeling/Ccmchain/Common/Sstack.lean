import Ccmchain.Lib.HeapIface

/-!
# The block-based stack under the priority queue (`common/prque/sstack.go`)

`sstack` is the sortable slice `Prque` runs `container/heap` on. It keeps its items in blocks
of 4096 slots that are never freed, with a separate `size`, `capacity`, `offset` into the
active block and the active block itself. `Push` moves to a new or the next block when the
active one is full, `Pop` moves back when its offset would go below zero, and `Swap` and `Push`
report the new index of every item they move to the `SetIndexCallback`.

`Holds s l` says that the first `size` slots hold the list `l` and the rest are nil. Under it
`Len`, `Less`, `Swap`, `Push` and `Pop` act on `l` as a slice's methods do (`refines`), so the
heap algorithms of `Lib.HeapIface` apply. The calls made to the callback are recorded in
`calls`; `Tracks` says that the index last reported for the value of each item is the item's
slot, which every method keeps as long as no two items share a value.
-/

namespace Ccmchain.Prque

open MinHeap (val)
open HeapIface (Iface Refines)

/-- The size of a block of data. -/
def blockSize : Nat := 4096

theorem blockSize_eq : blockSize = 4096 := rfl

/-- A prioritized item in the sorted stack. -/
structure Item (β : Type) where
  value : β
  priority : Int64
  deriving DecidableEq, Repr

instance instInhabitedItem {β : Type} [Inhabited β] : Inhabited (Item β) := ⟨⟨default, 0⟩⟩

/-- `sstack`. The callback is `setIndex` (whether one was given) and the calls made to it, in
order; `active` is the index of the active block in `blocks`. -/
structure Sstack (β : Type) where
  setIndex : Bool
  calls : List (β × Int)
  size : Nat
  capacity : Nat
  offset : Nat
  blocks : List (List (Option (Item β)))
  active : Nat

section Blocks

variable {β : Type}

/-- `blocks[i/blockSize][i%blockSize]`, nil past the blocks. -/
def slotOf (blocks : List (List (Option (Item β)))) (i : Nat) : Option (Item β) :=
  (blocks.getD (i / blockSize) []).getD (i % blockSize) none

/-- `blocks[i/blockSize][i%blockSize] = x`. -/
def setSlot (blocks : List (List (Option (Item β)))) (i : Nat) (x : Option (Item β)) :
    List (List (Option (Item β))) :=
  blocks.modify (i / blockSize) fun b => b.set (i % blockSize) x

/-- Every block has `blockSize` slots. -/
def Shaped (blocks : List (List (Option (Item β)))) : Prop :=
  ∀ b ∈ blocks, b.length = blockSize

theorem getD_set_of_lt {γ : Type} {b : List γ} {o : Nat} (ho : o < b.length) (x d : γ) (o' : Nat) :
    (b.set o x).getD o' d = if o = o' then x else b.getD o' d := by
  simp only [List.getD_eq_getElem?_getD, List.getElem?_set, ho, if_true]
  split_ifs <;> rfl

theorem getD_modify_of_lt {γ : Type} {l : List γ} {p : Nat} (hp : p < l.length) (f : γ → γ)
    (d : γ) (q : Nat) : (l.modify p f).getD q d = if p = q then f (l.getD p d) else l.getD q d := by
  simp only [List.getD_eq_getElem?_getD, List.getElem?_modify]
  by_cases hpq : p = q
  · subst hpq
    simp [List.getElem?_eq_getElem hp]
  · cases l[q]? <;> simp [hpq]

theorem Shaped.getD_length {blocks : List (List (Option (Item β)))} (hb : Shaped blocks)
    {p : Nat} (hp : p < blocks.length) : (blocks.getD p []).length = blockSize := by
  rw [List.getD_eq_getElem?_getD, List.getElem?_eq_getElem hp, Option.getD_some]
  exact hb _ (List.getElem_mem hp)

theorem Shaped.setSlot {blocks : List (List (Option (Item β)))} (hb : Shaped blocks) (i : Nat)
    (x : Option (Item β)) : Shaped (setSlot blocks i x) := by
  intro b hmem
  obtain ⟨p, hp, rfl⟩ := List.getElem_of_mem hmem
  simp only [Prque.setSlot, List.getElem_modify]
  split_ifs
  · rw [List.length_set]
    exact hb _ (List.getElem_mem _)
  · exact hb _ (List.getElem_mem _)

theorem length_setSlot (blocks : List (List (Option (Item β)))) (i : Nat) (x : Option (Item β)) :
    (setSlot blocks i x).length = blocks.length := List.length_modify _ _ _

/-- Get after set: writing slot `i` changes slot `i` and no other. -/
theorem slotOf_setSlot {blocks : List (List (Option (Item β)))} (hb : Shaped blocks) {i : Nat}
    (hi : i / blockSize < blocks.length) (x : Option (Item β)) (j : Nat) :
    slotOf (setSlot blocks i x) j = if j = i then x else slotOf blocks j := by
  have hlen := hb.getD_length hi
  have hmod : i % blockSize < (blocks.getD (i / blockSize) []).length := by
    rw [hlen, blockSize_eq]
    omega
  unfold slotOf Prque.setSlot
  rw [getD_modify_of_lt hi]
  by_cases hq : i / blockSize = j / blockSize
  · rw [if_pos hq, ← hq, getD_set_of_lt hmod]
    by_cases hr : i % blockSize = j % blockSize
    · have hji : j = i := by rw [blockSize_eq] at hq hr; omega
      simp [hr, hji]
    · have hji : j ≠ i := fun h => hr (h ▸ rfl)
      simp [hr, hji]
  · have hji : j ≠ i := fun h => hq (h ▸ rfl)
    simp [hq, hji]

/-- The slot `blockSize * a + o` is slot `o` of block `a`. -/
theorem slotOf_pos (blocks : List (List (Option (Item β)))) {o : Nat} (ho : o < blockSize)
    (a : Nat) : slotOf blocks (a * blockSize + o) = (blocks.getD a []).getD o none := by
  have hdiv : (a * blockSize + o) / blockSize = a := by rw [blockSize_eq] at *; omega
  have hmod : (a * blockSize + o) % blockSize = o := by rw [blockSize_eq] at *; omega
  rw [slotOf, hdiv, hmod]

theorem setSlot_pos (blocks : List (List (Option (Item β)))) {o : Nat} (ho : o < blockSize)
    (a : Nat) (x : Option (Item β)) :
    setSlot blocks (a * blockSize + o) x = blocks.modify a fun b => b.set o x := by
  have hdiv : (a * blockSize + o) / blockSize = a := by rw [blockSize_eq] at *; omega
  have hmod : (a * blockSize + o) % blockSize = o := by rw [blockSize_eq] at *; omega
  rw [setSlot, hdiv, hmod]

/-- A block appended after the others adds only nil slots. -/
theorem slotOf_append_nil (blocks : List (List (Option (Item β)))) (k : Nat) :
    slotOf (blocks ++ [List.replicate blockSize none]) k = slotOf blocks k := by
  unfold slotOf
  by_cases hk : k / blockSize < blocks.length
  · rw [List.getD_append _ _ _ _ hk]
  · have hnil : blocks.getD (k / blockSize) [] = [] := List.getD_eq_default _ _ (by omega)
    rw [hnil, List.getD_append_right _ _ _ _ (by omega)]
    by_cases hlast : k / blockSize - blocks.length = 0
    · simp only [hlast, List.getD_cons_zero]
      by_cases hm : k % blockSize < blockSize
      · exact List.getD_replicate none hm
      · exact List.getD_eq_default _ _ (by simpa using hm)
    · simp [List.getD_eq_getElem?_getD, hlast]

end Blocks

section Methods

variable {β : Type}

/-- Creates a new, empty stack. -/
def newSstack (setIndex : Bool) : Sstack β where
  setIndex := setIndex
  calls := []
  size := 0
  capacity := blockSize
  offset := 0
  blocks := [List.replicate blockSize none]
  active := 0

namespace Sstack

def slot (s : Sstack β) (i : Nat) : Option (Item β) := slotOf s.blocks i

/-- `s.setIndex(v, i)`, when a callback was given. -/
def report (s : Sstack β) (v : β) (i : Int) : Sstack β :=
  { s with calls := if s.setIndex then s.calls ++ [(v, i)] else s.calls }

/-- The callback call for the item in a slot. A nil slot is dereferenced by the source, so this
happens only outside `Holds`. -/
def reportSlot (s : Sstack β) (x : Option (Item β)) (i : Nat) : Sstack β :=
  match x with
  | some x => s.report x.value i
  | none => s

/-- The start of `Push`: a new block when the stack is full, the next one when the active block
is. -/
def grow (s : Sstack β) : Sstack β :=
  if s.size = s.capacity then
    { s with
      blocks := s.blocks ++ [List.replicate blockSize none]
      active := s.blocks.length
      capacity := s.capacity + blockSize
      offset := 0 }
  else if s.offset = blockSize then { s with active := s.size / blockSize, offset := 0 }
  else s

/-- The end of `Push`: the item goes into the active block at `offset`. -/
def put (s : Sstack β) (data : Item β) : Sstack β :=
  { s with
    blocks := s.blocks.modify s.active (fun b => b.set s.offset (some data))
    offset := s.offset + 1
    size := s.size + 1 }

/-- Pushes a value onto the stack, expanding it if necessary. -/
def Push (s : Sstack β) (data : Item β) : Sstack β :=
  (s.grow.report data.value s.size).put data

/-- The start of `Pop`: one slot back, to the end of the previous block below offset 0. -/
def shrink (s : Sstack β) : Sstack β :=
  if s.offset = 0 then
    { s with size := s.size - 1, offset := blockSize - 1, active := (s.size - 1) / blockSize }
  else { s with size := s.size - 1, offset := s.offset - 1 }

/-- The end of `Pop`: the item at `offset` in the active block is taken and its slot cleared. -/
def take (s : Sstack β) : Option (Item β × Sstack β) :=
  match (s.blocks.getD s.active []).getD s.offset none with
  | none => none
  | some res =>
    some (res, { s with blocks := s.blocks.modify s.active fun b => b.set s.offset none }.report
      res.value (-1))

/-- Pops a value off the stack and returns it. `container/heap` never pops an empty stack (its
`Swap(0, -1)` fails first); a nil slot is dereferenced by the callback or by the caller. -/
def Pop (s : Sstack β) : Option (Item β × Sstack β) :=
  if s.size = 0 then none else s.shrink.take

def Len (s : Sstack β) : Nat := s.size

/-- Compares the priority of two elements of the stack (higher is first). -/
def Less (s : Sstack β) (i j : Nat) : Bool :=
  match s.slot i, s.slot j with
  | some a, some b => a.priority - b.priority > 0
  | _, _ => false

/-- Swaps two elements in the stack. -/
def Swap (s : Sstack β) (i j : Nat) : Sstack β :=
  let a := s.slot j
  let b := s.slot i
  let s := (s.reportSlot a i).reportSlot b j
  { s with blocks := setSlot (setSlot s.blocks i a) j b }

/-- Resets the stack, effectively clearing its contents. -/
def Reset (s : Sstack β) : Sstack β := { newSstack s.setIndex with calls := s.calls }

end Sstack

/-- The order `Less` compares items by. -/
def Item.before (a b : Item β) : Bool := a.priority - b.priority > 0

/-- `sstack` as a `heap.Interface`. -/
def sstackIface : Iface (Sstack β) (Item β) where
  len := Sstack.Len
  less := Sstack.Less
  swap := Sstack.Swap
  push := Sstack.Push
  pop := Sstack.Pop

end Methods

/-! ## The stack holds a slice -/

section Holds

variable {β : Type}

/-- The blocks are well formed, `size`, `offset` and `active` agree, the first `size` slots hold
`l` and the others are nil. -/
structure Holds (s : Sstack β) (l : List (Item β)) : Prop where
  shaped : Shaped s.blocks
  capacity_eq : s.capacity = s.blocks.length * blockSize
  active_lt : s.active < s.blocks.length
  offset_le : s.offset ≤ blockSize
  size_eq : s.size = s.active * blockSize + s.offset
  length_eq : l.length = s.size
  slots : ∀ k, slotOf s.blocks k = l[k]?

theorem holds_newSstack (setIndex : Bool) : Holds (newSstack setIndex : Sstack β) [] where
  shaped := by simp [Shaped, newSstack]
  capacity_eq := by simp [newSstack]
  active_lt := by simp [newSstack]
  offset_le := by simp [newSstack]
  size_eq := by simp [newSstack]
  length_eq := rfl
  slots k := by
    have h := slotOf_append_nil ([] : List (List (Option (Item β)))) k
    rw [List.nil_append] at h
    rw [newSstack, List.getElem?_nil]
    exact h

theorem holds_Reset (s : Sstack β) : Holds s.Reset [] :=
  have h : Holds (newSstack s.setIndex : Sstack β) [] := holds_newSstack _
  ⟨h.shaped, h.capacity_eq, h.active_lt, h.offset_le, h.size_eq, h.length_eq, h.slots⟩

@[simp] theorem Sstack.reportSlot_blocks (s : Sstack β) (x : Option (Item β)) (i : Nat) :
    (s.reportSlot x i).blocks = s.blocks := by
  cases x <;> rfl

@[simp] theorem Sstack.reportSlot_setIndex (s : Sstack β) (x : Option (Item β)) (i : Nat) :
    (s.reportSlot x i).setIndex = s.setIndex := by
  cases x <;> rfl

@[simp] theorem Sstack.reportSlot_size (s : Sstack β) (x : Option (Item β)) (i : Nat) :
    (s.reportSlot x i).size = s.size := by
  cases x <;> rfl

/-- `Swap` moves items, never the size. -/
theorem Sstack.Swap_size (s : Sstack β) (i j : Nat) : (s.Swap i j).size = s.size := by
  simp [Sstack.Swap]

theorem Sstack.report_calls {s : Sstack β} (hset : s.setIndex = true) (v : β) (i : Int) :
    (s.report v i).calls = s.calls ++ [(v, i)] := by
  simp [Sstack.report, hset]

theorem Sstack.grow_calls (s : Sstack β) : s.grow.calls = s.calls ∧ s.grow.setIndex = s.setIndex := by
  unfold Sstack.grow
  split_ifs <;> exact ⟨rfl, rfl⟩

theorem Sstack.shrink_calls (s : Sstack β) :
    s.shrink.calls = s.calls ∧ s.shrink.setIndex = s.setIndex := by
  unfold Sstack.shrink
  split_ifs <;> exact ⟨rfl, rfl⟩

theorem getElem?_swap {α : Type} [Inhabited α] {l : List α} {i j : Nat} (hi : i < l.length)
    (hj : j < l.length) (k : Nat) :
    (MinHeap.swap l i j)[k]? = if k = j then l[i]? else if k = i then l[j]? else l[k]? := by
  have hvi : l[i]? = some (val l i) := by rw [List.getElem?_eq_getElem hi, val, List.getD_eq_getElem]
  have hvj : l[j]? = some (val l j) := by rw [List.getElem?_eq_getElem hj, val, List.getD_eq_getElem]
  simp only [MinHeap.swap, List.getElem?_set, List.length_set, hi, hj, if_true, hvi, hvj]
  by_cases hkj : k = j
  · simp [hkj]
  · by_cases hki : k = i
    · subst hki
      simp [hkj, Ne.symm hkj]
    · simp [Ne.symm hkj, Ne.symm hki, hkj, hki]

namespace Holds

variable {s : Sstack β} {l : List (Item β)}

/-- The callback's calls are no part of what the stack holds. -/
theorem report (h : Holds s l) (v : β) (i : Int) : Holds (s.report v i) l :=
  ⟨h.shaped, h.capacity_eq, h.active_lt, h.offset_le, h.size_eq, h.length_eq, h.slots⟩

theorem reportSlot (h : Holds s l) (x : Option (Item β)) (i : Nat) : Holds (s.reportSlot x i) l := by
  cases x with
  | none => exact h
  | some x => exact h.report x.value i

theorem div_lt (h : Holds s l) {k : Nat} (hk : k < s.size) : k / blockSize < s.blocks.length := by
  have h1 := h.size_eq
  have h2 := h.offset_le
  have h3 := h.active_lt
  rw [blockSize_eq] at *
  omega

theorem slot_of_lt [Inhabited β] (h : Holds s l) {k : Nat} (hk : k < l.length) : s.slot k = some (val l k) := by
  rw [Sstack.slot, h.slots, List.getElem?_eq_getElem hk, val, List.getD_eq_getElem]

theorem Less_eq [Inhabited β] (h : Holds s l) {i j : Nat} (hi : i < l.length) (hj : j < l.length) :
    s.Less i j = (val l i).before (val l j) := by
  rw [Sstack.Less, h.slot_of_lt hi, h.slot_of_lt hj]
  rfl

/-- A stack whose blocks are replaced by ones of the same shape holding `l'`. -/
theorem withBlocks (h : Holds s l) {blocks : List (List (Option (Item β)))} (hb : Shaped blocks)
    (hlen : blocks.length = s.blocks.length) {l' : List (Item β)} (hl : l'.length = l.length)
    (hslots : ∀ k, slotOf blocks k = l'[k]?) : Holds { s with blocks := blocks } l' where
  shaped := hb
  capacity_eq := hlen ▸ h.capacity_eq
  active_lt := hlen ▸ h.active_lt
  offset_le := h.offset_le
  size_eq := h.size_eq
  length_eq := hl.trans h.length_eq
  slots := hslots

theorem swap [Inhabited β] (h : Holds s l) {i j : Nat} (hi : i < l.length) (hj : j < l.length) :
    Holds (s.Swap i j) (MinHeap.swap l i j) := by
  have h2 := (h.reportSlot (s.slot j) i).reportSlot (s.slot i) j
  have hbi := h.div_lt (h.length_eq ▸ hi)
  have hbj := h.div_lt (h.length_eq ▸ hj)
  have hshape := h.shaped.setSlot i (s.slot j)
  refine h2.withBlocks ?_ ?_ (MinHeap.length_swap l i j) ?_
  · simpa using hshape.setSlot j (s.slot i)
  · simp [length_setSlot]
  · intro k
    have hbj' : j / blockSize < (setSlot s.blocks i (s.slot j)).length := by
      rwa [length_setSlot]
    simp only [Sstack.reportSlot_blocks]
    rw [slotOf_setSlot hshape hbj', slotOf_setSlot h.shaped hbi, getElem?_swap hi hj]
    simp only [Sstack.slot, h.slots]

/-- `Push` appends a block when the stack is full. -/
theorem addBlock (h : Holds s l) (hfull : s.size = s.capacity) :
    Holds { s with
      blocks := s.blocks ++ [List.replicate blockSize none]
      active := s.blocks.length
      capacity := s.capacity + blockSize
      offset := 0 } l where
  shaped b hb := by
    rcases List.mem_append.1 hb with hb | hb
    · exact h.shaped b hb
    · rw [List.mem_singleton.1 hb, List.length_replicate]
  capacity_eq := by
    simp only [List.length_append, List.length_singleton, Nat.succ_mul, h.capacity_eq]
  active_lt := by simp
  offset_le := Nat.zero_le _
  size_eq := by simp [hfull, h.capacity_eq]
  length_eq := h.length_eq
  slots k := by
    rw [slotOf_append_nil, h.slots]

/-- `Push` moves on to the next block when the active one is full and the stack is not. -/
theorem nextBlock (h : Holds s l) (hfull : s.size ≠ s.capacity) (hoff : s.offset = blockSize) :
    Holds { s with active := s.size / blockSize, offset := 0 } l where
  shaped := h.shaped
  capacity_eq := h.capacity_eq
  active_lt := by
    have h1 := h.size_eq
    have h2 := h.capacity_eq
    have h3 := h.active_lt
    simp only [blockSize_eq] at h1 h2 hoff ⊢
    omega
  offset_le := Nat.zero_le _
  size_eq := by
    have h1 := h.size_eq
    show s.size = s.size / blockSize * blockSize + 0
    simp only [blockSize_eq] at h1 hoff ⊢
    have hdiv : s.size / 4096 = s.active + 1 := by omega
    rw [hdiv, Nat.add_zero, h1, hoff, Nat.succ_mul]
  length_eq := h.length_eq
  slots := h.slots

theorem grow (h : Holds s l) : Holds s.grow l ∧ s.grow.offset < blockSize := by
  unfold Sstack.grow
  split_ifs with hfull hoff
  · exact ⟨h.addBlock hfull, by simp [blockSize]⟩
  · exact ⟨h.nextBlock hfull hoff, by simp [blockSize]⟩
  · exact ⟨h, lt_of_le_of_ne h.offset_le hoff⟩

theorem put (h : Holds s l) (ho : s.offset < blockSize) (x : Item β) :
    Holds (s.put x) (l ++ [x]) where
  shaped := by
    simpa only [Sstack.put, h.size_eq, setSlot_pos _ ho] using h.shaped.setSlot s.size (some x)
  capacity_eq := by simpa [Sstack.put] using h.capacity_eq
  active_lt := by simpa [Sstack.put] using h.active_lt
  offset_le := ho
  size_eq := by simp [Sstack.put, h.size_eq, Nat.add_assoc]
  length_eq := by simp [Sstack.put, h.length_eq]
  slots k := by
    have hb : s.size / blockSize < s.blocks.length := by
      have h1 := h.size_eq
      have h3 := h.active_lt
      simp only [blockSize_eq] at h1 ho ⊢
      omega
    have hl := h.length_eq
    have hput : (s.put x).blocks = setSlot s.blocks s.size (some x) := by
      rw [Sstack.put, h.size_eq, setSlot_pos _ ho]
    rw [hput, slotOf_setSlot h.shaped hb, List.getElem?_append, h.length_eq]
    rcases Nat.lt_trichotomy k s.size with hk | rfl | hk
    · simp [hk, Nat.ne_of_lt hk, h.slots]
    · simp
    · have hnone : slotOf s.blocks k = none := by
        rw [h.slots, List.getElem?_eq_none (by omega)]
      simp [Nat.ne_of_gt hk, Nat.not_lt_of_gt hk, hnone]
      omega

theorem push (h : Holds s l) (x : Item β) : Holds (s.Push x) (l ++ [x]) := by
  obtain ⟨hg, ho⟩ := h.grow
  exact (hg.report x.value s.size).put ho x

/-- What `Pop` sees after stepping back one slot. -/
theorem shrink (h : Holds s l) (hne : 0 < s.size) :
    s.shrink.blocks = s.blocks ∧ s.shrink.capacity = s.capacity ∧ s.shrink.size = s.size - 1 ∧
      s.shrink.offset < blockSize ∧ s.shrink.size = s.shrink.active * blockSize + s.shrink.offset ∧
      s.shrink.active < s.blocks.length := by
  have h1 := h.size_eq
  have h2 := h.offset_le
  have h3 := h.active_lt
  unfold Sstack.shrink
  simp only [blockSize_eq] at h1 h2 ⊢
  split_ifs with hoff
  · refine ⟨rfl, rfl, rfl, by dsimp only; omega, ?_, ?_⟩
    · have hdiv : (s.size - 1) / 4096 = s.active - 1 := by omega
      dsimp only
      rw [hdiv]
      omega
    · dsimp only
      omega
  · refine ⟨rfl, rfl, rfl, ?_, ?_, ?_⟩ <;> dsimp only <;> omega

theorem pop [Inhabited β] (h : Holds s l) (hne : l ≠ []) :
    ∃ s', s.Pop = some (val l (l.length - 1), s') ∧ Holds s' l.dropLast := by
  have hlen : 0 < l.length := List.length_pos_of_ne_nil hne
  have hsize : 0 < s.size := h.length_eq ▸ hlen
  obtain ⟨hblocks, hcap, hsz, ho, hpos, hact⟩ := h.shrink hsize
  have hread : (s.shrink.blocks.getD s.shrink.active []).getD s.shrink.offset none =
      some (val l (l.length - 1)) := by
    rw [← slotOf_pos _ ho, ← hpos, hsz, hblocks, h.slots, ← h.length_eq,
      List.getElem?_eq_getElem (by omega), val, List.getD_eq_getElem]
  have hb : (s.size - 1) / blockSize < s.blocks.length := h.div_lt (by omega)
  have hclear : s.shrink.blocks.modify s.shrink.active (fun b => b.set s.shrink.offset none) =
      setSlot s.blocks (s.size - 1) none := by
    rw [← setSlot_pos _ ho, ← hpos, hsz, hblocks]
  refine ⟨_, by rw [Sstack.Pop, if_neg (by omega), Sstack.take, hread], ?_⟩
  refine ⟨?_, ?_, ?_, ?_, ?_, ?_, ?_⟩
  · simpa only [Sstack.report, hclear] using h.shaped.setSlot (s.size - 1) none
  · simp only [Sstack.report, hclear, length_setSlot, hcap, h.capacity_eq]
  · simp only [Sstack.report, hclear, length_setSlot, hact]
  · exact ho.le
  · exact hpos
  · simp only [Sstack.report, List.length_dropLast, h.length_eq, hsz]
  · intro k
    simp only [Sstack.report, hclear, slotOf_setSlot h.shaped hb, List.getElem?_dropLast,
      h.length_eq]
    have hl := h.length_eq
    by_cases hk : k = s.size - 1
    · simp [hk]
    · simp only [hk, if_false, h.slots]
      by_cases hk' : k < s.size - 1
      · simp [hk']
      · rw [if_neg hk', List.getElem?_eq_none (by omega)]

end Holds

/-- `sstack` is a `heap.Interface` whose methods act on the slice it holds as a slice's do. -/
theorem refines [Inhabited β] :
    Refines (sstackIface : Iface (Sstack β) (Item β)) Item.before Holds where
  len _ _ h := h.length_eq.symm
  less _ _ _ _ h hi hj := h.Less_eq hi hj
  swap _ _ _ _ h hi hj := h.swap hi hj
  push _ _ x h := h.push x
  pop _ _ h hne := h.pop hne

end Holds

/-! ## The index callback -/

section Tracks

variable {β : Type} [DecidableEq β]

/-- The index last reported to the callback for the value `v`. -/
def lastIndex (calls : List (β × Int)) (v : β) : Option Int :=
  ((calls.filter fun c => c.1 = v).getLast?).map Prod.snd

theorem lastIndex_append (calls : List (β × Int)) (w : β) (i : Int) (v : β) :
    lastIndex (calls ++ [(w, i)]) v = if w = v then some i else lastIndex calls v := by
  by_cases hw : w = v
  · simp [lastIndex, hw]
  · simp [lastIndex, hw]

/-- For every element of `l`, the index last reported for its value is its position. -/
def Tracks (calls : List (β × Int)) (l : List (Item β)) : Prop :=
  ∀ (k : Nat) (x : Item β), l[k]? = some x → lastIndex calls x.value = some (k : Int)

namespace Tracks

variable {calls : List (β × Int)} {l : List (Item β)}

/-- Under `Tracks` no two elements share a value. -/
theorem unique (ht : Tracks calls l) {k k' : Nat} {x x' : Item β} (hk : l[k]? = some x)
    (hk' : l[k']? = some x') (hv : x.value = x'.value) : k = k' := by
  have h1 := ht k x hk
  rw [hv, ht k' x' hk'] at h1
  exact_mod_cast (Option.some.inj h1).symm

theorem swap [Inhabited β] (ht : Tracks calls l) {i j : Nat} (hi : i < l.length) (hj : j < l.length) :
    Tracks ((calls ++ [((val l j).value, (i : Int))]) ++ [((val l i).value, (j : Int))])
      (MinHeap.swap l i j) := by
  have hvi : l[i]? = some (val l i) := by rw [List.getElem?_eq_getElem hi, val, List.getD_eq_getElem]
  have hvj : l[j]? = some (val l j) := by rw [List.getElem?_eq_getElem hj, val, List.getD_eq_getElem]
  intro k x hk
  rw [getElem?_swap hi hj] at hk
  rw [lastIndex_append, lastIndex_append]
  by_cases hkj : k = j
  · rw [if_pos hkj, hvi] at hk
    cases hk
    simp [hkj]
  by_cases hki : k = i
  · rw [if_neg hkj, if_pos hki, hvj] at hk
    cases hk
    have hne : (val l i).value ≠ (val l j).value := fun hv =>
      hkj (hki.trans (ht.unique hvi hvj hv))
    simp [hne, hki]
  · rw [if_neg hkj, if_neg hki] at hk
    have hne_i : (val l i).value ≠ x.value := fun hv => hki (ht.unique hvi hk hv).symm
    have hne_j : (val l j).value ≠ x.value := fun hv => hkj (ht.unique hvj hk hv).symm
    simp only [hne_i, hne_j, if_false]
    exact ht k x hk

theorem push (ht : Tracks calls l) {x : Item β} (hfresh : ∀ y ∈ l, y.value ≠ x.value) :
    Tracks (calls ++ [(x.value, (l.length : Int))]) (l ++ [x]) := by
  intro k y hk
  rw [lastIndex_append]
  rw [List.getElem?_append] at hk
  by_cases hkl : k < l.length
  · rw [if_pos hkl] at hk
    have hne : x.value ≠ y.value := fun hv => hfresh y (List.mem_of_getElem? hk) hv.symm
    rw [if_neg hne]
    exact ht k y hk
  · rw [if_neg hkl] at hk
    have hk0 : k - l.length = 0 := by
      by_contra hpos
      rw [List.getElem?_eq_none (by simp; omega)] at hk
      cases hk
    rw [hk0] at hk
    cases hk
    simp only [if_true]
    congr
    omega

theorem pop [Inhabited β] (ht : Tracks calls l) (hne : l ≠ []) :
    Tracks (calls ++ [((val l (l.length - 1)).value, -1)]) l.dropLast := by
  have hlen : 0 < l.length := List.length_pos_of_ne_nil hne
  have hlast : l[l.length - 1]? = some (val l (l.length - 1)) := by
    rw [List.getElem?_eq_getElem (by omega), val, List.getD_eq_getElem]
  intro k y hk
  rw [List.getElem?_dropLast] at hk
  by_cases hkl : k < l.length - 1
  · rw [if_pos hkl] at hk
    have hne' : (val l (l.length - 1)).value ≠ y.value := fun hv =>
      Nat.ne_of_gt hkl (ht.unique hlast hk hv)
    rw [lastIndex_append, if_neg hne']
    exact ht k y hk
  · rw [if_neg hkl] at hk
    cases hk

end Tracks

/-- A callback was given and `Tracks` holds of the slots. -/
def Sstack.Tracked (s : Sstack β) : Prop :=
  s.setIndex = true ∧
    ∀ (k : Nat) (x : Item β), slotOf s.blocks k = some x → lastIndex s.calls x.value = some (k : Int)

namespace Holds

variable {s : Sstack β} {l : List (Item β)}

theorem tracked_iff (h : Holds s l) : s.Tracked ↔ s.setIndex = true ∧ Tracks s.calls l := by
  simp only [Sstack.Tracked, Tracks, h.slots]

theorem tracked_swap [Inhabited β] (h : Holds s l) {i j : Nat} (hi : i < l.length)
    (hj : j < l.length) (ht : s.Tracked) : (s.Swap i j).Tracked := by
  rw [h.tracked_iff] at ht
  rw [(h.swap hi hj).tracked_iff]
  have hcalls : (s.Swap i j).calls =
      (s.calls ++ [((val l j).value, (i : Int))]) ++ [((val l i).value, (j : Int))] := by
    simp [Sstack.Swap, Sstack.slot, h.slots, List.getElem?_eq_getElem hi, List.getElem?_eq_getElem hj,
      Sstack.reportSlot, Sstack.report, ht.1, val]
  refine ⟨?_, hcalls ▸ ht.2.swap hi hj⟩
  simpa [Sstack.Swap] using ht.1

theorem tracked_push (h : Holds s l) (ht : s.Tracked) {x : Item β}
    (hfresh : ∀ y ∈ l, y.value ≠ x.value) : (s.Push x).Tracked := by
  rw [h.tracked_iff] at ht
  rw [(h.push x).tracked_iff]
  obtain ⟨hgc, hgs⟩ := s.grow_calls
  have hcalls : (s.Push x).calls = s.calls ++ [(x.value, (l.length : Int))] := by
    rw [Sstack.Push, Sstack.put, Sstack.report_calls (hgs.trans ht.1), hgc, h.length_eq]
  refine ⟨?_, hcalls ▸ ht.2.push hfresh⟩
  simpa [Sstack.Push, Sstack.put, Sstack.report, hgs] using ht.1

theorem tracked_pop [Inhabited β] (h : Holds s l) (hne : l ≠ []) (ht : s.Tracked)
    {r : Item β × Sstack β} (hpop : s.Pop = some r) : r.2.Tracked := by
  obtain ⟨s', hs', hh⟩ := h.pop hne
  rw [hs'] at hpop
  cases hpop
  rw [h.tracked_iff] at ht
  rw [hh.tracked_iff]
  have hsize : s.size ≠ 0 := by
    rw [← h.length_eq]
    exact Nat.pos_iff_ne_zero.1 (List.length_pos_of_ne_nil hne)
  obtain ⟨hsc, hss⟩ := s.shrink_calls
  have hdef : s.Pop = s.shrink.take := by rw [Sstack.Pop, if_neg hsize]
  rw [hdef, Sstack.take] at hs'
  split at hs'
  · cases hs'
  · cases hs'
    refine ⟨by simp [Sstack.report, hss, ht.1], ?_⟩
    rw [Sstack.report_calls (by simp [hss, ht.1])]
    exact hsc ▸ ht.2.pop hne

end Holds

end Tracks

end Ccmchain.Prque
