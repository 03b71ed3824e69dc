import Ccmchain.Common.Sstack

/-!
# The priority queue (`common/prque/prque.go`)

`Prque` runs `container/heap` on an `sstack`, with `Less` putting the item of higher priority
first. Priorities are `int64`s compared by `a - b > 0` with wrap-around, which orders them as
long as the queue's priorities lie in a half circle (`Windowed`): above some `lo`, by less than
2^63. There the wrap-around comparison is the order of the offsets from `lo` (`sub_pos_iff`),
so the heap lemmas of `Lib.HeapIface` apply through `Sstack.refines`.

`Run` is the queue's runs from `New`: `Push` under a guard on the queue and the pushed item,
`Pop` and `PopItem` (one `heap.Pop`), `Remove` and `Reset`. Along every run the stack stays a
heap of what was pushed and has not left, and with a callback and a guard that keeps values
distinct the index last reported for each value is the position of its item.
-/

namespace Ccmchain.Prque

open MinHeap (val)
open HeapIface (Iface Refines IsHeapBy RankedOn listIface)

set_option linter.dupNamespace false

/-! ## The wrap-around order -/

/-- How far `p` lies above `lo` on the circle of `int64` values. -/
def offsetFrom (lo p : Int64) : Int := (p.toInt - lo.toInt) % 2 ^ 64

theorem offsetFrom_nonneg (lo p : Int64) : 0 ≤ offsetFrom lo p := Int.emod_nonneg _ (by norm_num)

/-- Within a half circle above `lo` the wrapped difference is the difference of the offsets. -/
theorem sub_toInt_of_window {lo a b : Int64} (ha : offsetFrom lo a < 2 ^ 63)
    (hb : offsetFrom lo b < 2 ^ 63) : (a - b).toInt = offsetFrom lo a - offsetFrom lo b := by
  have hcong : (a.toInt - b.toInt) % ((2 ^ 64 : Nat) : Int) =
      (offsetFrom lo a - offsetFrom lo b) % ((2 ^ 64 : Nat) : Int) := by
    unfold offsetFrom
    push_cast
    omega
  have ha0 := offsetFrom_nonneg lo a
  have hb0 := offsetFrom_nonneg lo b
  rw [Int64.toInt_sub, ← Int.emod_bmod, hcong, Int.emod_bmod]
  exact Int.bmod_eq_of_le (by norm_num; omega) (by norm_num; omega)

theorem sub_pos_iff {lo a b : Int64} (ha : offsetFrom lo a < 2 ^ 63)
    (hb : offsetFrom lo b < 2 ^ 63) : a - b > 0 ↔ offsetFrom lo b < offsetFrom lo a := by
  rw [gt_iff_lt, Int64.lt_iff_toInt_lt, Int64.toInt_zero, sub_toInt_of_window ha hb]
  omega

section Window

variable {β : Type}

/-- The priorities of `l` lie in a half circle: the gap between the lowest and the highest,
going up, is below 2^63. -/
def Windowed (l : List (Item β)) : Prop :=
  ∃ lo : Int64, ∀ x ∈ l, offsetFrom lo x.priority < 2 ^ 63

theorem Windowed.mono {l l' : List (Item β)} (hw : Windowed l) (hsub : l' ⊆ l) : Windowed l' := by
  obtain ⟨lo, hlo⟩ := hw
  exact ⟨lo, fun x hx => hlo x (hsub hx)⟩

/-- In a window, `before` ranks items by their offset from its bottom, highest first. -/
theorem Windowed.ranked {l : List (Item β)} (hw : Windowed l) :
    ∃ rank : Item β → Int, RankedOn Item.before rank l := by
  obtain ⟨lo, hlo⟩ := hw
  refine ⟨fun x => -offsetFrom lo x.priority, fun a ha b hb => ?_⟩
  rw [Item.before, decide_eq_decide, sub_pos_iff (hlo a ha) (hlo b hb)]
  dsimp only
  omega

end Window

/-! ## The queue -/

/-- Priority queue data structure. -/
structure Prque (β : Type) where
  cont : Sstack β

section Queue

variable {β : Type} [Inhabited β]

/-- Creates a new priority queue. -/
def New (setIndex : Bool) : Prque β := ⟨newSstack setIndex⟩

namespace Prque

/-- Pushes a value with a given priority into the queue, expanding if necessary. -/
def Push (p : Prque β) (data : β) (priority : Int64) : Prque β :=
  ⟨HeapIface.push sstackIface p.cont ⟨data, priority⟩⟩

/-- Peek returns the value with the greatest priority but does not pop it off. The slot it reads
is nil in an empty queue, which the source dereferences. -/
def Peek (p : Prque β) : Option (β × Int64) :=
  (slotOf p.cont.blocks 0).map fun item => (item.value, item.priority)

/-- `heap.Pop(p.cont)`, shared by `Pop` and `PopItem`. -/
def heapPop (p : Prque β) : Option (Item β × Prque β) :=
  (HeapIface.pop sstackIface p.cont).map fun r => (r.1, ⟨r.2⟩)

/-- Pops the value with the greatest priority off the stack and returns it. -/
def Pop (p : Prque β) : Option ((β × Int64) × Prque β) :=
  p.heapPop.map fun r => ((r.1.value, r.1.priority), r.2)

/-- Pops only the item from the queue, dropping the associated priority value. -/
def PopItem (p : Prque β) : Option (β × Prque β) :=
  p.heapPop.map fun r => (r.1.value, r.2)

/-- Remove removes the element with the given index and returns it (nil for a negative index).
An index past the end reaches a nil slot or a missing block in `Swap`, which the source
dereferences: the model stops there. -/
def Remove (p : Prque β) (i : Int) : Option (Option (Item β) × Prque β) :=
  if i < 0 then some (none, p)
  else if i.toNat < p.cont.Len then
    (HeapIface.remove sstackIface p.cont i.toNat).map fun r => (some r.1, ⟨r.2⟩)
  else none

/-- Checks whether the priority queue is empty. -/
def Empty (p : Prque β) : Bool := p.cont.Len == 0

/-- Returns the number of element in the priority queue. -/
def Size (p : Prque β) : Nat := p.cont.Len

/-- Clears the contents of the priority queue. The calls already made to the callback stay. -/
def Reset (p : Prque β) : Prque β := ⟨{ newSstack p.cont.setIndex with calls := p.cont.calls }⟩

/-- The items in the queue, in heap order. -/
def elems (p : Prque β) : List (Item β) :=
  (List.range p.cont.size).map fun k => (slotOf p.cont.blocks k).getD default

end Prque

theorem Holds.elems_eq {p : Prque β} {l : List (Item β)} (h : Holds p.cont l) : p.elems = l := by
  apply List.ext_getElem
  · simp [Prque.elems, h.length_eq]
  · intro k hk hkl
    simp [Prque.elems, h.slots, List.getElem?_eq_getElem hkl]

/-- A queue is sound when its stack holds a heap. -/
structure Prque.Sound (p : Prque β) : Prop where
  holds : Holds p.cont p.elems
  heap : IsHeapBy Item.before p.elems

theorem sound_New (setIndex : Bool) : (New setIndex : Prque β).Sound := by
  have h : Holds (New setIndex : Prque β).cont [] := holds_newSstack setIndex
  refine ⟨h.elems_eq ▸ h, ?_⟩
  rw [h.elems_eq]
  intro c hc hlt
  simp at hlt

theorem sound_Reset (p : Prque β) : p.Reset.Sound := by
  have h : Holds p.Reset.cont [] := holds_Reset p.cont
  refine ⟨h.elems_eq ▸ h, ?_⟩
  rw [h.elems_eq]
  intro c hc hlt
  simp at hlt

namespace Prque.Sound

variable {p : Prque β}

/-- `Push` adds the item to the heap. -/
theorem push (hp : p.Sound) {v : β} {prio : Int64} (hw : Windowed (p.elems ++ [⟨v, prio⟩])) :
    (p.Push v prio).Sound ∧ (p.Push v prio).elems.Perm (p.elems ++ [⟨v, prio⟩]) := by
  obtain ⟨rank, hr⟩ := hw.ranked
  obtain ⟨hheap, hperm⟩ := HeapIface.push_spec hp.heap hr
  have hh : Holds (p.Push v prio).cont (HeapIface.push (listIface Item.before) p.elems ⟨v, prio⟩) :=
    refines.rep_push hp.holds _
  rw [hh.elems_eq]
  exact ⟨⟨hh.elems_eq ▸ hh, hh.elems_eq ▸ hheap⟩, hperm⟩

/-- `heap.Pop` on a non-empty queue returns its root and leaves a heap of the rest. -/
theorem heapPop (hp : p.Sound) (hw : Windowed p.elems) (hne : p.elems ≠ []) :
    ∃ q, p.heapPop = some (val p.elems 0, q) ∧ q.Sound ∧ (val p.elems 0 :: q.elems).Perm p.elems := by
  obtain ⟨rank, hr⟩ := hw.ranked
  obtain ⟨t, ht, hheap, hperm⟩ := HeapIface.pop_spec hp.heap hr hne
  obtain ⟨c, hc, hh⟩ := refines.rep_pop hp.holds ht
  refine ⟨⟨c⟩, by simp [Prque.heapPop, hc], ?_, ?_⟩
  · exact ⟨(hh.elems_eq (p := ⟨c⟩)) ▸ hh, (hh.elems_eq (p := ⟨c⟩)) ▸ hheap⟩
  · rw [hh.elems_eq (p := ⟨c⟩)]
    exact hperm

/-- `Remove(i)` for a position of the queue removes the item there and leaves a heap. -/
theorem remove (hp : p.Sound) (hw : Windowed p.elems) {i : Nat} (hi : i < p.elems.length) :
    ∃ q, p.Remove i = some (some (val p.elems i), q) ∧ q.Sound ∧
      (val p.elems i :: q.elems).Perm p.elems := by
  obtain ⟨rank, hr⟩ := hw.ranked
  obtain ⟨t, ht, hheap, hperm⟩ := HeapIface.remove_spec hp.heap hr hi
  obtain ⟨c, hc, hh⟩ := refines.rep_remove hp.holds hi ht
  have hlen : i < p.cont.Len := by
    show i < p.cont.size
    rw [← hp.holds.length_eq]
    exact hi
  refine ⟨⟨c⟩, ?_, ?_, ?_⟩
  · simp [Prque.Remove, hlen, hc]
  · exact ⟨(hh.elems_eq (p := ⟨c⟩)) ▸ hh, (hh.elems_eq (p := ⟨c⟩)) ▸ hheap⟩
  · rw [hh.elems_eq (p := ⟨c⟩)]
    exact hperm

/-- No item of the queue comes before its root. -/
theorem root_first (hp : p.Sound) (hw : Windowed p.elems) {y : Item β} (hy : y ∈ p.elems) :
    y.before (val p.elems 0) = false := by
  obtain ⟨rank, hr⟩ := hw.ranked
  exact HeapIface.root_min hp.heap hr hy

/-- `Peek` reads the root. -/
theorem peek (hp : p.Sound) (hne : p.elems ≠ []) :
    p.Peek = some ((val p.elems 0).value, (val p.elems 0).priority) := by
  show (p.cont.slot 0).map _ = _
  rw [hp.holds.slot_of_lt (List.length_pos_of_ne_nil hne)]
  rfl

/-- `heap.Pop` on an empty queue fails: the source's `Swap(0, -1)` panics, the model's `Pop`
finds size 0. -/
theorem heapPop_eq_none (hp : p.Sound) (he : p.elems = []) : p.heapPop = none := by
  have hs : p.cont.size = 0 := by rw [← hp.holds.length_eq, he, List.length_nil]
  have hlen : sstackIface.len p.cont - 1 = 0 := by
    show p.cont.size - 1 = 0
    rw [hs]
  have hd : HeapIface.downLoop sstackIface (sstackIface.swap p.cont 0 0) 0 0 =
      (sstackIface.swap p.cont 0 0, 0) := by
    rw [HeapIface.downLoop.eq_1, if_pos (Nat.zero_le _)]
  have hpop : sstackIface.pop (sstackIface.swap p.cont 0 0) = none := by
    show (p.cont.Swap 0 0).Pop = none
    rw [Sstack.Pop, if_pos (by rw [Sstack.Swap_size, hs])]
  simp only [Prque.heapPop, HeapIface.pop, HeapIface.down, hlen, hd, hpop, Option.map_none]

/-- Every `Pop` of a queue returns an item that no item of the queue comes before. -/
theorem pop_first (hp : p.Sound) (hw : Windowed p.elems) {v : β} {prio : Int64} {q : Prque β}
    (hpop : p.Pop = some ((v, prio), q)) : ∀ y ∈ p.elems, ¬ y.priority - prio > 0 := by
  intro y hy
  have hne : p.elems ≠ [] := List.ne_nil_of_mem hy
  obtain ⟨q', hq', -, -⟩ := hp.heapPop hw hne
  simp only [Prque.Pop, hq', Option.map_some, Option.some.injEq, Prod.mk.injEq] at hpop
  have hfirst := hp.root_first hw hy
  rw [← hpop.1.2] 
  simpa [Item.before] using hfirst

end Prque.Sound

/-! ### Without the window

Priorities that do not fit one half-circle of `int64` leave the heap order to chance, but `Push`
and `heap.Pop` still only add and take items: they permute the stack's slots whatever `Less`
answers. -/

/-- A queue whose stack holds the items it lists. -/
def Prque.WellFormed (p : Prque β) : Prop := Holds p.cont p.elems

namespace Prque.WellFormed

variable {p : Prque β}

theorem of_new (setIndex : Bool) : (New setIndex : Prque β).WellFormed := (sound_New setIndex).holds

theorem push (hp : p.WellFormed) (v : β) (prio : Int64) :
    (p.Push v prio).WellFormed ∧ (p.Push v prio).elems.Perm (p.elems ++ [⟨v, prio⟩]) := by
  have hh : Holds (p.Push v prio).cont (HeapIface.push (listIface Item.before) p.elems ⟨v, prio⟩) :=
    refines.rep_push hp _
  rw [WellFormed, hh.elems_eq]
  exact ⟨hh, HeapIface.push_perm _ _ _⟩

theorem heapPop (hp : p.WellFormed) (hne : p.elems ≠ []) :
    ∃ q, p.heapPop = some (val p.elems 0, q) ∧ q.WellFormed ∧
      (val p.elems 0 :: q.elems).Perm p.elems := by
  obtain ⟨t, ht, hperm⟩ := HeapIface.pop_perm Item.before hne
  obtain ⟨c, hc, hh⟩ := refines.rep_pop hp ht
  have he : (⟨c⟩ : Prque β).elems = t := hh.elems_eq
  refine ⟨⟨c⟩, by simp [Prque.heapPop, hc], ?_, ?_⟩
  · rw [WellFormed, he]
    exact hh
  · rw [he]
    exact hperm

theorem empty_iff (hp : p.WellFormed) : p.Empty = true ↔ p.elems = [] := by
  rw [Prque.Empty, beq_iff_eq, ← List.length_eq_zero_iff, hp.length_eq]
  rfl

end Prque.WellFormed

end Queue

/-! ## The index callback over the queue's operations -/

section Index

variable {β : Type} [DecidableEq β] {p : Prque β}

theorem tracked_New : (New true : Prque β).cont.Tracked := by
  have h : Holds (New true : Prque β).cont [] := holds_newSstack true
  refine ⟨rfl, fun k x hk => ?_⟩
  rw [h.slots, List.getElem?_nil] at hk
  cases hk

theorem tracked_Reset (ht : p.cont.Tracked) : p.Reset.cont.Tracked := by
  have h : Holds p.Reset.cont [] := holds_Reset p.cont
  refine ⟨ht.1, fun k x hk => ?_⟩
  rw [h.slots, List.getElem?_nil] at hk
  cases hk

variable [Inhabited β]

theorem tracked_swap_of_holds : ∀ (s : Sstack β) (l : List (Item β)) (i j : Nat), Holds s l →
    i < l.length → j < l.length → s.Tracked → (sstackIface.swap s i j).Tracked :=
  fun _ _ _ _ h hi hj ht => h.tracked_swap hi hj ht

theorem tracked_pop_of_holds : ∀ (s : Sstack β) (l : List (Item β)), Holds s l → l ≠ [] →
    s.Tracked → ∀ r, sstackIface.pop s = some r → r.2.Tracked :=
  fun _ _ h hne ht _ hr => h.tracked_pop hne ht hr

namespace Prque.Sound

theorem tracked_push (hp : p.Sound) (ht : p.cont.Tracked) {v : β} {prio : Int64}
    (hfresh : ∀ y ∈ p.elems, y.value ≠ v) : (p.Push v prio).cont.Tracked :=
  HeapIface.keeps_push refines (P := Sstack.Tracked) tracked_swap_of_holds hp.holds _
    (hp.holds.tracked_push ht hfresh)

theorem tracked_heapPop (hp : p.Sound) (ht : p.cont.Tracked) {x : Item β} {q : Prque β}
    (hpop : p.heapPop = some (x, q)) : q.cont.Tracked := by
  have hne : p.elems ≠ [] := fun he => by simp [hp.heapPop_eq_none he] at hpop
  obtain ⟨r, hr, hrq⟩ := Option.map_eq_some_iff.1 hpop
  cases hrq
  exact HeapIface.keeps_pop refines (P := Sstack.Tracked) tracked_swap_of_holds
    tracked_pop_of_holds hp.holds hne ht hr

theorem tracked_remove (hp : p.Sound) (ht : p.cont.Tracked) {i : Int} {r : Option (Item β)}
    {q : Prque β} (hrem : p.Remove i = some (r, q)) : q.cont.Tracked := by
  unfold Prque.Remove at hrem
  split_ifs at hrem with hneg hlt
  · cases hrem
    exact ht
  · obtain ⟨r', hr', hrq⟩ := Option.map_eq_some_iff.1 hrem
    cases hrq
    have hi : i.toNat < p.elems.length := by
      rw [hp.holds.length_eq]
      exact hlt
    exact HeapIface.keeps_remove refines (P := Sstack.Tracked) tracked_swap_of_holds
      tracked_pop_of_holds hp.holds hi ht hr'

end Prque.Sound

end Index

/-! ## Runs -/

section Runs

variable {β : Type} [Inhabited β]

/-- The runs of a queue made by `New setIndex`. Each `Push` is made under `ok`, on the items in
the queue and the pushed item; `Pop` and `PopItem` both make one `heap.Pop`. `pushed` lists the
items pushed and `left` those that left: returned by `Pop`, `PopItem` or `Remove`, or cleared by
`Reset`. A call that fails ends the run. -/
inductive Run (setIndex : Bool) (ok : List (Item β) → Item β → Prop) :
    Prque β → List (Item β) → List (Item β) → Prop
  | new : Run setIndex ok (New setIndex) [] []
  | push {p pushed left} (v : β) (priority : Int64) : Run setIndex ok p pushed left →
      ok p.elems ⟨v, priority⟩ → Run setIndex ok (p.Push v priority) (pushed ++ [⟨v, priority⟩]) left
  | pop {p pushed left x q} : Run setIndex ok p pushed left → p.heapPop = some (x, q) →
      Run setIndex ok q pushed (left ++ [x])
  | remove {p pushed left r q} (i : Int) : Run setIndex ok p pushed left →
      p.Remove i = some (r, q) → Run setIndex ok q pushed (left ++ r.toList)
  | reset {p pushed left} : Run setIndex ok p pushed left →
      Run setIndex ok p.Reset pushed (left ++ p.elems)

/-- What the queue holds along a run: a heap in a window, of what was pushed and has not left. -/
structure RunInv (p : Prque β) (pushed left : List (Item β)) : Prop where
  sound : p.Sound
  windowed : Windowed p.elems
  conserved : pushed.Perm (left ++ p.elems)

theorem runInv_New (setIndex : Bool) : RunInv (New setIndex : Prque β) [] [] := by
  have h : Holds (New setIndex : Prque β).cont [] := holds_newSstack setIndex
  refine ⟨sound_New setIndex, ⟨0, ?_⟩, ?_⟩ <;> rw [h.elems_eq]
  · simp
  · rfl

theorem runInv_Reset {p : Prque β} {pushed left : List (Item β)} (hi : RunInv p pushed left) :
    RunInv p.Reset pushed (left ++ p.elems) := by
  have h : Holds p.Reset.cont [] := holds_Reset p.cont
  refine ⟨sound_Reset p, ⟨0, ?_⟩, ?_⟩ <;> rw [h.elems_eq]
  · simp
  · simpa using hi.conserved

section Window

variable {ok : List (Item β) → Item β → Prop} (hok : ∀ l x, ok l x → Windowed (l ++ [x]))

include hok

theorem RunInv.push {p : Prque β} {pushed left : List (Item β)} (hi : RunInv p pushed left)
    {v : β} {prio : Int64} (hpush : ok p.elems ⟨v, prio⟩) :
    RunInv (p.Push v prio) (pushed ++ [⟨v, prio⟩]) left := by
  have hw := hok _ _ hpush
  obtain ⟨hsound, hperm⟩ := hi.sound.push hw
  refine ⟨hsound, hw.mono hperm.subset, ?_⟩
  refine (hi.conserved.append_right _).trans ?_
  rw [List.append_assoc]
  exact hperm.symm.append_left left

end Window

theorem RunInv.heapPop {p q : Prque β} {pushed left : List (Item β)} (hi : RunInv p pushed left)
    {x : Item β} (hpop : p.heapPop = some (x, q)) : RunInv q pushed (left ++ [x]) := by
  have hne : p.elems ≠ [] := fun he => by simp [hi.sound.heapPop_eq_none he] at hpop
  obtain ⟨q', hq', hsound, hperm⟩ := hi.sound.heapPop hi.windowed hne
  rw [hq', Option.some.injEq, Prod.mk.injEq] at hpop
  obtain ⟨rfl, rfl⟩ := hpop
  refine ⟨hsound, hi.windowed.mono (fun y hy => hperm.subset (List.mem_cons_of_mem _ hy)), ?_⟩
  rw [List.append_assoc, List.singleton_append]
  exact hi.conserved.trans (hperm.symm.append_left left)

theorem RunInv.remove {p q : Prque β} {pushed left : List (Item β)} (hi : RunInv p pushed left)
    {i : Int} {r : Option (Item β)} (hrem : p.Remove i = some (r, q)) :
    RunInv q pushed (left ++ r.toList) := by
  by_cases hneg : i < 0
  · rw [Prque.Remove, if_pos hneg, Option.some.injEq, Prod.mk.injEq] at hrem
    obtain ⟨rfl, rfl⟩ := hrem
    simpa using hi
  by_cases hlt : i.toNat < p.elems.length
  · obtain ⟨q', hq', hsound, hperm⟩ := hi.sound.remove hi.windowed hlt
    have hi' : ((i.toNat : Nat) : Int) = i := Int.toNat_of_nonneg (by omega)
    rw [hi', hrem, Option.some.injEq, Prod.mk.injEq] at hq'
    obtain ⟨rfl, rfl⟩ := hq'
    refine ⟨hsound, hi.windowed.mono (fun y hy => hperm.subset (List.mem_cons_of_mem _ hy)), ?_⟩
    rw [Option.toList_some, List.append_assoc, List.singleton_append]
    exact hi.conserved.trans (hperm.symm.append_left left)
  · have hlen : ¬ i.toNat < p.cont.Len := by
      show ¬ i.toNat < p.cont.size
      rwa [← hi.sound.holds.length_eq]
    rw [Prque.Remove, if_neg hneg, if_neg hlen] at hrem
    cases hrem

/-- Along every run whose pushes keep the queue in a window, the queue is a heap of what was
pushed and has not left. -/
theorem Run.inv {setIndex : Bool} {ok : List (Item β) → Item β → Prop}
    (hok : ∀ l x, ok l x → Windowed (l ++ [x])) {p : Prque β} {pushed left : List (Item β)}
    (hrun : Run setIndex ok p pushed left) : RunInv p pushed left := by
  induction hrun with
  | new => exact runInv_New setIndex
  | push v prio _ hpush ih => exact ih.push hok hpush
  | pop _ hpop ih => exact ih.heapPop hpop
  | remove i _ hrem ih => exact ih.remove hrem
  | reset _ ih => exact runInv_Reset ih

/-- With a callback, and pushes that never repeat a value of the queue, the callback's last
report for each item's value is the item's position. -/
theorem Run.tracked [DecidableEq β] {ok : List (Item β) → Item β → Prop}
    (hok : ∀ l x, ok l x → Windowed (l ++ [x]) ∧ ∀ y ∈ l, y.value ≠ x.value) {p : Prque β}
    {pushed left : List (Item β)} (hrun : Run true ok p pushed left) : p.cont.Tracked := by
  have hwin : ∀ l x, ok l x → Windowed (l ++ [x]) := fun l x h => (hok l x h).1
  induction hrun with
  | new => exact tracked_New
  | push v prio hrun' hpush ih =>
    exact (hrun'.inv hwin).sound.tracked_push ih (hok _ _ hpush).2
  | pop hrun' hpop ih => exact (hrun'.inv hwin).sound.tracked_heapPop ih hpop
  | remove i hrun' hrem ih => exact (hrun'.inv hwin).sound.tracked_remove ih hrem
  | reset _ ih => exact tracked_Reset ih

/-- Pushes that keep the queue in a window. -/
def WindowedPush (l : List (Item β)) (x : Item β) : Prop := Windowed (l ++ [x])

/-- Pushes that keep the queue in a window and never repeat a value in it. -/
def FreshPush (l : List (Item β)) (x : Item β) : Prop :=
  Windowed (l ++ [x]) ∧ ∀ y ∈ l, y.value ≠ x.value

theorem elems_New (setIndex : Bool) : (New setIndex : Prque β).elems = [] :=
  (holds_newSstack setIndex : Holds (New setIndex : Prque β).cont []).elems_eq

end Runs

end Ccmchain.Prque
