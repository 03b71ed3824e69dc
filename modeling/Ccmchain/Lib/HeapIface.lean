import Ccmchain.Lib.Heap

/-!
# `container/heap` over `heap.Interface`

Go's heap package works on any type with the methods of `heap.Interface`: `Len`, `Less` and
`Swap`, and `Push` and `Pop` that append and take off the last element. `up`, `down`, `Push`,
`Pop` and `Remove` are written here over such an interface (`Iface`), as the package writes them.

A slice of elements is one implementation (`listIface`). Where `Less` compares the elements
present by a rank, the slice operations move the ranks as `MinHeap` moves ordered values
(`map_up`, `map_downLoop`), so each operation keeps the heap property, permutes the elements, and
`Pop` returns an element no other is `Less` than. An implementation whose methods act on a list of
its elements as the slice's do (`Refines`) runs every operation as the slice runs it
(`Refines.up` and the rest). Facts about an implementation's own state, such as indices it
reports to a callback, follow from one lemma per method (`keeps_up` and the rest).
-/

namespace HeapIface

open MinHeap (val swap parent)

/-- `heap.Interface`. `pop` is `none` where the implementation fails. -/
structure Iface (σ α : Type) where
  len : σ → Nat
  less : σ → Nat → Nat → Bool
  swap : σ → Nat → Nat → σ
  push : σ → α → σ
  pop : σ → Option (α × σ)

section Algorithms

variable {σ α : Type} (I : Iface σ α)

/-- `up`: swap the element at `j` with its parent while it is `Less`. At the root the parent is
the root itself, and the loop stops. -/
def up (s : σ) (j : Nat) : σ :=
  if parent j = j ∨ I.less s j (parent j) = false then s
  else up (I.swap s (parent j) j) (parent j)
termination_by j
decreasing_by
  unfold parent at *
  omega

/-- The child `down` compares with: the right one when it is in range and `Less`. -/
def child (s : σ) (i n : Nat) : Nat :=
  if 2 * i + 2 < n ∧ I.less s (2 * i + 2) (2 * i + 1) = true then 2 * i + 2 else 2 * i + 1

theorem child_bounds (s : σ) (i n : Nat) :
    2 * i + 1 ≤ child I s i n ∧ child I s i n ≤ 2 * i + 2 ∧
      (2 * i + 1 < n → child I s i n < n) := by
  unfold child
  split_ifs <;> omega

/-- The loop of `down` below `n`: swap the element at `i` with its child while the child is
`Less`; it returns the state and the position the element stopped at. -/
def downLoop (s : σ) (i n : Nat) : σ × Nat :=
  if n ≤ 2 * i + 1 then (s, i)
  else if I.less s (child I s i n) i = false then (s, i)
  else downLoop (I.swap s i (child I s i n)) (child I s i n) n
termination_by n - i
decreasing_by
  have := child_bounds I s i n
  omega

/-- `down`: whether the element moved. -/
def down (s : σ) (i0 n : Nat) : σ × Bool :=
  let r := downLoop I s i0 n
  (r.1, decide (r.2 > i0))

/-- `heap.Push`. -/
def push (s : σ) (x : α) : σ :=
  let s := I.push s x
  up I s (I.len s - 1)

/-- `heap.Pop`. -/
def pop (s : σ) : Option (α × σ) :=
  let n := I.len s - 1
  I.pop (down I (I.swap s 0 n) 0 n).1

/-- `heap.Remove` up to its last `h.Pop()`: the element at `i` is swapped to the end and the
one that took its place is moved down, or up if it did not go down. -/
def reorder (s : σ) (i : Nat) : σ :=
  let n := I.len s - 1
  if n ≠ i then
    let r := down I (I.swap s i n) i n
    if !r.2 then up I r.1 i else r.1
  else s

/-- `heap.Remove`. -/
def remove (s : σ) (i : Nat) : Option (α × σ) := I.pop (reorder I s i)

/-- When the element at `i` is not last, `Remove` swaps it to the end and moves the element that
took its place down, and up as well if it did not go down. -/
theorem reorder_eq {s : σ} {i : Nat} (hni : I.len s - 1 ≠ i) :
    reorder I s i =
      if i < (downLoop I (I.swap s i (I.len s - 1)) i (I.len s - 1)).2 then
        (downLoop I (I.swap s i (I.len s - 1)) i (I.len s - 1)).1
      else up I (downLoop I (I.swap s i (I.len s - 1)) i (I.len s - 1)).1 i := by
  simp only [reorder, down, ne_eq, hni, not_false_eq_true, if_true]
  by_cases hm : i < (downLoop I (I.swap s i (I.len s - 1)) i (I.len s - 1)).2 <;> simp [hm]

theorem reorder_of_last {s : σ} {i : Nat} (hni : I.len s - 1 = i) : reorder I s i = s := by
  simp [reorder, hni]

end Algorithms

/-- A slice, with `Less` given on its elements. -/
def listIface {α : Type} [Inhabited α] (lt : α → α → Bool) : Iface (List α) α where
  len := List.length
  less h i j := lt (val h i) (val h j)
  swap := swap
  push h x := h ++ [x]
  pop h := h.getLast?.map fun x => (x, h.dropLast)

/-- `lt` compares the elements of `h` by `rank`. -/
def RankedOn {α κ : Type} [LinearOrder κ] (lt : α → α → Bool) (rank : α → κ) (h : List α) : Prop :=
  ∀ a ∈ h, ∀ b ∈ h, lt a b = decide (rank a < rank b)

theorem RankedOn.mono {α κ : Type} [LinearOrder κ] {lt : α → α → Bool} {rank : α → κ}
    {h h' : List α} (hr : RankedOn lt rank h) (hsub : h' ⊆ h) : RankedOn lt rank h' :=
  fun a ha b hb => hr a (hsub ha) b (hsub hb)

/-! ## The slice -/

section Slice

variable {α : Type} [Inhabited α] (lt : α → α → Bool)

@[simp] theorem listIface_len (h : List α) : (listIface lt).len h = h.length := rfl

@[simp] theorem listIface_less (h : List α) (i j : Nat) :
    (listIface lt).less h i j = lt (val h i) (val h j) := rfl

@[simp] theorem listIface_swap (h : List α) (i j : Nat) : (listIface lt).swap h i j = swap h i j :=
  rfl

@[simp] theorem listIface_push (h : List α) (x : α) : (listIface lt).push h x = h ++ [x] := rfl

@[simp] theorem listIface_pop (h : List α) :
    (listIface lt).pop h = h.getLast?.map fun x => (x, h.dropLast) := rfl

/-- `up` swaps only positions at or below `j`: it permutes the slice and leaves the positions
above `j` alone. -/
theorem up_perm (h : List α) (j : Nat) (hj : j < h.length) :
    (up (listIface lt) h j).Perm h ∧ ∀ k, j < k → val (up (listIface lt) h j) k = val h k := by
  fun_induction up (listIface lt) h j with
  | case1 h j => exact ⟨List.Perm.refl _, fun _ _ => rfl⟩
  | case2 h j hstep ih =>
    have hpj : parent j < j := by
      unfold parent at *
      omega
    obtain ⟨hperm, hfix⟩ := ih (by simpa using hpj.trans hj)
    refine ⟨hperm.trans (MinHeap.swap_perm (by omega) hj), fun k hk => ?_⟩
    rw [hfix k (by omega), listIface_swap, MinHeap.val_swap (by omega) hj,
      Equiv.swap_apply_of_ne_of_ne (by omega) (by omega)]

@[simp] theorem length_up (h : List α) (j : Nat) (hj : j < h.length) :
    (up (listIface lt) h j).length = h.length :=
  (up_perm lt h j hj).1.length_eq

/-- `down`'s loop swaps only positions below `n`: it permutes the slice, leaves the positions from
`n` on alone, and ends where it started only if it swapped nothing. -/
theorem downLoop_perm (h : List α) (i n : Nat) (hn : n ≤ h.length) :
    (downLoop (listIface lt) h i n).1.Perm h ∧
      (∀ k, n ≤ k → val (downLoop (listIface lt) h i n).1 k = val h k) ∧
      i ≤ (downLoop (listIface lt) h i n).2 ∧
      ((downLoop (listIface lt) h i n).2 = i → (downLoop (listIface lt) h i n).1 = h) := by
  fun_induction downLoop (listIface lt) h i n with
  | case1 h i => exact ⟨List.Perm.refl _, fun _ _ => rfl, le_rfl, fun _ => rfl⟩
  | case2 h i => exact ⟨List.Perm.refl _, fun _ _ => rfl, le_rfl, fun _ => rfl⟩
  | case3 h i hn' hless ih =>
    have hc := child_bounds (listIface lt) h i n
    obtain ⟨hperm, hfix, hle, -⟩ := ih (by simpa using hn)
    refine ⟨hperm.trans (MinHeap.swap_perm (by omega) (by omega)), fun k hk => ?_, by omega,
      fun heq => by omega⟩
    rw [hfix k hk, listIface_swap, MinHeap.val_swap (by omega) (by omega),
      Equiv.swap_apply_of_ne_of_ne (by omega) (by omega)]

@[simp] theorem length_downLoop (h : List α) (i n : Nat) (hn : n ≤ h.length) :
    (downLoop (listIface lt) h i n).1.length = h.length :=
  (downLoop_perm lt h i n hn).1.length_eq

theorem val_map {β : Type} [Inhabited β] (f : α → β) (h : List α) {k : Nat} (hk : k < h.length) :
    val (h.map f) k = f (val h k) := by
  rw [val, val, List.getD_eq_getElem _ _ (by simpa using hk), List.getD_eq_getElem _ _ hk,
    List.getElem_map]

theorem swap_apply_lt {i j k n : Nat} (hi : i < n) (hj : j < n) (hk : k < n) :
    Equiv.swap i j k < n := by
  rcases eq_or_ne k i with rfl | hki
  · simpa using hj
  · rcases eq_or_ne k j with rfl | hkj
    · simpa using hi
    · rwa [Equiv.swap_apply_of_ne_of_ne hki hkj]

theorem map_swap {β : Type} [Inhabited β] (f : α → β) (h : List α) {i j : Nat}
    (hi : i < h.length) (hj : j < h.length) : (swap h i j).map f = swap (h.map f) i j := by
  apply List.ext_getElem (by simp)
  intro k hk₁ hk₂
  have hk : k < h.length := by simpa using hk₁
  have hl := val_map f (swap h i j) (k := k) (by simpa using hk)
  have hr := MinHeap.val_swap (h := h.map f) (by simpa using hi) (by simpa using hj) k
  rw [val_map f h (swap_apply_lt hi hj hk), ← MinHeap.val_swap hi hj] at hr
  have hval := hl.trans hr.symm
  rwa [val, val, List.getD_eq_getElem _ _ hk₁, List.getD_eq_getElem _ _ hk₂] at hval

theorem reorder_list_eq (h : List α) {i : Nat} (hni : h.length - 1 ≠ i) :
    reorder (listIface lt) h i =
      if i < (downLoop (listIface lt) (swap h i (h.length - 1)) i (h.length - 1)).2 then
        (downLoop (listIface lt) (swap h i (h.length - 1)) i (h.length - 1)).1
      else up (listIface lt) (downLoop (listIface lt) (swap h i (h.length - 1)) i (h.length - 1)).1 i :=
  reorder_eq (listIface lt) hni

/-- The slice `Remove` takes the last element off holds the elements, the removed one last. -/
theorem reorder_perm (h : List α) {i : Nat} (hi : i < h.length) :
    (reorder (listIface lt) h i).Perm h ∧
      val (reorder (listIface lt) h i) (h.length - 1) = val h i := by
  by_cases hni : h.length - 1 = i
  · rw [reorder_of_last (listIface lt) hni, hni]
    exact ⟨List.Perm.refl _, rfl⟩
  have hsperm : (swap h i (h.length - 1)).Perm h := MinHeap.swap_perm hi (by omega)
  obtain ⟨hdperm, hdfix, -⟩ := downLoop_perm lt (swap h i (h.length - 1)) i (h.length - 1)
    (by simp)
  have hdn : val (downLoop (listIface lt) (swap h i (h.length - 1)) i (h.length - 1)).1
      (h.length - 1) = val h i := by
    rw [hdfix _ le_rfl, MinHeap.val_swap hi (by omega), Equiv.swap_apply_right]
  rw [reorder_list_eq lt h hni]
  split_ifs
  · exact ⟨hdperm.trans hsperm, hdn⟩
  · have hlen : i < (downLoop (listIface lt) (swap h i (h.length - 1)) i (h.length - 1)).1.length := by
      rw [hdperm.length_eq, MinHeap.length_swap]
      exact hi
    obtain ⟨huperm, hufix⟩ := up_perm lt _ i hlen
    exact ⟨huperm.trans (hdperm.trans hsperm), by rw [hufix _ (by omega), hdn]⟩

/-- Taking the last element off a slice whose last position holds `x` gives `x` and the rest. -/
theorem takeLast_eq {d : List α} {x : α} (hne : d ≠ []) (hx : val d (d.length - 1) = x) :
    d.getLast?.map (fun y => (y, d.dropLast)) = some (x, d.dropLast) := by
  rw [List.getLast?_eq_some_getLast hne, Option.map_some, List.getLast_eq_getElem, ← hx, val,
    List.getD_eq_getElem]

theorem cons_dropLast_perm {d : List α} {x : α} (hne : d ≠ []) (hx : val d (d.length - 1) = x) :
    (x :: d.dropLast).Perm d := by
  have hlast : d.getLast hne = x := by rw [List.getLast_eq_getElem, ← hx, val, List.getD_eq_getElem]
  conv_rhs => rw [← List.dropLast_append_getLast hne, hlast]
  exact (List.perm_append_singleton _ _).symm

/-- `heap.Push` on a slice holds the old elements and the new one, whatever `Less` is. -/
theorem push_perm (h : List α) (x : α) : (push (listIface lt) h x).Perm (h ++ [x]) := by
  have hlen : h.length < (h ++ [x]).length := by simp
  have hpush : push (listIface lt) h x = up (listIface lt) (h ++ [x]) h.length := by
    simp [push]
  rw [hpush]
  exact (up_perm lt (h ++ [x]) h.length hlen).1

/-- `heap.Pop` on a non-empty slice returns its first element and holds the others, whatever
`Less` is. -/
theorem pop_perm {h : List α} (hne : h ≠ []) :
    ∃ t, pop (listIface lt) h = some (val h 0, t) ∧ (val h 0 :: t).Perm h := by
  have hlen : 0 < h.length := List.length_pos_of_ne_nil hne
  let n := h.length - 1
  let d := (downLoop (listIface lt) (swap h 0 n) 0 n).1
  obtain ⟨hdperm, hdfix, -⟩ := downLoop_perm lt (swap h 0 n) 0 n (by simp [n])
  have hdperm' : d.Perm h := hdperm.trans (MinHeap.swap_perm hlen (by omega))
  have hdlen : d.length = h.length := hdperm'.length_eq
  have hdne : d ≠ [] := List.ne_nil_of_length_pos (by omega)
  have hlast : val d (d.length - 1) = val h 0 := by
    rw [hdlen, hdfix n le_rfl, MinHeap.val_swap hlen (by omega), Equiv.swap_apply_right]
  refine ⟨d.dropLast, ?_, (cons_dropLast_perm hdne hlast).trans hdperm'⟩
  simp only [pop, down, listIface_len, listIface_swap, listIface_pop]
  exact takeLast_eq hdne hlast

/-! ### Ranks -/

/-- The heap property, in `Less`: no element is `Less` than its parent. -/
def IsHeapBy {α : Type} [Inhabited α] (lt : α → α → Bool) (h : List α) : Prop :=
  ∀ c, 0 < c → c < h.length → lt (val h c) (val h (parent c)) = false

section Ranked

variable {lt} {κ : Type} [LinearOrder κ] [Inhabited κ] {rank : α → κ}

theorem less_map {h : List α} (hr : RankedOn lt rank h) {i j : Nat} (hi : i < h.length)
    (hj : j < h.length) : MinHeap.less (h.map rank) i j = lt (val h i) (val h j) := by
  rw [MinHeap.less, val_map rank h hi, val_map rank h hj,
    hr _ (MinHeap.val_mem hi) _ (MinHeap.val_mem hj)]

/-- On ranked elements, `up` moves the ranks as `MinHeap.up` moves them. -/
theorem map_up {h : List α} (hr : RankedOn lt rank h) {j : Nat} (hj : j < h.length) :
    (up (listIface lt) h j).map rank = MinHeap.up (h.map rank) j := by
  fun_induction up (listIface lt) h j with
  | case1 h j hstop =>
    refine (MinHeap.up_of_not_less ?_).symm
    rcases hstop with hpj | hless
    · left
      unfold parent at hpj
      omega
    · right
      have hpj : parent j < h.length := by
        unfold parent
        omega
      rw [less_map hr hj hpj]
      simpa using hless
  | case2 h j hstep ih =>
    simp only [not_or, Bool.not_eq_false] at hstep
    have hpj : parent j < j := by
      unfold parent at *
      omega
    rw [MinHeap.up, if_neg (by unfold parent at hstep; omega), less_map hr hj (by omega)]
    simp only [listIface_less] at hstep
    rw [if_pos hstep.2, ← map_swap rank h (by omega) hj]
    exact ih (hr.mono (MinHeap.swap_perm (by omega) hj).subset) (by simpa using hpj.trans hj)

theorem child_map {h : List α} (hr : RankedOn lt rank h) {i n : Nat} (hn : n ≤ h.length) :
    child (listIface lt) h i n = MinHeap.minChild (h.map rank) i n := by
  unfold child MinHeap.minChild
  by_cases hlt : 2 * i + 2 < n
  · rw [less_map hr (by omega) (by omega)]
    rfl
  · simp [hlt]

/-- On ranked elements, `down`'s loop moves the ranks as `MinHeap.downLoop` moves them, and
stops at the same position. -/
theorem map_downLoop {h : List α} (hr : RankedOn lt rank h) {i n : Nat} (hn : n ≤ h.length) :
    ((downLoop (listIface lt) h i n).1.map rank, (downLoop (listIface lt) h i n).2) =
      MinHeap.downLoop (h.map rank) i n := by
  fun_induction downLoop (listIface lt) h i n with
  | case1 h i hstop =>
    rw [MinHeap.downLoop, if_pos hstop]
  | case2 h i hn' hless =>
    have hc := child_bounds (listIface lt) h i n
    rw [MinHeap.downLoop, if_neg hn']
    simp only
    rw [← child_map hr hn, less_map hr (by omega) (by omega)]
    simp only [listIface_less] at hless
    rw [hless]
    rfl
  | case3 h i hn' hless ih =>
    have hc := child_bounds (listIface lt) h i n
    rw [MinHeap.downLoop, if_neg hn']
    simp only
    rw [← child_map hr hn, less_map hr (by omega) (by omega)]
    simp only [listIface_less, Bool.not_eq_false] at hless
    rw [if_pos hless, ← map_swap rank h (by omega) (by omega)]
    exact ih (hr.mono (MinHeap.swap_perm (by omega) (by omega)).subset) (by simpa using hn)

theorem isHeapBy_iff {h : List α} (hr : RankedOn lt rank h) :
    IsHeapBy lt h ↔ MinHeap.IsHeap (h.map rank) := by
  unfold IsHeapBy MinHeap.IsHeap MinHeap.OrderedFrom
  rw [List.length_map]
  refine forall_congr' fun c => forall_congr' fun hc => forall_congr' fun hcn => ?_
  have hpc : parent c < h.length := by
    unfold parent
    omega
  rw [val_map rank h hpc, val_map rank h hcn, hr _ (MinHeap.val_mem hcn) _ (MinHeap.val_mem hpc)]
  simp

/-- No element is `Less` than the root of a heap. -/
theorem root_min {h : List α} (hh : IsHeapBy lt h) (hr : RankedOn lt rank h) {x : α} (hx : x ∈ h) :
    lt x (val h 0) = false := by
  have hne : 0 < h.length := List.length_pos_of_mem hx
  have hle := MinHeap.root_le_of_mem ((isHeapBy_iff hr).mp hh) (List.mem_map_of_mem hx)
  rw [val_map rank h hne] at hle
  rw [hr x hx _ (MinHeap.val_mem hne)]
  simpa using hle

theorem push_spec {h : List α} (hh : IsHeapBy lt h) {x : α} (hr : RankedOn lt rank (h ++ [x])) :
    IsHeapBy lt (push (listIface lt) h x) ∧ (push (listIface lt) h x).Perm (h ++ [x]) := by
  have hlen : h.length < (h ++ [x]).length := by simp
  have hpush : push (listIface lt) h x = up (listIface lt) (h ++ [x]) h.length := by
    simp [push]
  have hperm := (up_perm lt (h ++ [x]) h.length hlen).1
  have hrh : RankedOn lt rank h := hr.mono (List.subset_append_left h [x])
  have hmap : (push (listIface lt) h x).map rank = MinHeap.push (h.map rank) (rank x) := by
    rw [hpush, map_up hr hlen, MinHeap.push, List.map_append, List.map_singleton, List.length_map]
  refine ⟨?_, hpush ▸ hperm⟩
  rw [isHeapBy_iff (hr.mono (hpush ▸ hperm).subset), hmap]
  exact (MinHeap.push_spec ((isHeapBy_iff hrh).mp hh) (rank x)).1

theorem pop_spec {h : List α} (hh : IsHeapBy lt h) (hr : RankedOn lt rank h) (hne : h ≠ []) :
    ∃ t, pop (listIface lt) h = some (val h 0, t) ∧ IsHeapBy lt t ∧ (val h 0 :: t).Perm h := by
  have hlen : 0 < h.length := List.length_pos_of_ne_nil hne
  let n := h.length - 1
  let d := (downLoop (listIface lt) (swap h 0 n) 0 n).1
  have hs : (swap h 0 n).length = h.length := MinHeap.length_swap h 0 n
  obtain ⟨hdperm, hdfix, -⟩ := downLoop_perm lt (swap h 0 n) 0 n (by omega)
  have hdperm' : d.Perm h := hdperm.trans (MinHeap.swap_perm hlen (by omega))
  have hdlen : d.length = h.length := hdperm'.length_eq
  have hdne : d ≠ [] := List.ne_nil_of_length_pos (by omega)
  have hlast : val d (d.length - 1) = val h 0 := by
    rw [hdlen, hdfix n le_rfl, MinHeap.val_swap hlen (by omega), Equiv.swap_apply_right]
  have hpop : pop (listIface lt) h = some (val h 0, d.dropLast) := by
    simp only [pop, down, listIface_len, listIface_swap, listIface_pop]
    exact takeLast_eq hdne hlast
  -- the ranks move as in `MinHeap.pop`, which leaves a heap of the ranks of `d.dropLast`
  have hrs : RankedOn lt rank (swap h 0 n) := hr.mono (MinHeap.swap_perm hlen (by omega)).subset
  have hdmap : d.map rank = (MinHeap.downLoop (swap (h.map rank) 0 n) 0 n).1 := by
    rw [← map_swap rank h hlen (by omega), ← map_downLoop hrs (by omega)]
  obtain ⟨t', hpop', hheap', -⟩ := MinHeap.pop_spec ((isHeapBy_iff hr).mp hh)
    (by simpa using hne)
  have ht' : t' = d.dropLast.map rank := by
    have hmap : (d.map rank).getLast?.map (fun y => (y, (d.map rank).dropLast)) =
        some (val (h.map rank) 0, t') := by
      rw [hdmap]
      simpa [MinHeap.pop, MinHeap.down] using hpop'
    rw [takeLast_eq (by simpa using hdne) rfl, Option.some.injEq, Prod.mk.injEq] at hmap
    rw [← hmap.2, List.map_dropLast]
  have hrt : RankedOn lt rank d.dropLast :=
    hr.mono fun y hy => hdperm'.subset (List.dropLast_subset d hy)
  refine ⟨d.dropLast, hpop, (isHeapBy_iff hrt).mpr (ht' ▸ hheap'), ?_⟩
  exact (cons_dropLast_perm hdne hlast).trans hdperm'

/-- The ranks of the slice `Remove` takes the last element off are those `MinHeap.remove`
takes the last one off. -/
theorem map_reorder {h : List α} (hr : RankedOn lt rank h) {i : Nat} (hi : i < h.length) :
    (reorder (listIface lt) h i).map rank =
      if h.length - 1 ≠ i then
        (let r := MinHeap.down (swap (h.map rank) i (h.length - 1)) i (h.length - 1)
         if !r.2 then MinHeap.up r.1 i else r.1)
      else h.map rank := by
  by_cases hni : h.length - 1 = i
  · simp [reorder, hni]
  have hsperm : (swap h i (h.length - 1)).Perm h := MinHeap.swap_perm hi (by omega)
  obtain ⟨hdperm, -⟩ := downLoop_perm lt (swap h i (h.length - 1)) i (h.length - 1) (by simp)
  have hdmap := map_downLoop (hr.mono hsperm.subset) (i := i) (n := h.length - 1) (by simp)
  rw [map_swap rank h hi (by omega)] at hdmap
  rw [reorder_list_eq lt h hni, if_pos hni]
  simp only [MinHeap.down, ← hdmap]
  by_cases hm : i < (downLoop (listIface lt) (swap h i (h.length - 1)) i (h.length - 1)).2
  · simp [hm]
  · simp only [hm, if_false, decide_false, Bool.not_false, if_true]
    exact map_up (hr.mono (hdperm.trans hsperm).subset)
      (by rw [hdperm.length_eq, MinHeap.length_swap]; exact hi)

theorem remove_spec {h : List α} (hh : IsHeapBy lt h) (hr : RankedOn lt rank h) {i : Nat}
    (hi : i < h.length) :
    ∃ t, remove (listIface lt) h i = some (val h i, t) ∧ IsHeapBy lt t ∧ (val h i :: t).Perm h := by
  obtain ⟨hdperm, hlast⟩ := reorder_perm lt h hi
  have hdmap := map_reorder hr hi
  let d := reorder (listIface lt) h i
  have hdlen : d.length = h.length := hdperm.length_eq
  have hdne : d ≠ [] := List.ne_nil_of_length_pos (by omega)
  have hlast' : val d (d.length - 1) = val h i := by rw [hdlen]; exact hlast
  have hremove : remove (listIface lt) h i = some (val h i, d.dropLast) := by
    simp only [remove, listIface_pop]
    exact takeLast_eq hdne hlast'
  -- the ranks are those of `MinHeap.remove`, which leaves a heap
  obtain ⟨t', hremove', hheap', -⟩ := MinHeap.remove_spec ((isHeapBy_iff hr).mp hh)
    (i := i) (by simpa using hi)
  have ht' : t' = d.dropLast.map rank := by
    have hmap : (d.map rank).getLast?.map (fun y => (y, (d.map rank).dropLast)) =
        some (val (h.map rank) i, t') := by
      rw [hdmap]
      simpa [MinHeap.remove] using hremove'
    rw [takeLast_eq (by simpa using hdne) rfl, Option.some.injEq, Prod.mk.injEq] at hmap
    rw [← hmap.2, List.map_dropLast]
  have hrt : RankedOn lt rank d.dropLast :=
    hr.mono fun y hy => hdperm.subset (List.dropLast_subset d hy)
  exact ⟨d.dropLast, hremove, (isHeapBy_iff hrt).mpr (ht' ▸ hheap'),
    (cons_dropLast_perm hdne hlast').trans hdperm⟩

end Ranked

end Slice

/-! ## Implementations -/

/-- `R s l` says the state `s` holds the slice `l`, and the methods of `I` act on it as a slice's
act on `l`. -/
structure Refines {σ α : Type} [Inhabited α] (I : Iface σ α) (lt : α → α → Bool)
    (R : σ → List α → Prop) : Prop where
  len : ∀ s l, R s l → I.len s = l.length
  less : ∀ s l i j, R s l → i < l.length → j < l.length → I.less s i j = lt (val l i) (val l j)
  swap : ∀ s l i j, R s l → i < l.length → j < l.length → R (I.swap s i j) (swap l i j)
  push : ∀ s l x, R s l → R (I.push s x) (l ++ [x])
  pop : ∀ s l, R s l → l ≠ [] → ∃ s', I.pop s = some (val l (l.length - 1), s') ∧ R s' l.dropLast

section Refines

variable {σ α : Type} [Inhabited α] {I : Iface σ α} {lt : α → α → Bool} {R : σ → List α → Prop}

theorem Refines.rep_up (hI : Refines I lt R) {s : σ} {l : List α} (hs : R s l) {j : Nat}
    (hj : j < l.length) : R (up I s j) (up (listIface lt) l j) := by
  fun_induction up I s j generalizing l with
  | case1 s j hstop =>
    have hpj : parent j < l.length := by
      unfold parent
      omega
    rw [HeapIface.up.eq_1 (listIface lt), if_pos (by rwa [listIface_less, ← hI.less s l j _ hs hj hpj])]
    exact hs
  | case2 s j hstep ih =>
    have hpj : parent j < j := by
      have hne : parent j ≠ j := fun h => hstep (.inl h)
      unfold parent at *
      omega
    rw [HeapIface.up.eq_1 (listIface lt),
      if_neg (by rwa [listIface_less, ← hI.less s l j _ hs hj (by omega)]), listIface_swap]
    exact ih (hI.swap s l _ _ hs (by omega) hj) (by simp; omega)

theorem Refines.rep_child (hI : Refines I lt R) {s : σ} {l : List α} (hs : R s l) (i : Nat) {n : Nat}
    (hn : n ≤ l.length) : child I s i n = child (listIface lt) l i n := by
  unfold HeapIface.child
  by_cases hlt : 2 * i + 2 < n
  · rw [hI.less s l _ _ hs (by omega) (by omega)]
    rfl
  · simp [hlt]

theorem Refines.rep_downLoop (hI : Refines I lt R) {s : σ} {l : List α} (hs : R s l) (i : Nat)
    {n : Nat} (hn : n ≤ l.length) :
    R (downLoop I s i n).1 (downLoop (listIface lt) l i n).1 ∧
      (downLoop I s i n).2 = (downLoop (listIface lt) l i n).2 := by
  fun_induction downLoop I s i n generalizing l with
  | case1 s i hstop =>
    rw [HeapIface.downLoop.eq_1 (listIface lt), if_pos hstop]
    exact ⟨hs, rfl⟩
  | case2 s i hn' hless =>
    have hc := child_bounds I s i n
    rw [HeapIface.downLoop.eq_1 (listIface lt), if_neg hn', ← hI.rep_child hs i hn, listIface_less,
      ← hI.less s l _ _ hs (by omega) (by omega), if_pos hless]
    exact ⟨hs, rfl⟩
  | case3 s i hn' hless ih =>
    have hc := child_bounds I s i n
    rw [HeapIface.downLoop.eq_1 (listIface lt), if_neg hn', ← hI.rep_child hs i hn, listIface_less,
      ← hI.less s l _ _ hs (by omega) (by omega), if_neg hless, listIface_swap]
    exact ih (hI.swap s l _ _ hs (by omega) (by omega)) (by simpa using hn)

theorem Refines.rep_push (hI : Refines I lt R) {s : σ} {l : List α} (hs : R s l) (x : α) :
    R (HeapIface.push I s x) (HeapIface.push (listIface lt) l x) := by
  have hpush := hI.push s l x hs
  have hlen : I.len (I.push s x) - 1 = l.length := by
    rw [hI.len _ _ hpush]
    simp
  simp only [HeapIface.push, hlen, listIface_push, listIface_len, List.length_append,
    List.length_singleton, Nat.add_sub_cancel]
  exact hI.rep_up hpush (by simp)

theorem Refines.rep_pop (hI : Refines I lt R) {s : σ} {l : List α} (hs : R s l) {x : α} {t : List α}
    (hpop : HeapIface.pop (listIface lt) l = some (x, t)) :
    ∃ s', HeapIface.pop I s = some (x, s') ∧ R s' t := by
  have hne : l ≠ [] := by
    rintro rfl
    simp [HeapIface.pop, down, HeapIface.downLoop.eq_1, MinHeap.swap] at hpop
  have hl : 0 < l.length := List.length_pos_of_ne_nil hne
  have hsw := hI.swap s l 0 (l.length - 1) hs hl (by omega)
  obtain ⟨hd, -⟩ := hI.rep_downLoop hsw 0 (n := l.length - 1) (by simp)
  have hdne : (downLoop (listIface lt) (MinHeap.swap l 0 (l.length - 1)) 0 (l.length - 1)).1 ≠ [] :=
    List.ne_nil_of_length_pos (by rw [length_downLoop lt _ _ _ (by simp)]; simpa using hl)
  obtain ⟨s', hs', hR⟩ := hI.pop _ _ hd hdne
  simp only [HeapIface.pop, down, listIface_len, listIface_swap, listIface_pop,
    List.getLast?_eq_some_getLast hdne, Option.map_some, Option.some.injEq, Prod.mk.injEq] at hpop
  refine ⟨s', ?_, hpop.2 ▸ hR⟩
  simp only [HeapIface.pop, down, hI.len s l hs, hs', Option.some.injEq, Prod.mk.injEq, and_true]
  rw [← hpop.1, List.getLast_eq_getElem, val, List.getD_eq_getElem]

theorem Refines.rep_reorder (hI : Refines I lt R) {s : σ} {l : List α} (hs : R s l) {i : Nat}
    (hi : i < l.length) : R (reorder I s i) (reorder (listIface lt) l i) := by
  have hlen := hI.len s l hs
  by_cases hni : l.length - 1 = i
  · rw [reorder_of_last I (by rwa [hlen]), reorder_of_last (listIface lt) (by simpa using hni)]
    exact hs
  have hsw := hI.swap s l i (l.length - 1) hs hi (by omega)
  obtain ⟨hd, hd2⟩ := hI.rep_downLoop hsw i (n := l.length - 1) (by simp)
  rw [reorder_eq I (by rwa [hlen]), reorder_list_eq lt l (by omega), hlen, hd2]
  by_cases hc : i < (downLoop (listIface lt) (MinHeap.swap l i (l.length - 1)) i (l.length - 1)).2
  · rw [if_pos hc, if_pos hc]
    exact hd
  · rw [if_neg hc, if_neg hc]
    exact hI.rep_up hd (by rw [length_downLoop lt _ _ _ (by simp)]; simpa using hi)

theorem Refines.rep_remove (hI : Refines I lt R) {s : σ} {l : List α} (hs : R s l) {i : Nat}
    (hi : i < l.length) {x : α} {t : List α}
    (hrem : HeapIface.remove (listIface lt) l i = some (x, t)) :
    ∃ s', HeapIface.remove I s i = some (x, s') ∧ R s' t := by
  have hr := hI.rep_reorder hs hi
  have hlen : (reorder (listIface lt) l i).length = l.length :=
    (reorder_perm lt l hi).1.length_eq
  have hne : reorder (listIface lt) l i ≠ [] := List.ne_nil_of_length_pos (by omega)
  obtain ⟨s', hs', hR⟩ := hI.pop _ _ hr hne
  simp only [HeapIface.remove, listIface_pop, List.getLast?_eq_some_getLast hne, Option.map_some,
    Option.some.injEq, Prod.mk.injEq] at hrem
  refine ⟨s', ?_, hrem.2 ▸ hR⟩
  rw [HeapIface.remove, hs', ← hrem.1, List.getLast_eq_getElem, val, List.getD_eq_getElem]

/-! ### What every method keeps -/

variable (hI : Refines I lt R) {P : σ → Prop}
  (hswap : ∀ s l i j, R s l → i < l.length → j < l.length → P s → P (I.swap s i j))

include hI hswap

theorem keeps_up {s : σ} {l : List α} (hs : R s l) {j : Nat} (hj : j < l.length) (hp : P s) :
    P (up I s j) := by
  fun_induction up I s j generalizing l with
  | case1 => exact hp
  | case2 s j hstep ih =>
    have hpj : parent j < j := by
      have hne : parent j ≠ j := fun h => hstep (.inl h)
      unfold parent at *
      omega
    exact ih (hI.swap s l _ _ hs (by omega) hj) (by simp; omega) (hswap s l _ _ hs (by omega) hj hp)

theorem keeps_downLoop {s : σ} {l : List α} (hs : R s l) (i : Nat) {n : Nat} (hn : n ≤ l.length)
    (hp : P s) : P (downLoop I s i n).1 := by
  fun_induction downLoop I s i n generalizing l with
  | case1 => exact hp
  | case2 => exact hp
  | case3 s i hn' hless ih =>
    have hc := child_bounds I s i n
    exact ih (hI.swap s l _ _ hs (by omega) (by omega)) (by simpa using hn)
      (hswap s l _ _ hs (by omega) (by omega) hp)

theorem keeps_reorder {s : σ} {l : List α} (hs : R s l) {i : Nat} (hi : i < l.length)
    (hp : P s) : P (reorder I s i) := by
  have hlen := hI.len s l hs
  by_cases hni : l.length - 1 = i
  · rw [reorder_of_last I (by rwa [hlen])]
    exact hp
  have hsw := hI.swap s l i (l.length - 1) hs hi (by omega)
  obtain ⟨hd, -⟩ := hI.rep_downLoop hsw i (n := l.length - 1) (by simp)
  have hpd := keeps_downLoop hI hswap hsw i (n := l.length - 1) (by simp)
    (hswap s l _ _ hs hi (by omega) hp)
  rw [reorder_eq I (by rwa [hlen])]
  simp only [hlen]
  split_ifs
  · exact hpd
  · exact keeps_up hI hswap hd (by rw [length_downLoop lt _ _ _ (by simp)]; simpa using hi) hpd

theorem keeps_push {s : σ} {l : List α} (hs : R s l) (x : α) (hp : P (I.push s x)) :
    P (HeapIface.push I s x) := by
  have hpush := hI.push s l x hs
  have hlen : I.len (I.push s x) - 1 = l.length := by
    rw [hI.len _ _ hpush]
    simp
  simp only [HeapIface.push, hlen]
  exact keeps_up hI hswap hpush (by simp) hp

section Pop

-- The implementation's own `Pop` keeps `P`.
variable (hpop : ∀ s l, R s l → l ≠ [] → P s → ∀ r, I.pop s = some r → P r.2)

include hpop

theorem keeps_pop {s : σ} {l : List α} (hs : R s l) (hne : l ≠ []) (hp : P s) {r : α × σ}
    (h : HeapIface.pop I s = some r) : P r.2 := by
  have hl : 0 < l.length := List.length_pos_of_ne_nil hne
  have hsw := hI.swap s l 0 (l.length - 1) hs hl (by omega)
  obtain ⟨hd, -⟩ := hI.rep_downLoop hsw 0 (n := l.length - 1) (by simp)
  have hpd := keeps_downLoop hI hswap hsw 0 (n := l.length - 1) (by simp)
    (hswap s l _ _ hs hl (by omega) hp)
  have hdne : (downLoop (listIface lt) (MinHeap.swap l 0 (l.length - 1)) 0 (l.length - 1)).1 ≠ [] :=
    List.ne_nil_of_length_pos (by rw [length_downLoop lt _ _ _ (by simp)]; simpa using hl)
  simp only [HeapIface.pop, down, hI.len s l hs] at h
  exact hpop _ _ hd hdne hpd r h

theorem keeps_remove {s : σ} {l : List α} (hs : R s l) {i : Nat} (hi : i < l.length) (hp : P s)
    {r : α × σ} (h : HeapIface.remove I s i = some r) : P r.2 := by
  have hr := hI.rep_reorder hs hi
  have hlen : (reorder (listIface lt) l i).length = l.length :=
    (reorder_perm lt l hi).1.length_eq
  have hne : reorder (listIface lt) l i ≠ [] := List.ne_nil_of_length_pos (by omega)
  exact hpop _ _ hr hne (keeps_reorder hI hswap hs hi hp) r h

end Pop

end Refines

end HeapIface