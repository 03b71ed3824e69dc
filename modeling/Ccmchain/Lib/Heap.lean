import Mathlib

/-!
# Binary min-heaps in a slice (Go's `container/heap`)

A heap of ordered elements stored in a slice, with the children of position `i` at `2i + 1` and
`2i + 2`. `up` and `down` are the two sift loops of `container/heap`, word for word: `up` swaps an
element with its parent while it is smaller, `down` swaps it with its smaller child while that
child is smaller. `Init`, `Push`, `Pop` and `Remove` are built from them as in the package, with
the slice's own `Push` and `Pop` appending and taking off the last element.

Each sift is proved from an invariant that says which parent-child pairs are already in order
(`UpInv`, `DownInv`), one lemma for a swap and one for the stop. From these: every operation
permutes the slice and leaves a heap, `Pop` returns the root, which is the least element, and
`Remove i` returns the element at `i`.

Positions are read with `val`, which is `h[k]` on the positions the algorithms read.
-/

namespace MinHeap

section Slice

variable {α : Type} [Inhabited α]

/-- `h[k]`. -/
def val (h : List α) (k : Nat) : α := h.getD k default

/-- `h.Swap(i, j)`. -/
def swap (h : List α) (i j : Nat) : List α := (h.set i (val h j)).set j (val h i)

/-- The parent of position `j`, `(j - 1) / 2`. -/
def parent (j : Nat) : Nat := (j - 1) / 2

@[simp] theorem length_swap (h : List α) (i j : Nat) : (swap h i j).length = h.length := by
  simp [swap]

theorem val_swap {h : List α} {i j : Nat} (hi : i < h.length) (hj : j < h.length) (k : Nat) :
    val (swap h i j) k = val h (Equiv.swap i j k) := by
  by_cases hkj : k = j
  · subst hkj
    simp [val, swap, hj]
  · by_cases hki : k = i
    · subst hki
      simp [val, swap, hi, Ne.symm hkj]
    · rw [Equiv.swap_apply_of_ne_of_ne hki hkj]
      simp [val, swap, Ne.symm hki, Ne.symm hkj]

theorem swap_perm {h : List α} {i j : Nat} (hi : i < h.length) (hj : j < h.length) :
    List.Perm (swap h i j) h := by
  simpa only [swap, val, List.getD_eq_getElem _ _ hi, List.getD_eq_getElem _ _ hj] using
    List.set_set_perm hi hj

theorem val_append_of_lt {h : List α} {k : Nat} (hk : k < h.length) (x : α) :
    val (h ++ [x]) k = val h k := by
  simp [val, List.getD_eq_getElem?_getD, List.getElem?_append_left hk]

theorem val_dropLast {h : List α} {k : Nat} (hk : k < h.length - 1) :
    val h.dropLast k = val h k := by
  rw [val, val, List.getD_eq_getElem _ _ (by simp; omega), List.getD_eq_getElem _ _ (by omega),
    List.getElem_dropLast]

theorem val_mem {h : List α} {k : Nat} (hk : k < h.length) : val h k ∈ h := by
  rw [val, List.getD_eq_getElem _ _ hk]
  exact List.getElem_mem hk

end Slice

variable {α : Type} [LinearOrder α] [Inhabited α]

/-- `h.Less(i, j)`. -/
def less (h : List α) (i j : Nat) : Bool := decide (val h i < val h j)

/-- `up`: swap the element at `j` with its parent while it is smaller. At the root the parent is
the root itself, and the loop stops. -/
def up (h : List α) (j : Nat) : List α :=
  if j = 0 then h
  else if less h j (parent j) then up (swap h (parent j) j) (parent j)
  else h
termination_by j
decreasing_by unfold parent; omega

/-- The child `down` compares with: the right one when it is in range and smaller. -/
def minChild (h : List α) (i n : Nat) : Nat :=
  if 2 * i + 2 < n ∧ less h (2 * i + 2) (2 * i + 1) then 2 * i + 2 else 2 * i + 1

theorem minChild_bounds (h : List α) (i n : Nat) :
    2 * i + 1 ≤ minChild h i n ∧ minChild h i n ≤ 2 * i + 2 ∧
      (2 * i + 1 < n → minChild h i n < n) := by
  unfold minChild
  split_ifs with hr <;> omega

/-- The loop of `down` below `n`: swap the element at `i` with its smaller child while that child
is smaller; it returns the slice and where the element stopped. -/
def downLoop (h : List α) (i n : Nat) : List α × Nat :=
  if n ≤ 2 * i + 1 then (h, i)
  else
    let j := minChild h i n
    if less h j i then downLoop (swap h i j) j n else (h, i)
termination_by n - i
decreasing_by
  have := minChild_bounds h i n
  omega

/-- The parent-child pairs below `n` whose parent is at `lo` or beyond are in order. -/
def OrderedFrom (h : List α) (lo n : Nat) : Prop :=
  ∀ c, 0 < c → c < n → lo ≤ parent c → val h (parent c) ≤ val h c

/-- The heap property. -/
def IsHeap (h : List α) : Prop := OrderedFrom h 0 h.length

theorem parent_lt {c : Nat} (hc : 0 < c) : parent c < c := by
  unfold parent
  omega

/-! ## `up` -/

/-- What `up` needs at position `j`: every pair below `n` whose child is not `j` is in order, and
`j`'s parent is at or below `j`'s children. -/
structure UpInv (h : List α) (j n : Nat) : Prop where
  lt : j < n
  le : n ≤ h.length
  except : ∀ c, 0 < c → c < n → c ≠ j → val h (parent c) ≤ val h c
  grand : 0 < j → ∀ c, 0 < c → c < n → parent c = j → val h (parent j) ≤ val h c

theorem UpInv.swap {h : List α} {j n : Nat} (inv : UpInv h j n) (hj : 0 < j)
    (hlt : val h j < val h (parent j)) : UpInv (swap h (parent j) j) (parent j) n := by
  have hpj := parent_lt hj
  have hval := val_swap (h := h) (i := parent j) (j := j) (by have := inv.le; have := inv.lt; omega)
    (by have := inv.le; have := inv.lt; omega)
  refine ⟨by have := inv.lt; omega, by rw [length_swap]; exact inv.le, ?_, ?_⟩
  · intro c hc hcn hcp
    rw [hval, hval]
    by_cases hcj : c = j
    · subst hcj
      rw [Equiv.swap_apply_left, Equiv.swap_apply_right]
      exact le_of_lt hlt
    rw [Equiv.swap_apply_of_ne_of_ne hcp hcj]
    by_cases hpc : parent c = j
    · rw [hpc, Equiv.swap_apply_right]
      exact inv.grand hj c hc hcn hpc
    by_cases hpp : parent c = parent j
    · rw [hpp, Equiv.swap_apply_left]
      exact le_trans (le_of_lt hlt) (hpp ▸ inv.except c hc hcn hcj)
    · rw [Equiv.swap_apply_of_ne_of_ne hpp hpc]
      exact inv.except c hc hcn hcj
  · intro hp c hc hcn hpc
    have hgp := parent_lt hp
    rw [hval, hval, Equiv.swap_apply_of_ne_of_ne (by omega) (by omega)]
    have hpar : val h (parent (parent j)) ≤ val h (parent j) :=
      inv.except _ hp (by have := inv.lt; omega) (by omega)
    by_cases hcj : c = j
    · subst hcj
      rw [Equiv.swap_apply_right]
      exact hpar
    · rw [Equiv.swap_apply_of_ne_of_ne (by have := parent_lt hc; omega) hcj]
      exact le_trans hpar (hpc ▸ inv.except c hc hcn hcj)

theorem UpInv.finish {h : List α} {j n : Nat} (inv : UpInv h j n)
    (hstop : 0 < j → val h (parent j) ≤ val h j) : OrderedFrom h 0 n := by
  intro c hc hcn _
  by_cases hcj : c = j
  · subst hcj
    exact hstop hc
  · exact inv.except c hc hcn hcj

/-- `up` ends in a heap below `n`, permutes the slice and leaves the positions above `j` alone. -/
theorem up_spec (h : List α) (j n : Nat) (inv : UpInv h j n) :
    OrderedFrom (up h j) 0 n ∧ List.Perm (up h j) h ∧ ∀ k, j < k → val (up h j) k = val h k := by
  fun_induction up h j with
  | case1 h =>
    exact ⟨inv.finish fun h0 => absurd h0 (lt_irrefl 0), List.Perm.refl _, fun _ _ => rfl⟩
  | case2 h j hj hless ih =>
    have hpj := parent_lt (Nat.pos_of_ne_zero hj)
    have hlen : j < h.length := by have := inv.le; have := inv.lt; omega
    obtain ⟨hord, hperm, hfix⟩ :=
      ih (inv.swap (Nat.pos_of_ne_zero hj) (by simpa [less] using hless))
    refine ⟨hord, hperm.trans (swap_perm (by omega) hlen), fun k hk => ?_⟩
    rw [hfix k (by omega), val_swap (by omega) hlen, Equiv.swap_apply_of_ne_of_ne (by omega) (by omega)]
  | case3 h j hj hless =>
    exact ⟨inv.finish fun _ => by simpa [less] using hless, List.Perm.refl _, fun _ _ => rfl⟩

theorem up_of_not_less {h : List α} {j : Nat} (hstop : j = 0 ∨ less h j (parent j) = false) :
    up h j = h := by
  rw [up]
  rcases hstop with h0 | hless
  · rw [if_pos h0]
  · by_cases h0 : j = 0
    · rw [if_pos h0]
    · rw [if_neg h0, hless]
      rfl

/-! ## `down` -/

theorem parent_eq_iff {c i : Nat} (hc : 0 < c) : parent c = i ↔ c = 2 * i + 1 ∨ c = 2 * i + 2 := by
  unfold parent
  omega

/-- The child `down` compares with is the smaller child. -/
theorem minChild_spec (h : List α) {i n : Nat} (hn : 2 * i + 1 < n) :
    i < minChild h i n ∧ minChild h i n < n ∧ parent (minChild h i n) = i ∧
      ∀ c, 0 < c → c < n → parent c = i → val h (minChild h i n) ≤ val h c := by
  have hchild : ∀ c, 0 < c → parent c = i → c = 2 * i + 1 ∨ c = 2 * i + 2 :=
    fun c hc hpc => (parent_eq_iff hc).1 hpc
  by_cases hright : 2 * i + 2 < n ∧ less h (2 * i + 2) (2 * i + 1) = true
  · have hj : minChild h i n = 2 * i + 2 := if_pos hright
    rw [hj]
    refine ⟨by omega, hright.1, (parent_eq_iff (by omega)).2 (.inr rfl), ?_⟩
    intro c hc hcn hpc
    rcases hchild c hc hpc with rfl | rfl
    · exact le_of_lt (by simpa [less] using hright.2)
    · exact le_refl _
  · have hj : minChild h i n = 2 * i + 1 := if_neg hright
    rw [hj]
    refine ⟨by omega, hn, (parent_eq_iff (by omega)).2 (.inl rfl), ?_⟩
    intro c hc hcn hpc
    rcases hchild c hc hpc with rfl | rfl
    · exact le_refl _
    · simp only [not_and, Bool.not_eq_true] at hright
      simpa [less] using hright hcn

/-- What `down` needs at position `i`: every pair below `n` with its parent at `lo` or beyond and
not at `i` is in order, and `i`'s parent is at or below `i`'s children. -/
structure DownInv (h : List α) (lo i n : Nat) : Prop where
  lo_le : lo ≤ i
  le : n ≤ h.length
  except : ∀ c, 0 < c → c < n → lo ≤ parent c → parent c ≠ i → val h (parent c) ≤ val h c
  grand : 0 < i → lo ≤ parent i → ∀ c, 0 < c → c < n → parent c = i →
    val h (parent i) ≤ val h c

theorem DownInv.swap {h : List α} {lo i j n : Nat} (inv : DownInv h lo i n) (hij : i < j)
    (hjn : j < n) (hpj : parent j = i) (hmin : ∀ c, 0 < c → c < n → parent c = i → val h j ≤ val h c)
    (hlt : val h j < val h i) : DownInv (swap h i j) lo j n := by
  have hval := val_swap (h := h) (i := i) (j := j) (by have := inv.le; omega)
    (by have := inv.le; omega)
  refine ⟨by have := inv.lo_le; omega, by rw [length_swap]; exact inv.le, ?_, ?_⟩
  · intro c hc hcn hlo hpc
    rw [hval, hval]
    by_cases hcj : c = j
    · subst hcj
      rw [hpj, Equiv.swap_apply_left, Equiv.swap_apply_right]
      exact le_of_lt hlt
    by_cases hci : c = i
    · subst hci
      have hpi := parent_lt hc
      rw [Equiv.swap_apply_left, Equiv.swap_apply_of_ne_of_ne (by omega) (by omega)]
      exact inv.grand hc hlo j (by omega) hjn hpj
    rw [Equiv.swap_apply_of_ne_of_ne hci hcj]
    by_cases hpi : parent c = i
    · rw [hpi, Equiv.swap_apply_left]
      exact hmin c hc hcn hpi
    · rw [Equiv.swap_apply_of_ne_of_ne hpi hpc]
      exact inv.except c hc hcn hlo hpi
  · intro hj hlo c hc hcn hpc
    have hcj := parent_lt hc
    rw [hval, hval, hpj, Equiv.swap_apply_left, Equiv.swap_apply_of_ne_of_ne (by omega) (by omega)]
    have := inv.except c hc hcn (by omega) (by omega)
    rwa [hpc] at this

theorem DownInv.finish {h : List α} {lo i n : Nat} (inv : DownInv h lo i n)
    (hstop : ∀ c, 0 < c → c < n → parent c = i → val h i ≤ val h c) : OrderedFrom h lo n := by
  intro c hc hcn hlo
  by_cases hpc : parent c = i
  · rw [hpc]
    exact hstop c hc hcn hpc
  · exact inv.except c hc hcn hlo hpc

/-- `down`'s loop ends in a slice ordered below `n` from `lo` on, permutes the slice and leaves
the positions from `n` on alone. -/
theorem downLoop_spec (h : List α) (lo i n : Nat) (inv : DownInv h lo i n) :
    OrderedFrom (downLoop h i n).1 lo n ∧ List.Perm (downLoop h i n).1 h ∧
      ∀ k, n ≤ k → val (downLoop h i n).1 k = val h k := by
  fun_induction downLoop h i n with
  | case1 h i hn =>
    refine ⟨inv.finish fun c hc hcn hpc => ?_, List.Perm.refl _, fun _ _ => rfl⟩
    have := (parent_eq_iff hc).1 hpc
    omega
  | case2 h i hn j hless ih =>
    obtain ⟨hij, hjn, hpj, hmin⟩ := minChild_spec h (n := n) (i := i) (by omega)
    have hlen := inv.le
    obtain ⟨hord, hperm, hfix⟩ := ih (inv.swap hij hjn hpj hmin (by simpa [less] using hless))
    refine ⟨hord, hperm.trans (swap_perm (by omega) (by omega)), fun k hk => ?_⟩
    rw [hfix k hk, val_swap (by omega) (by omega), Equiv.swap_apply_of_ne_of_ne (by omega) (by omega)]
  | case3 h i hn j hless =>
    obtain ⟨-, -, -, hmin⟩ := minChild_spec h (n := n) (i := i) (by omega)
    refine ⟨inv.finish fun c hc hcn hpc => ?_, List.Perm.refl _, fun _ _ => rfl⟩
    exact le_trans (by simpa [less] using hless) (hmin c hc hcn hpc)

/-- `down`'s loop ends where it started only if it swapped nothing. -/
theorem downLoop_snd (h : List α) (i n : Nat) :
    i ≤ (downLoop h i n).2 ∧ ((downLoop h i n).2 = i → (downLoop h i n).1 = h) := by
  fun_induction downLoop h i n with
  | case1 h i hn => exact ⟨le_refl _, fun _ => rfl⟩
  | case2 h i hn j hless ih =>
    have hij := (minChild_spec h (n := n) (i := i) (by omega)).1
    exact ⟨le_trans (le_of_lt hij) ih.1, fun heq => absurd (heq ▸ ih.1) (by omega)⟩
  | case3 h i hn j hless => exact ⟨le_refl _, fun _ => rfl⟩

/-- At or below all its children, the element at `i` stays where it is. -/
theorem downLoop_of_le {h : List α} {i n : Nat}
    (hle : ∀ c, 0 < c → c < n → parent c = i → val h i ≤ val h c) : downLoop h i n = (h, i) := by
  rw [downLoop]
  split_ifs with hn
  · rfl
  · obtain ⟨-, hjn, hpj, -⟩ := minChild_spec h (n := n) (i := i) (by omega)
    have hpos := (minChild_bounds h i n).1
    have hstay : less h (minChild h i n) i = false := by
      simpa [less] using hle _ (by omega) hjn hpj
    simp only [hstay]
    rfl

/-- `down`: whether the element moved. -/
def down (h : List α) (i0 n : Nat) : List α × Bool :=
  let r := downLoop h i0 n
  (r.1, decide (r.2 > i0))

/-! ## The operations of `container/heap` -/

/-- `heap.Init`: `down` from every parent, last first. -/
def init (h : List α) : List α :=
  let n := h.length
  (List.range (n / 2)).reverse.foldl (fun h i => (down h i n).1) h

/-- `heap.Push`: append, then `up`. -/
def push (h : List α) (x : α) : List α := up (h ++ [x]) h.length

/-- `heap.Pop`: swap the root to the end, `down` the new root, and take the last element off. -/
def pop (h : List α) : Option (α × List α) :=
  let n := h.length - 1
  let h' := (down (swap h 0 n) 0 n).1
  h'.getLast?.map fun x => (x, h'.dropLast)

/-- `heap.Remove`: swap position `i` to the end, restore the order from `i`, and take the last
element off. -/
def remove (h : List α) (i : Nat) : Option (α × List α) :=
  let n := h.length - 1
  let h' :=
    if n ≠ i then
      let r := down (swap h i n) i n
      if !r.2 then up r.1 i else r.1
    else h
  h'.getLast?.map fun x => (x, h'.dropLast)

/-! ## What the operations keep -/

@[simp] theorem length_up (h : List α) (j : Nat) : (up h j).length = h.length := by
  fun_induction up h j <;> simp_all

@[simp] theorem length_downLoop (h : List α) (i n : Nat) : (downLoop h i n).1.length = h.length := by
  fun_induction downLoop h i n <;> simp_all

/-- Taking the last element off leaves one element fewer. -/
theorem length_of_takeLast {β : Type} {d t : List β} {x : β}
    (h : d.getLast?.map (fun x => (x, d.dropLast)) = some (x, t)) : t.length + 1 = d.length := by
  obtain ⟨y, hy, hyt⟩ := Option.map_eq_some_iff.1 h
  cases hyt
  have hne : d ≠ [] := fun hd => by simp [hd] at hy
  rw [List.length_dropLast]
  have := List.length_pos_of_ne_nil hne
  omega

theorem length_of_pop {h t : List α} {x : α} (hp : pop h = some (x, t)) :
    t.length + 1 = h.length := by
  rw [length_of_takeLast hp, down, length_downLoop, length_swap]

theorem length_of_remove {h t : List α} {i : Nat} {x : α} (hr : remove h i = some (x, t)) :
    t.length + 1 = h.length := by
  unfold remove at hr
  dsimp only at hr
  rw [length_of_takeLast hr]
  split_ifs <;> simp [down]

/-- Taking the last element off a slice that is in order below its last position leaves a heap,
and the element with the rest is the slice again. -/
theorem takeLast_spec {d h : List α} (hne : d ≠ []) (hord : OrderedFrom d 0 (d.length - 1))
    (hperm : List.Perm d h) :
    d.getLast?.map (fun x => (x, d.dropLast)) = some (val d (d.length - 1), d.dropLast) ∧
      IsHeap d.dropLast ∧ List.Perm (val d (d.length - 1) :: d.dropLast) h := by
  have hlast : d.getLast hne = val d (d.length - 1) := by
    rw [List.getLast_eq_getElem, val, List.getD_eq_getElem]
  refine ⟨by rw [List.getLast?_eq_some_getLast hne, Option.map_some, hlast], ?_, ?_⟩
  · intro c hc hcn _
    rw [List.length_dropLast] at hcn
    have := parent_lt hc
    rw [val_dropLast (by omega), val_dropLast hcn]
    exact hord c hc hcn (Nat.zero_le _)
  · refine List.Perm.trans ?_ hperm
    conv_rhs => rw [← List.dropLast_append_getLast hne]
    rw [hlast]
    exact (List.perm_append_singleton _ _).symm

/-- The root of a heap is its least element. -/
theorem root_le {h : List α} (hh : IsHeap h) : ∀ k, k < h.length → val h 0 ≤ val h k := by
  intro k
  induction k using Nat.strong_induction_on with
  | _ k ih =>
    intro hk
    rcases Nat.eq_zero_or_pos k with rfl | hpos
    · exact le_refl _
    · have hp := parent_lt hpos
      exact le_trans (ih _ hp (by omega)) (hh k hpos hk (Nat.zero_le _))

theorem root_le_of_mem {h : List α} (hh : IsHeap h) {x : α} (hx : x ∈ h) : val h 0 ≤ x := by
  obtain ⟨k, hk, rfl⟩ := List.getElem_of_mem hx
  have hle := root_le hh k hk
  rwa [val, val, List.getD_eq_getElem _ _ hk] at hle

theorem push_spec {h : List α} (hh : IsHeap h) (x : α) :
    IsHeap (push h x) ∧ List.Perm (push h x) (h ++ [x]) := by
  have inv : UpInv (h ++ [x]) h.length (h.length + 1) := by
    refine ⟨by omega, by simp, fun c hc hcn hcj => ?_, fun _ c hc hcn hpc => ?_⟩
    · have := parent_lt hc
      rw [val_append_of_lt (by omega), val_append_of_lt (by omega)]
      exact hh c hc (by omega) (Nat.zero_le _)
    · have := (parent_eq_iff hc).1 hpc
      omega
  obtain ⟨hord, hperm, -⟩ := up_spec _ _ _ inv
  refine ⟨?_, hperm⟩
  unfold IsHeap push
  rw [hperm.length_eq, List.length_append, List.length_singleton]
  exact hord

theorem pop_spec {h : List α} (hh : IsHeap h) (hne : h ≠ []) :
    ∃ t, pop h = some (val h 0, t) ∧ IsHeap t ∧ List.Perm (val h 0 :: t) h := by
  have hlen : 0 < h.length := List.length_pos_of_ne_nil hne
  have hval := val_swap (h := h) (i := 0) (j := h.length - 1) hlen (by omega)
  have inv : DownInv (swap h 0 (h.length - 1)) 0 0 (h.length - 1) := by
    refine ⟨le_refl _, by simp, fun c hc hcn _ hpc => ?_, fun h0 => absurd h0 (lt_irrefl 0)⟩
    have := parent_lt hc
    rw [hval, hval, Equiv.swap_apply_of_ne_of_ne hpc (by omega),
      Equiv.swap_apply_of_ne_of_ne (by omega) (by omega)]
    exact hh c hc (by omega) (Nat.zero_le _)
  obtain ⟨hord, hperm, hfix⟩ := downLoop_spec _ _ _ _ inv
  have hperm' := hperm.trans (swap_perm hlen (by omega))
  have hdlen := hperm'.length_eq
  have hdne : (downLoop (swap h 0 (h.length - 1)) 0 (h.length - 1)).1 ≠ [] :=
    List.ne_nil_of_length_pos (by omega)
  obtain ⟨hpop, hheap, hcons⟩ := takeLast_spec hdne (by rw [hdlen]; exact hord) hperm'
  have hlast : val (downLoop (swap h 0 (h.length - 1)) 0 (h.length - 1)).1
      ((downLoop (swap h 0 (h.length - 1)) 0 (h.length - 1)).1.length - 1) = val h 0 := by
    rw [hdlen, hfix _ (le_refl _), hval, Equiv.swap_apply_right]
  rw [hlast] at hpop hcons
  exact ⟨_, hpop, hheap, hcons⟩

/-- After swapping the last element into position `i`, the slice below the last position is in
order once `down` or `up` has moved it; `remove` runs `up` only when `down` did not move it. -/
theorem remove_reorder {h : List α} (hh : IsHeap h) {i : Nat} (hi : i < h.length - 1) :
    let s := swap h i (h.length - 1)
    let r := down s i (h.length - 1)
    let d := if !r.2 then up r.1 i else r.1
    OrderedFrom d 0 (h.length - 1) ∧ List.Perm d h ∧ val d (h.length - 1) = val h i := by
  intro s r d
  have hval := val_swap (h := h) (i := i) (j := h.length - 1) (by omega) (by omega)
  have hs : ∀ c, c ≠ i → c < h.length - 1 → val s c = val h c := fun c hci hcm => by
    rw [hval, Equiv.swap_apply_of_ne_of_ne hci (by omega)]
  have hsi : val s i = val h (h.length - 1) := by rw [hval, Equiv.swap_apply_left]
  have hsperm : List.Perm s h := swap_perm (by omega) (by omega)
  by_cases hup : 0 < i ∧ val h (h.length - 1) < val h (parent i)
  · -- the moved element is below its new parent: it cannot go down, and `up` places it
    have hpi := parent_lt hup.1
    have hchildren : ∀ c, 0 < c → c < h.length - 1 → parent c = i → val s i ≤ val s c := by
      intro c hc hcn hpc
      have := parent_lt hc
      rw [hsi, hs c (by omega) hcn]
      exact le_of_lt (lt_of_lt_of_le hup.2 (le_trans (hh i hup.1 (by omega) (Nat.zero_le _))
        (hpc ▸ hh c hc (by omega) (Nat.zero_le _))))
    have hstay : downLoop s i (h.length - 1) = (s, i) := downLoop_of_le hchildren
    have hd : d = up s i := by simp [d, r, down, hstay]
    have inv : UpInv s i (h.length - 1) := by
      refine ⟨hi, by simp [s], fun c hc hcn hci => ?_, fun _ c hc hcn hpc => ?_⟩
      · by_cases hpc : parent c = i
        · rw [hpc]
          exact hchildren c hc hcn hpc
        · have := parent_lt hc
          rw [hs c hci hcn, hs _ hpc (by omega)]
          exact hh c hc (by omega) (Nat.zero_le _)
      · have := parent_lt hc
        rw [hs _ (by omega) (by omega), hs c (by omega) hcn]
        exact le_trans (hh i hup.1 (by omega) (Nat.zero_le _))
          (hpc ▸ hh c hc (by omega) (Nat.zero_le _))
    obtain ⟨hord, hperm, hfix⟩ := up_spec s i _ inv
    rw [hd]
    refine ⟨hord, hperm.trans hsperm, ?_⟩
    rw [hfix _ (by omega), hval, Equiv.swap_apply_right]
  · -- the moved element is at or above its new parent: `down` places it, and `up` has nothing
    -- to do when `down` did not move it
    have inv : DownInv s 0 i (h.length - 1) := by
      refine ⟨Nat.zero_le _, by simp [s], fun c hc hcn _ hpc => ?_, fun hi0 _ c hc hcn hpc => ?_⟩
      · have := parent_lt hc
        by_cases hci : c = i
        · subst hci
          rw [hsi, hs _ hpc (by omega)]
          exact not_lt.1 fun hlt => hup ⟨hc, hlt⟩
        · rw [hs c hci hcn, hs _ hpc (by omega)]
          exact hh c hc (by omega) (Nat.zero_le _)
      · have := parent_lt hc
        have := parent_lt hi0
        rw [hs _ (by omega) (by omega), hs c (by omega) hcn]
        exact le_trans (hh i hi0 (by omega) (Nat.zero_le _))
          (hpc ▸ hh c hc (by omega) (Nat.zero_le _))
    obtain ⟨hord, hperm, hfix⟩ := downLoop_spec s 0 i _ inv
    have hd : d = (downLoop s i (h.length - 1)).1 := by
      by_cases hmoved : i < (downLoop s i (h.length - 1)).2
      · simp [d, r, down, hmoved]
      · have hat : (downLoop s i (h.length - 1)).2 = i := by
          have := (downLoop_snd s i (h.length - 1)).1
          omega
        have hsame := (downLoop_snd s i (h.length - 1)).2 hat
        have hnoup : up s i = s := up_of_not_less (by
          by_cases hi0 : i = 0
          · exact .inl hi0
          · refine .inr ?_
            have hle : val s (parent i) ≤ val s i := by
              have := parent_lt (Nat.pos_of_ne_zero hi0)
              rw [hsi, hs _ (by omega) (by omega)]
              exact not_lt.1 fun hlt => hup ⟨Nat.pos_of_ne_zero hi0, hlt⟩
            simpa [less] using hle)
        simp [d, r, down, hat, hsame, hnoup]
    rw [hd]
    refine ⟨hord, hperm.trans hsperm, ?_⟩
    rw [hfix _ (le_refl _), hval, Equiv.swap_apply_right]

theorem remove_spec {h : List α} (hh : IsHeap h) {i : Nat} (hi : i < h.length) :
    ∃ t, remove h i = some (val h i, t) ∧ IsHeap t ∧ List.Perm (val h i :: t) h := by
  have hne : h ≠ [] := List.ne_nil_of_length_pos (by omega)
  by_cases hlast : h.length - 1 = i
  · -- the last element is removed as it stands
    have hord : OrderedFrom h 0 (h.length - 1) := fun c hc hcn _ =>
      hh c hc (by omega) (Nat.zero_le _)
    obtain ⟨hpop, hheap, hcons⟩ := takeLast_spec hne hord (List.Perm.refl h)
    rw [hlast] at hpop hcons
    refine ⟨_, ?_, hheap, hcons⟩
    simp only [remove, hlast, ne_eq, not_true_eq_false, if_false]
    exact hpop
  · obtain ⟨hord, hperm, hval⟩ := remove_reorder hh (i := i) (by omega)
    have hdlen := hperm.length_eq
    have hdne := List.ne_nil_of_length_pos (show 0 < _ by rw [hdlen]; omega)
    obtain ⟨hpop, hheap, hcons⟩ := takeLast_spec hdne (by rw [hdlen]; exact hord) hperm
    rw [hdlen, hval] at hpop hcons
    refine ⟨_, ?_, hheap, hcons⟩
    simp only [remove, ne_eq, hlast, not_false_eq_true, if_true]
    exact hpop

/-- `heap.Init` orders any slice: each `down`, last parent first, extends the ordered part by one
parent. -/
theorem init_spec (h : List α) : IsHeap (init h) ∧ List.Perm (init h) h := by
  have step : ∀ k, k ≤ h.length / 2 → ∀ g : List α, g.length = h.length →
      OrderedFrom g k h.length → List.Perm g h →
      OrderedFrom ((List.range k).reverse.foldl (fun g i => (down g i h.length).1) g) 0 h.length ∧
        List.Perm ((List.range k).reverse.foldl (fun g i => (down g i h.length).1) g) h := by
    intro k
    induction k with
    | zero => intro _ g _ hord hperm; exact ⟨hord, hperm⟩
    | succ k ih =>
      intro hk g hg hord hperm
      have inv : DownInv g k k h.length := by
        refine ⟨le_refl _, by omega, fun c hc hcn hlo hpc => ?_, fun hk0 hlo => ?_⟩
        · exact hord c hc hcn (by omega)
        · exact absurd hlo (by have := parent_lt hk0; omega)
      obtain ⟨hord', hperm', -⟩ := downLoop_spec g k k h.length inv
      rw [List.range_succ, List.reverse_append, List.reverse_singleton, List.singleton_append,
        List.foldl_cons]
      exact ih (by omega) _ (by rw [down, hperm'.length_eq, hg]) hord' (hperm'.trans hperm)
  have hstart : OrderedFrom h (h.length / 2) h.length := by
    intro c hc hcn hlo
    unfold parent at hlo
    omega
  obtain ⟨hord, hperm⟩ := step _ (le_refl _) h rfl hstart (List.Perm.refl h)
  refine ⟨?_, hperm⟩
  unfold IsHeap init
  rw [hperm.length_eq]
  exact hord

end MinHeap
