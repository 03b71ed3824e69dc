import Mathlib.Data.List.Chain
import Mathlib.Data.List.Nodup

/-!
# Lists threaded through a map

A cache that keeps its entries in insertion order can thread them into a doubly linked list
through the entries themselves: each entry names the next and the previous key, a distinguished
`nil` key ends the list, and the cache holds the first and the last key. `Threads` says that such
pointers spell out a given list of keys. Each operation on the pointers is then an operation on
the list: appending behind the last key (`singleton`, `push`), taking the first key off (`pop`),
and unlinking a key at the front, at the back or in the middle (`unlink_head`, `unlink_last`,
`unlink_mid`). The back-pointer of the first key, and the last key of an empty list, are left
free: code that keeps such a list usually leaves them stale.
-/

namespace Thread

variable {K : Type}

/-- `Threads nil next prev head tail l`: the keys of `l`, distinct and none of them `nil`, are
linked in order by `next` and back by `prev`; `head` is the first of them (`nil` for an empty
list) and `tail` the last, whose `next` is `nil`. A key without an entry has no pointers. -/
structure Threads (nil : K) (next prev : K → Option K) (head tail : K) (l : List K) : Prop where
  nodup : l.Nodup
  nil_not_mem : nil ∉ l
  head_eq : head = l.headD nil
  tail_eq : ∀ t ∈ l.getLast?, tail = t
  links : l.IsChain fun a b => next a = some b ∧ prev b = some a
  last_next : ∀ t ∈ l.getLast?, next t = some nil

variable {nil k : K} {next prev next' prev' : K → Option K} {head tail : K} {l l₁ l₂ : List K}

private theorem headD_append_of_ne_nil (d : K) (hl : l₁ ≠ []) (l₂ : List K) :
    (l₁ ++ l₂).headD d = l₁.headD d := by
  obtain ⟨b, l, rfl⟩ := List.exists_cons_of_ne_nil hl
  rfl

theorem Threads.empty (h : head = nil) : Threads nil next prev head tail [] where
  nodup := List.nodup_nil
  nil_not_mem := List.not_mem_nil
  head_eq := h
  tail_eq := by simp
  links := .nil
  last_next := by simp

theorem Threads.singleton (hk : k ≠ nil) (hn : next k = some nil) :
    Threads nil next prev k k [k] where
  nodup := List.nodup_singleton k
  nil_not_mem := by simpa using hk.symm
  head_eq := rfl
  tail_eq := by simp
  links := .singleton k
  last_next := by simpa using hn

/-- Pointers that agree on the keys of the list, and back-pointers that agree past its first
key, thread the same list. -/
theorem Threads.congr (h : Threads nil next prev head tail l) (hn : ∀ a ∈ l, next' a = next a)
    (hp : ∀ a ∈ l.tail, prev' a = prev a) : Threads nil next' prev' head tail l where
  nodup := h.nodup
  nil_not_mem := h.nil_not_mem
  head_eq := h.head_eq
  tail_eq := h.tail_eq
  links := h.links.imp_of_mem_tail_imp fun a b ha hb hab =>
    ⟨(hn a ha).trans hab.1, (hp b hb).trans hab.2⟩
  last_next t ht := (hn t (List.mem_of_getLast? ht)).trans (h.last_next t ht)

/-- The list is empty exactly when its head is `nil`. -/
theorem Threads.head_eq_nil_iff (h : Threads nil next prev head tail l) : head = nil ↔ l = [] := by
  rw [h.head_eq]
  cases l with
  | nil => simp
  | cons b l =>
    simp only [List.headD_cons, reduceCtorEq, iff_false]
    exact fun e => h.nil_not_mem (e ▸ List.mem_cons_self ..)

/-- The tail of a nonempty list is one of its keys. -/
theorem Threads.tail_mem (h : Threads nil next prev head tail l) (hl : l ≠ []) : tail ∈ l := by
  rw [h.tail_eq _ (List.getLast_mem_getLast? hl)]
  exact List.getLast_mem hl

/-! ### The pointers at a key -/

section Read

variable {a : K} (h : Threads nil next prev head tail (l₁ ++ a :: l₂))
include h

theorem Threads.not_mem_sides : a ∉ l₁ ++ l₂ :=
  (List.nodup_cons.mp (List.nodup_middle.mp h.nodup)).1

/-- The key after `a` is the first of those that follow it, or `nil`. -/
theorem Threads.next_eq : next a = some (l₂.headD nil) := by
  cases l₂ with
  | nil => exact h.last_next a (by simp)
  | cons b l₂ => exact (List.isChain_append_cons_cons.mp h.links).2.1.1

/-- The key before `a`, when it is not the first, is the last of those before it. -/
theorem Threads.prev_eq (h₁ : l₁ ≠ []) : prev a = some (l₁.getLast h₁) := by
  have h' : Threads nil next prev head tail (l₁.dropLast ++ l₁.getLast h₁ :: a :: l₂) := by
    rwa [← List.singleton_append, ← List.append_assoc, List.dropLast_append_getLast h₁]
  exact (List.isChain_append_cons_cons.mp h'.links).2.1.2

/-- `a` is the head exactly when no key comes before it. -/
theorem Threads.eq_head_iff : a = head ↔ l₁ = [] := by
  rw [h.head_eq]
  cases l₁ with
  | nil => simp
  | cons b l₁ =>
    have hna := h.not_mem_sides
    simp only [List.cons_append, List.headD_cons, reduceCtorEq, iff_false]
    rintro rfl
    exact hna (by simp)

/-- `a` is the tail exactly when no key comes after it. -/
theorem Threads.eq_tail_iff : a = tail ↔ l₂ = [] := by
  rcases List.eq_nil_or_concat' l₂ with rfl | ⟨l₃, t, rfl⟩
  · simp [h.tail_eq a (by simp)]
  · have ht : tail = t := h.tail_eq t (by simp [List.getLast?_cons])
    have hna := h.not_mem_sides
    simp only [ht, List.append_eq_nil_iff, List.cons_ne_self, and_false, iff_false]
    rintro rfl
    exact hna (by simp)

end Read

/-- Every key of the list is followed by a key of the list, or by `nil`. -/
theorem Threads.next_mem (h : Threads nil next prev head tail l) {a : K} (ha : a ∈ l) :
    ∃ b, next a = some b ∧ (b = nil ∨ b ∈ l) := by
  obtain ⟨l₁, l₂, rfl⟩ := List.append_of_mem ha
  refine ⟨_, h.next_eq, ?_⟩
  cases l₂ with
  | nil => exact .inl rfl
  | cons b l₂ => exact .inr (by simp)

/-! ### Operations -/

/-- Taking the first key off: the list goes on from the key after it. -/
theorem Threads.pop (h : Threads nil next prev head tail (k :: l)) :
    Threads nil next prev (l.headD nil) tail l := by
  have hlast : ∀ t ∈ l.getLast?, t ∈ (k :: l).getLast? := by
    intro t ht
    rw [Option.mem_def] at ht
    simp [List.getLast?_cons, ht]
  exact {
    nodup := (List.nodup_cons.mp h.nodup).2
    nil_not_mem := fun hm => h.nil_not_mem (List.mem_cons_of_mem k hm)
    head_eq := rfl
    tail_eq := fun t ht => h.tail_eq t (hlast t ht)
    links := h.links.tail
    last_next := fun t ht => h.last_next t (hlast t ht) }

variable [DecidableEq K]

/-- Appending a fresh key behind the last one. -/
theorem Threads.push (h : Threads nil next prev head tail l) (hl : l ≠ []) (hk : k ∉ l)
    (hkn : k ≠ nil) :
    Threads nil (Function.update (Function.update next k (some nil)) tail (some k))
      (Function.update prev k (some tail)) head k (l ++ [k]) := by
  have htail : tail = l.getLast hl := h.tail_eq _ (List.getLast_mem_getLast? hl)
  have hnext : next tail = some nil := h.last_next tail (htail ▸ List.getLast_mem_getLast? hl)
  have hkt : k ≠ tail := fun e => hk (e ▸ htail ▸ List.getLast_mem hl)
  refine ⟨?_, ?_, ?_, ?_, ?_, ?_⟩
  · rw [← List.concat_eq_append]
    exact h.nodup.concat hk
  · simpa [hkn.symm] using h.nil_not_mem
  · rw [headD_append_of_ne_nil nil hl, h.head_eq]
  · simp
  · refine List.IsChain.append ?_ (.singleton k) ?_
    · refine h.links.imp_of_mem_tail_imp fun a b ha hb hab => ⟨?_, ?_⟩
      · -- the tail is followed by `nil`, which is not a key of the list
        have hat : a ≠ tail := by
          rintro rfl
          rw [hnext, Option.some.injEq] at hab
          exact h.nil_not_mem (hab.1 ▸ List.mem_of_mem_tail hb)
        have hak : a ≠ k := fun e => hk (e ▸ ha)
        rw [Function.update_of_ne hat, Function.update_of_ne hak, hab.1]
      · have hbk : b ≠ k := fun e => hk (e ▸ List.mem_of_mem_tail hb)
        rw [Function.update_of_ne hbk, hab.2]
    · intro x hx y hy
      rw [List.getLast?_eq_some_getLast hl, Option.mem_some_iff] at hx
      simp only [List.head?_cons, Option.mem_some_iff] at hy
      subst hx hy
      rw [← htail]
      simp
  · intro t ht
    simp only [List.getLast?_append, List.getLast?_singleton, Option.some_or,
      Option.mem_some_iff] at ht
    subst ht
    rw [Function.update_of_ne hkt, Function.update_self]

/-- The back-pointer of the head is free. -/
theorem Threads.update_head_prev (h : Threads nil next prev head tail l) (p : Option K) :
    Threads nil next (Function.update prev head p) head tail l := by
  refine h.congr (fun _ _ => rfl) fun a ha => Function.update_of_ne ?_ _ _
  -- past the head, no key is the head
  cases l with
  | nil => cases ha
  | cons b l =>
    rw [h.head_eq]
    rintro rfl
    exact (List.nodup_cons.mp h.nodup).1 ha

/-- Unlinking the first key: the key after it becomes the head, and its back-pointer may be
overwritten. -/
theorem Threads.unlink_head (h : Threads nil next prev head tail (k :: l)) (p : Option K) :
    Threads nil next (Function.update prev (l.headD nil) p) (l.headD nil) tail l :=
  h.pop.update_head_prev p

/-- Unlinking the last key of a list of two keys or more: the key before it becomes the tail. -/
theorem Threads.unlink_last (h : Threads nil next prev head k (l ++ [k])) (hl : l ≠ []) :
    Threads nil (Function.update next (l.getLast hl) (some nil)) prev head (l.getLast hl) l := by
  have hkl : k ∉ l := by simpa using h.not_mem_sides
  have hnext : next (l.getLast hl) = some k := by
    have h' : Threads nil next prev head k (l.dropLast ++ l.getLast hl :: [k]) := by
      rwa [← List.singleton_append, ← List.append_assoc, List.dropLast_append_getLast hl]
    exact h'.next_eq
  refine ⟨h.nodup.sublist (List.sublist_append_left l [k]),
    fun hm => h.nil_not_mem (List.mem_append_left _ hm), ?_, ?_, ?_, ?_⟩
  · rw [h.head_eq, headD_append_of_ne_nil nil hl]
  · intro t ht
    rw [List.getLast?_eq_some_getLast hl, Option.mem_some_iff] at ht
    exact ht
  · refine h.links.left_of_append.imp_of_mem_tail_imp fun a b _ hb hab => ⟨?_, hab.2⟩
    -- the old last key but one was followed by `k`, which is not a key of the new list
    have ha : a ≠ l.getLast hl := by
      rintro rfl
      rw [hnext, Option.some.injEq] at hab
      exact hkl (hab.1 ▸ List.mem_of_mem_tail hb)
    rw [Function.update_of_ne ha, hab.1]
  · intro t ht
    rw [List.getLast?_eq_some_getLast hl, Option.mem_some_iff] at ht
    rw [← ht, Function.update_self]

/-- Unlinking a key with keys on both sides: its neighbours are linked to each other. -/
theorem Threads.unlink_mid (h : Threads nil next prev head tail (l₁ ++ k :: l₂)) (h₁ : l₁ ≠ [])
    (h₂ : l₂ ≠ []) :
    Threads nil (Function.update next (l₁.getLast h₁) (some (l₂.head h₂)))
      (Function.update prev (l₂.head h₂) (some (l₁.getLast h₁))) head tail (l₁ ++ l₂) := by
  obtain ⟨hnd₁, hnd₂, hdisj⟩ := List.nodup_append.mp h.nodup
  have hk₁ : k ∉ l₁ := fun hm => hdisj k hm k (List.mem_cons_self ..) rfl
  have hlast₁ : l₁.getLast h₁ ∉ l₂ := fun hm =>
    hdisj _ (List.getLast_mem h₁) _ (List.mem_cons_of_mem k hm) rfl
  have hhead₂ : l₂.head h₂ ∉ l₂.tail := by
    obtain ⟨b, l, rfl⟩ := List.exists_cons_of_ne_nil h₂
    exact (List.nodup_cons.mp (List.nodup_cons.mp hnd₂).2).1
  have hnext : next (l₁.getLast h₁) = some k := by
    have h' : Threads nil next prev head tail (l₁.dropLast ++ l₁.getLast h₁ :: k :: l₂) := by
      rwa [← List.singleton_append, ← List.append_assoc, List.dropLast_append_getLast h₁]
    exact h'.next_eq
  obtain ⟨hc₁, hc₂⟩ := List.isChain_split.mp h.links
  refine ⟨h.nodup.sublist ((List.sublist_cons_self k l₂).append_left l₁),
    fun hm => h.nil_not_mem (List.mem_append.mpr ((List.mem_append.mp hm).imp id
      (List.mem_cons_of_mem k))), ?_, ?_, ?_, ?_⟩
  · rw [h.head_eq, headD_append_of_ne_nil nil h₁, headD_append_of_ne_nil nil h₁]
  · intro t ht
    refine h.tail_eq t ?_
    obtain ⟨b, l, rfl⟩ := List.exists_cons_of_ne_nil h₂
    simpa [List.getLast?_cons] using ht
  · refine List.IsChain.append ?_ ?_ ?_
    · -- within `l₁`: the last key of `l₁` was followed by `k`, not by a key of `l₁`
      refine hc₁.left_of_append.imp_of_mem_tail_imp fun a b ha hb hab => ⟨?_, ?_⟩
      · have ha' : a ≠ l₁.getLast h₁ := by
          rintro rfl
          rw [hnext, Option.some.injEq] at hab
          exact hk₁ (hab.1 ▸ List.mem_of_mem_tail hb)
        rw [Function.update_of_ne ha', hab.1]
      · have hb' : b ≠ l₂.head h₂ := fun e =>
          hdisj b (List.mem_of_mem_tail hb) _ (List.mem_cons_of_mem k (e ▸ List.head_mem h₂)) rfl
        rw [Function.update_of_ne hb', hab.2]
    · -- within `l₂`: neither neighbour of `k` is touched
      refine hc₂.tail.imp_of_mem_tail_imp fun a b ha hb hab => ⟨?_, ?_⟩
      · have ha' : a ≠ l₁.getLast h₁ := fun e => hlast₁ (e ▸ ha)
        rw [Function.update_of_ne ha', hab.1]
      · have hb' : b ≠ l₂.head h₂ := fun e => hhead₂ (e ▸ hb)
        rw [Function.update_of_ne hb', hab.2]
    · intro x hx y hy
      rw [List.getLast?_eq_some_getLast h₁, Option.mem_some_iff] at hx
      rw [List.head?_eq_some_head h₂, Option.mem_some_iff] at hy
      subst hx hy
      simp
  · intro t ht
    obtain ⟨b, l, rfl⟩ := List.exists_cons_of_ne_nil h₂
    have ht' : t ∈ (b :: l).getLast? := by simpa using ht
    have htl : t ≠ l₁.getLast h₁ := fun e => hlast₁ (e ▸ List.mem_of_getLast? ht')
    rw [Function.update_of_ne htl]
    exact h.last_next t (by simpa [List.getLast?_cons] using ht')

end Thread
