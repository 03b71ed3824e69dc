import Mathlib.Data.List.AList
import Mathlib.Algebra.BigOperators.Group.List.Basic

/-!
# Sums over association lists

`AList.sum f s` adds `f` over the entries of `s`. A map whose entries each carry a size, kept
beside a running total of the sizes, stays in step with the total under writes and deletes by
the rules below: every write is an `insert`, and both `insert` and a lookup split the sum into
one entry and the sum over the map without that key.
-/

namespace AList

variable {α : Type*} [DecidableEq α] {β : α → Type*} {M : Type*} [AddCommMonoid M]

/-- The sum of `f` over the entries of `s`. -/
def sum (f : (a : α) → β a → M) (s : AList β) : M :=
  (s.entries.map fun e => f e.1 e.2).sum

variable {f : (a : α) → β a → M} {s : AList β} {a : α} {b : β a}

theorem entries_erase (a : α) (s : AList β) : (s.erase a).entries = s.entries.kerase a := rfl

/-- A key the map holds splits the sum into its entry and the rest of the map. -/
theorem sum_eq_add_sum_erase (h : s.lookup a = some b) : s.sum f = f a b + (s.erase a).sum f := by
  have hmem : a ∈ s.keys := mem_keys.mp (lookup_isSome.mp (by simp [h]))
  obtain ⟨b', l₁, l₂, hl₁, hs, herase⟩ := List.exists_of_kerase hmem
  have hb : b' = b :=
    s.nodupKeys.eq_of_mk_mem (by rw [hs]; simp) (mem_lookup_iff.mp h)
  subst hb
  simp only [sum, entries_erase]
  rw [herase, hs]
  simp only [List.map_append, List.map_cons, List.sum_append, List.sum_cons]
  rw [add_left_comm]

/-- Erasing a key the map does not hold leaves the sum. -/
theorem sum_erase_of_lookup_eq_none (h : s.lookup a = none) : (s.erase a).sum f = s.sum f := by
  have hmem : a ∉ s.keys := fun hm => (lookup_eq_none.mp h) (mem_keys.mpr hm)
  simp only [sum, entries_erase, List.kerase_of_notMem_keys hmem]

theorem sum_insert (f : (a : α) → β a → M) (s : AList β) (a : α) (b : β a) :
    (s.insert a b).sum f = f a b + (s.erase a).sum f := by
  simp only [sum, entries_insert, entries_erase, List.map_cons, List.sum_cons]

/-- Adding a key the map does not hold adds its entry to the sum. -/
theorem sum_insert_of_lookup_eq_none (f : (a : α) → β a → M) {s : AList β} {a : α}
    (h : s.lookup a = none) (b : β a) : (s.insert a b).sum f = s.sum f + f a b := by
  rw [sum_insert, sum_erase_of_lookup_eq_none h, add_comm]

/-- Any key splits the sum into the rest of the map and what its entry adds, if it has one. -/
theorem sum_eq_sum_erase_add (f : (a : α) → β a → M) (s : AList β) (a : α) :
    s.sum f = (s.erase a).sum f + ((s.lookup a).map (f a)).getD 0 := by
  cases h : s.lookup a with
  | none => rw [sum_erase_of_lookup_eq_none h, Option.map_none, Option.getD_none, add_zero]
  | some b => rw [sum_eq_add_sum_erase h, Option.map_some, Option.getD_some, add_comm]

/-- A write adds its entry to the sum and takes away the entry it replaces, if any. -/
theorem sum_insert_add_lookup (f : (a : α) → β a → M) (s : AList β) (a : α) (b : β a) :
    (s.insert a b).sum f + ((s.lookup a).map (f a)).getD 0 = s.sum f + f a b := by
  rw [sum_insert, sum_eq_sum_erase_add f s a, add_comm (f a b), add_right_comm]

/-- A sum through `g` depends only on what the lookups give through `g`. -/
theorem sum_comp_eq_of_lookup {γ : Type*} (g : (a : α) → β a → γ) (F : α → γ → M)
    {s t : AList β} (h : ∀ a, (s.lookup a).map (g a) = (t.lookup a).map (g a)) :
    s.sum (fun a b => F a (g a b)) = t.sum (fun a b => F a (g a b)) := by
  induction s using AList.insertRec generalizing t with
  | H0 =>
    -- `t` has no key either, so both sums are empty
    cases ht : t.entries with
    | nil => simp [sum, ht]
    | cons e rest =>
      have hlook : t.lookup e.1 = some e.2 := mem_lookup_iff.mpr (by simp [ht])
      have := h e.1
      rw [lookup_empty, hlook] at this
      cases this
  | IH a b l ha ih =>
    obtain ⟨b', hb', hg⟩ : ∃ b', t.lookup a = some b' ∧ g a b' = g a b := by
      have := h a
      rw [lookup_insert] at this
      cases ht : t.lookup a with
      | none =>
        rw [ht] at this
        cases this
      | some b' =>
        rw [ht] at this
        exact ⟨b', rfl, (Option.some.inj this).symm⟩
    have hrest : ∀ x, (l.lookup x).map (g x) = ((t.erase a).lookup x).map (g x) := by
      intro x
      by_cases hx : x = a
      · subst hx
        rw [lookup_erase, lookup_eq_none.mpr ha]
      · rw [lookup_erase_ne hx, ← h x, lookup_insert_ne hx]
    rw [sum_insert, sum_eq_add_sum_erase hb', hg, sum_erase_of_lookup_eq_none (lookup_eq_none.mpr ha),
      ih hrest]

end AList
