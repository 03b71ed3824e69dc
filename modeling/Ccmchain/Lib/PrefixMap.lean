import Mathlib.Logic.Function.Basic
import Mathlib.Data.List.Basic

/-!
# Partial maps keyed by lists

A radix tree stands for a partial map from key sequences to values, and each of its node
kinds builds that map from the maps of its children in one of three ways: a single entry at
the empty key, a map moved under a fixed prefix, or a choice of map by the first key
element. This file gives the three constructions and how they commute with updating one
key, which is what insertion and deletion into such a tree come down to.
-/

namespace PrefixMap

variable {α β : Type}

/-- The map with the one entry `[] ↦ v`. -/
def single (v : β) : List α → Option β
  | [] => some v
  | _ :: _ => none

/-- The map that sends `a :: s` to `g a s`, and `[]` to nothing. -/
def branch (g : α → List α → Option β) : List α → Option β
  | [] => none
  | a :: s => g a s

/-- The empty map. -/
def empty : List α → Option β := fun _ => none

@[simp] theorem empty_apply (r : List α) : (empty r : Option β) = none := rfl

@[simp] theorem single_nil (v : β) : single v ([] : List α) = some v := rfl

@[simp] theorem single_cons (v : β) (a : α) (s : List α) : single v (a :: s) = none := rfl

@[simp] theorem branch_nil (g : α → List α → Option β) : branch g [] = none := rfl

@[simp] theorem branch_cons (g : α → List α → Option β) (a : α) (s : List α) :
    branch g (a :: s) = g a s := rfl

/-- `f` has entries below two different first elements. -/
def Splits (f : List α → Option β) : Prop :=
  ∃ i j r s, i ≠ j ∧ f (i :: r) ≠ none ∧ f (j :: s) ≠ none

theorem not_splits_single (v : β) : ¬ Splits (single v : List α → Option β) := by
  rintro ⟨i, j, r, s, -, hi, -⟩
  exact hi rfl

theorem branch_injective : Function.Injective (branch : (α → List α → Option β) → _) := by
  intro g g' h
  funext a s
  exact congrFun h (a :: s)

variable [DecidableEq α]

/-- `f` moved under the prefix `p`: it answers for `p ++ s` what `f` answers for `s`, and
nothing for keys that do not start with `p`. -/
def under (p : List α) (f : List α → Option β) : List α → Option β :=
  fun r => if p <+: r then f (r.drop p.length) else none

@[simp] theorem under_nil (f : List α → Option β) : under [] f = f := by
  funext r
  simp [under]

@[simp] theorem under_cons_nil (a : α) (p : List α) (f : List α → Option β) :
    under (a :: p) f [] = none := by
  simp [under]

theorem under_cons_cons (a b : α) (p r : List α) (f : List α → Option β) :
    under (a :: p) f (b :: r) = if a = b then under p f r else none := by
  by_cases h : a = b
  · subst h
    simp [under]
  · simp [under, h]

@[simp] theorem under_append_apply (p s : List α) (f : List α → Option β) :
    under p f (p ++ s) = f s := by
  simp [under]

@[simp] theorem under_self (p : List α) (f : List α → Option β) : under p f p = f [] := by
  simpa using under_append_apply p [] f

theorem under_append (p q : List α) (f : List α → Option β) :
    under (p ++ q) f = under p (under q f) := by
  funext r
  induction p generalizing r with
  | nil => simp
  | cons a p ih =>
    cases r with
    | nil => simp
    | cons b r =>
      simp only [List.cons_append, under_cons_cons]
      split
      · exact ih r
      · rfl

theorem under_eq_none {p r : List α} (h : ¬ p <+: r) (f : List α → Option β) :
    under p f r = none := by
  simp [under, h]

/-- A key outside the prefix is never answered. -/
theorem prefix_of_under_ne_none {p r : List α} {f : List α → Option β}
    (h : under p f r ≠ none) : p <+: r := by
  by_contra hp
  exact h (under_eq_none hp f)

theorem under_injective (p : List α) : Function.Injective (under (β := β) p) := by
  intro f g h
  funext s
  have := congrFun h (p ++ s)
  rwa [under_append_apply, under_append_apply] at this

/-- Two prefixes that place the same non-empty map are comparable. -/
theorem prefix_or_prefix_of_under_eq {p q : List α} {f g : List α → Option β}
    (h : under p f = under q g) {r : List α} (hr : f r ≠ none) : p <+: q ∨ q <+: p := by
  have hq : under q g (p ++ r) ≠ none := by
    rw [← h, under_append_apply]
    exact hr
  exact List.prefix_or_prefix_of_prefix (List.prefix_append p r) (prefix_of_under_ne_none hq)

/-- Below a non-empty prefix every entry starts with the same element. -/
theorem not_splits_under {p : List α} (hp : p ≠ []) (f : List α → Option β) :
    ¬ Splits (under p f) := by
  rintro ⟨i, j, r, s, hij, hi, hj⟩
  obtain ⟨a, p, rfl⟩ := List.exists_cons_of_ne_nil hp
  have hai := (List.cons_prefix_cons.mp (prefix_of_under_ne_none hi)).1
  have haj := (List.cons_prefix_cons.mp (prefix_of_under_ne_none hj)).1
  exact hij (hai.symm.trans haj)

theorem under_single (p : List α) (v : β) (r : List α) :
    under p (single v) r = if r = p then some v else none := by
  by_cases hp : p <+: r
  · obtain ⟨s, rfl⟩ := hp
    cases s <;> simp [single]
  · rw [under_eq_none hp]
    have : r ≠ p := by rintro rfl; exact hp (List.prefix_refl _)
    simp [this]

/-- A single entry under a prefix is the empty map updated at that prefix. -/
theorem under_single_eq_update (p : List α) (v : β) :
    under p (single v) = Function.update empty p (some v) := by
  funext r
  rw [under_single]
  by_cases h : r = p
  · subst h
    simp
  · simp [h]

/-- Updating under a prefix is updating at the prefixed key. -/
theorem under_update (p s : List α) (f : List α → Option β) (x : Option β) :
    under p (Function.update f s x) = Function.update (under p f) (p ++ s) x := by
  funext r
  by_cases hp : p <+: r
  · obtain ⟨t, rfl⟩ := hp
    by_cases ht : t = s
    · subst ht
      simp
    · have : p ++ t ≠ p ++ s := fun h => ht (List.append_cancel_left h)
      simp [Function.update_of_ne ht, Function.update_of_ne this]
  · have : r ≠ p ++ s := by rintro rfl; exact hp (List.prefix_append _ _)
    rw [under_eq_none hp, Function.update_of_ne this, under_eq_none hp]

/-- Updating a branch is updating the map of the chosen element. -/
theorem branch_update (g : α → List α → Option β) (a : α) (s : List α) (x : Option β) :
    Function.update (branch g) (a :: s) x =
      branch (Function.update g a (Function.update (g a) s x)) := by
  funext r
  cases r with
  | nil => simp
  | cons b t =>
    by_cases hb : b = a
    · subst hb
      by_cases ht : t = s
      · subst ht
        simp
      · have : b :: t ≠ b :: s := fun h => ht (List.cons.inj h).2
        simp [Function.update_of_ne this, Function.update_of_ne ht]
    · have : b :: t ≠ a :: s := fun h => hb (List.cons.inj h).1
      simp [Function.update_of_ne this, Function.update_of_ne hb]

/-- A branch whose every choice but `a` is empty is the map of `a` under `[a]`. -/
theorem branch_eq_under_of_empty (g : α → List α → Option β) (a : α)
    (h : ∀ b, b ≠ a → g b = empty) : branch g = under [a] (g a) := by
  funext r
  cases r with
  | nil => simp
  | cons b t =>
    rw [under_cons_cons, under_nil, branch_cons]
    by_cases hb : b = a
    · subst hb
      simp
    · rw [h b hb, if_neg (Ne.symm hb)]
      rfl

end PrefixMap
