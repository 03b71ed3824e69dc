import Ccmchain.Lib.EStateM
import Mathlib.Logic.Function.Basic

/-!
# Undo logs

A state that logs, for every change it makes, an entry from which the change can be undone,
can go back to any earlier length of its log by undoing the entries from the last one down.

`Records undo es h` says that the views `h 0, h 1, …, h es.length` are the views a state passed
through while it logged `es`: undoing entry `i` from view `h (i + 1)` gives view `h i`. Logging
one more entry (`Records.append`) and dropping a suffix (`Records.take`) keep it, and a loop
that undoes the entries after position `n` one by one, last first, ends in view `h n`
(`forM_undo`), provided each concrete undo step does to the view what `undo` says.
-/

namespace UndoLog

variable {V E : Type} (undo : E → V → V)

/-- `h` records the log `es`: undoing entry `i` from view `i + 1` gives view `i`. -/
def Records (es : List E) (h : Nat → V) : Prop :=
  ∀ i (hi : i < es.length), undo es[i] (h (i + 1)) = h i

variable {undo}

theorem Records.nil (h : Nat → V) : Records undo [] h := by
  intro i hi
  simp at hi

/-- Log one more entry `e`, after which the view is `v`. -/
theorem Records.append {es : List E} {h : Nat → V} (hr : Records undo es h) {e : E} {v : V}
    (hv : undo e v = h es.length) :
    Records undo (es ++ [e]) (Function.update h (es.length + 1) v) := by
  intro i hi
  have hi' : i < es.length + 1 := by simpa using hi
  rw [Function.update_of_ne (show i ≠ es.length + 1 by omega)]
  by_cases hlt : i < es.length
  · rw [List.getElem_append_left hlt, Function.update_of_ne (show i + 1 ≠ es.length + 1 by omega)]
    exact hr i hlt
  · obtain rfl : i = es.length := by omega
    rw [List.getElem_append_right (Nat.le_refl _), Function.update_self]
    simpa using hv

/-- Drop the entries after the first `n`. -/
theorem Records.take {es : List E} {h : Nat → V} (hr : Records undo es h) (n : Nat) :
    Records undo (es.take n) h := by
  intro i hi
  rw [List.length_take] at hi
  rw [List.getElem_take]
  exact hr i (by omega)

/-- Two histories that agree up to the length of the log record it alike. -/
theorem Records.congr {es : List E} {h h' : Nat → V} (hr : Records undo es h)
    (hh : ∀ i ≤ es.length, h' i = h i) : Records undo es h' := by
  intro i hi
  rw [hh i (by omega), hh (i + 1) (by omega)]
  exact hr i hi

section Simulation

variable {S P : Type} {view : S → V} {I : S → Prop} {Good : E → V → Prop}
  {step : E → EStateM P S Unit}

/-- The loop that undoes the entries after position `n`, last first, from a state whose view is
the last one recorded, ends in a state whose view is `h n`. Each concrete step keeps the
invariant `I` and does to the view what `undo` says, from any view where `Good` holds of its
entry, as it does at every view the history records. -/
theorem forM_undo
    (hstep : ∀ e s, I s → Good e (view s) →
      ∃ s', step e s = .ok () s' ∧ I s' ∧ view s' = undo e (view s))
    {es : List E} {h : Nat → V} (hr : Records undo es h)
    (hg : ∀ i (hi : i < es.length), Good es[i] (h (i + 1))) :
    ∀ (k n : Nat), n + k = es.length → ∀ s, I s → view s = h es.length →
      ∃ s', forM (es.drop n).reverse step s = .ok () s' ∧ I s' ∧ view s' = h n := by
  intro k
  -- the induction is on the number `k` of entries still to undo
  induction k with
  | zero =>
    intro n hn s hI hs
    refine ⟨s, ?_, hI, ?_⟩
    · rw [List.drop_eq_nil_of_le (by omega)]
      rfl
    · rw [hs, ← hn, Nat.add_zero]
  | succ k ih =>
    intro n hn s hI hs
    have hlt : n < es.length := by omega
    obtain ⟨s₁, hrun₁, hI₁, hv₁⟩ := ih (n + 1) (by omega) s hI hs
    obtain ⟨s₂, hrun₂, hI₂, hv₂⟩ := hstep es[n] s₁ hI₁ (by rw [hv₁]; exact hg n hlt)
    refine ⟨s₂, ?_, hI₂, ?_⟩
    · rw [List.drop_eq_getElem_cons hlt, List.reverse_cons, List.forM_append,
        EStateM.bind_of_ok hrun₁, List.forM_cons, EStateM.bind_of_ok hrun₂]
      rfl
    · rw [hv₂, hv₁]
      exact hr n hlt

end Simulation

end UndoLog
