/-!
# Running `Except` computations

The simp lemmas that evaluate a `do` block of `Except` whose first step is known, and the
inversion of a successful bind, which splits a successful run into its two halves.
-/

namespace Except

variable {ε α β : Type}

@[simp] theorem ok_bind (a : α) (f : α → Except ε β) : (Except.ok a >>= f) = f a := rfl

@[simp] theorem error_bind (e : ε) (f : α → Except ε β) :
    (Except.error e >>= f : Except ε β) = .error e := rfl

@[simp] theorem pure_eq_ok (a : α) : (pure a : Except ε α) = .ok a := rfl

@[simp] theorem throw_eq_error (e : ε) : (throw e : Except ε α) = .error e := rfl

/-- A bind succeeds exactly when both halves do. -/
theorem bind_eq_ok_iff {x : Except ε α} {f : α → Except ε β} {b : β} :
    x >>= f = .ok b ↔ ∃ a, x = .ok a ∧ f a = .ok b := by
  cases x with
  | error e => simp
  | ok a => simp

/-- A guard that fails with an error passes exactly when its condition is false. -/
theorem ite_error_eq_ok {c : Prop} [Decidable c] {e : ε} {x : Except ε α} {b : α} :
    (if c then .error e else x) = .ok b ↔ ¬c ∧ x = .ok b := by
  by_cases hc : c <;> simp [hc]

section mapError

variable {ε' : Type} {f : ε → ε'}

@[simp] theorem mapError_ok (a : α) : (Except.ok a : Except ε α).mapError f = .ok a := rfl

@[simp] theorem mapError_error (e : ε) :
    (Except.error e : Except ε α).mapError f = .error (f e) := rfl

@[simp] theorem mapError_eq_ok {x : Except ε α} {a : α} : x.mapError f = .ok a ↔ x = .ok a := by
  cases x <;> simp

end mapError

/-! ### Failures a computation avoids -/

/-- The computation does not end in an error that `p` holds of. -/
def Avoids (p : ε → Prop) (x : Except ε α) : Prop := ∀ e, x = .error e → ¬ p e

variable {p : ε → Prop}

@[simp] theorem avoids_ok (a : α) : Avoids p (.ok a : Except ε α) := by
  intro e h
  cases h

@[simp] theorem avoids_error_iff (e : ε) : Avoids p (.error e : Except ε α) ↔ ¬ p e := by
  constructor
  · exact fun h => h e rfl
  · rintro h e' ⟨⟩
    exact h

/-- A bind avoids `p` when its first half does and so does the rest after each of its values. -/
theorem Avoids.bind {x : Except ε α} {f : α → Except ε β} (hx : Avoids p x)
    (hf : ∀ a, x = .ok a → Avoids p (f a)) : Avoids p (x >>= f) := by
  cases x with
  | error e =>
    intro e' h
    cases h
    exact hx e rfl
  | ok a => exact hf a rfl

theorem Avoids.map {x : Except ε α} (g : α → β) (hx : Avoids p x) : Avoids p (g <$> x) := by
  cases x with
  | error e =>
    intro e' h
    cases h
    exact hx e rfl
  | ok a => exact avoids_ok _

theorem avoids_mapM {l : List α} {f : α → Except ε β} (h : ∀ a ∈ l, Avoids p (f a)) :
    Avoids p (l.mapM f) := by
  induction l with
  | nil => exact avoids_ok _
  | cons a l ih =>
    rw [List.mapM_cons]
    refine (h a (by simp)).bind fun b _ => ?_
    refine (ih fun a' ha' => h a' (by simp [ha'])).bind fun bs _ => ?_
    exact avoids_ok _

end Except
