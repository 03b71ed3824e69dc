/-!
# Errors in `EStateM`

Go code that calls a function returning `(value, err)` and inspects `err` itself, instead of
returning it at once, is an `EStateM` computation whose error is turned into a value. `attempt`
does that, keeping the state the computation left, as a Go method leaves its receiver.

`Throws P x` says that every error `x` can end with satisfies `P`, from any state: the rules
below build it up along a `do` block, one bind at a time. For loops, `forM_invariant` and
`foldlM_invariant` carry a property through every turn that succeeds, and
`forM_ok_of_invariant` and `foldlM_ok_of_invariant` show the whole loop succeeds when every turn
does.
-/

namespace EStateM

variable {ε σ α β : Type}

theorem bind_apply (x : EStateM ε σ α) (f : α → EStateM ε σ β) (s : σ) :
    (x >>= f) s = match x s with
      | .ok a s' => f a s'
      | .error e s' => .error e s' := rfl

/-- Run `x` and hand back its error as a value, with the state `x` left. -/
def attempt (x : EStateM ε σ α) : EStateM ε σ (Except ε α) := fun s =>
  match x s with
  | .ok a s' => .ok (.ok a) s'
  | .error e s' => .ok (.error e) s'

/-- The value or the error a run ends with, without the state it leaves: the results a Go
caller of a method sees. -/
def Result.toExcept : Result ε σ α → Except ε α
  | .ok a _ => .ok a
  | .error e _ => .error e

@[simp] theorem toExcept_ok (a : α) (s : σ) :
    (Result.ok a s : Result ε σ α).toExcept = .ok a := rfl

@[simp] theorem toExcept_error (e : ε) (s : σ) :
    (Result.error e s : Result ε σ α).toExcept = .error e := rfl

/-- Run `x` on one part of the state, read by `part` and written back by `back`: a method of a
field called by a method of the whole. -/
def zoom {τ : Type} (part : σ → τ) (back : τ → σ → σ) (x : EStateM ε τ α) : EStateM ε σ α :=
  fun s =>
    match x (part s) with
    | .ok a t => .ok a (back t s)
    | .error e t => .error e (back t s)

theorem zoom_of_ok {τ : Type} {part : σ → τ} {back : τ → σ → σ} {x : EStateM ε τ α} {s : σ}
    {a : α} {t : τ} (h : x (part s) = .ok a t) : zoom part back x s = .ok a (back t s) := by
  simp [zoom, h]

theorem zoom_eq_ok {τ : Type} {part : σ → τ} {back : τ → σ → σ} {x : EStateM ε τ α} {s s' : σ}
    {a : α} : zoom part back x s = .ok a s' ↔ ∃ t, x (part s) = .ok a t ∧ back t s = s' := by
  unfold zoom
  cases h : x (part s) with
  | ok b t =>
    constructor
    · intro h'
      cases h'
      exact ⟨t, rfl, rfl⟩
    · rintro ⟨t', h', rfl⟩
      cases h'
      rfl
  | error e t => simp

/-! ### Running a `do` block on a state -/

@[simp] theorem pure_apply (a : α) (s : σ) : (pure a : EStateM ε σ α) s = .ok a s := rfl

@[simp] theorem throw_apply (e : ε) (s : σ) : (throw e : EStateM ε σ α) s = .error e s := rfl

@[simp] theorem get_apply (s : σ) : (get : EStateM ε σ σ) s = .ok s s := rfl

@[simp] theorem set_apply (t s : σ) : (set t : EStateM ε σ PUnit) s = .ok ⟨⟩ t := rfl

@[simp] theorem modify_apply (f : σ → σ) (s : σ) :
    (modify f : EStateM ε σ PUnit) s = .ok ⟨⟩ (f s) := rfl

@[simp] theorem get_bind_apply (g : σ → EStateM ε σ β) (s : σ) : (get >>= g) s = g s s := rfl

@[simp] theorem set_bind_apply (t : σ) (g : PUnit → EStateM ε σ β) (s : σ) :
    (set t >>= g) s = g ⟨⟩ t := rfl

@[simp] theorem modify_bind_apply (f : σ → σ) (g : PUnit → EStateM ε σ β) (s : σ) :
    (modify f >>= g) s = g ⟨⟩ (f s) := rfl

@[simp] theorem throw_bind_apply (e : ε) (g : α → EStateM ε σ β) (s : σ) :
    (throw e >>= g) s = .error e s := rfl

@[simp] theorem map_apply (f : α → β) (x : EStateM ε σ α) (s : σ) :
    (f <$> x) s = match x s with
      | .ok a s' => .ok (f a) s'
      | .error e s' => .error e s' := rfl

theorem ite_apply_state {c : Prop} [Decidable c] (x y : EStateM ε σ α) (s : σ) :
    (if c then x else y) s = if c then x s else y s := by
  split <;> rfl

theorem bind_of_ok {x : EStateM ε σ α} {s s' : σ} {a : α} (h : x s = .ok a s')
    (f : α → EStateM ε σ β) : (x >>= f) s = f a s' := by
  simp only [bind_apply, h]

theorem bind_of_error {x : EStateM ε σ α} {s s' : σ} {e : ε} (h : x s = .error e s')
    (f : α → EStateM ε σ β) : (x >>= f) s = .error e s' := by
  simp only [bind_apply, h]

theorem adaptExcept_of_ok {ε' : Type} (f : ε → ε') {x : EStateM ε σ α} {s s' : σ} {a : α}
    (h : x s = .ok a s') : adaptExcept f x s = .ok a s' := by
  simp only [adaptExcept, h]

theorem adaptExcept_of_error {ε' : Type} (f : ε → ε') {x : EStateM ε σ α} {s s' : σ} {e : ε}
    (h : x s = .error e s') : adaptExcept f x s = .error (f e) s' := by
  simp only [adaptExcept, h]

theorem adaptExcept_eq_ok {ε' : Type} (f : ε → ε') {x : EStateM ε σ α} {s s' : σ} {a : α} :
    adaptExcept f x s = .ok a s' ↔ x s = .ok a s' := by
  unfold adaptExcept
  cases h : x s with
  | ok a' s₁ => simp
  | error e s₁ => simp

/-! ### Errors as values -/

theorem attempt_of_ok {x : EStateM ε σ α} {s s' : σ} {a : α} (h : x s = .ok a s') :
    attempt x s = .ok (.ok a) s' := by
  simp [attempt, h]

theorem attempt_of_error {x : EStateM ε σ α} {s s' : σ} {e : ε} (h : x s = .error e s') :
    attempt x s = .ok (.error e) s' := by
  simp [attempt, h]

/-- `attempt` always succeeds, with what `x` returned or threw. -/
theorem attempt_eq_ok {x : EStateM ε σ α} {s s' : σ} {r : Except ε α} :
    attempt x s = .ok r s' ↔
      (∃ a, r = .ok a ∧ x s = .ok a s') ∨ (∃ e, r = .error e ∧ x s = .error e s') := by
  unfold attempt
  cases h : x s with
  | ok a s₁ =>
    constructor
    · intro h'
      cases h'
      exact .inl ⟨a, rfl, rfl⟩
    · rintro (⟨a', rfl, h'⟩ | ⟨e, rfl, h'⟩) <;> cases h'
      rfl
  | error e s₁ =>
    constructor
    · intro h'
      cases h'
      exact .inr ⟨e, rfl, rfl⟩
    · rintro (⟨a', rfl, h'⟩ | ⟨e', rfl, h'⟩) <;> cases h'
      rfl

theorem attempt_bind_of_ok {x : EStateM ε σ α} {s s' : σ} {a : α} (h : x s = .ok a s')
    (f : Except ε α → EStateM ε σ β) : (attempt x >>= f) s = f (.ok a) s' :=
  bind_of_ok (attempt_of_ok h) f

theorem attempt_bind_of_error {x : EStateM ε σ α} {s s' : σ} {e : ε} (h : x s = .error e s')
    (f : Except ε α → EStateM ε σ β) : (attempt x >>= f) s = f (.error e) s' :=
  bind_of_ok (attempt_of_error h) f

/-- A bind succeeds exactly when both halves do. -/
theorem bind_eq_ok {x : EStateM ε σ α} {f : α → EStateM ε σ β} {s s'' : σ} {b : β} :
    (x >>= f) s = .ok b s'' ↔ ∃ a s', x s = .ok a s' ∧ f a s' = .ok b s'' := by
  rw [bind_apply]
  cases h : x s with
  | ok a s' =>
    constructor
    · intro hf
      exact ⟨a, s', rfl, hf⟩
    · rintro ⟨a', s₁, heq, hf⟩
      cases heq
      exact hf
  | error e s' => simp

/-- A property that every turn of a loop body keeps, when the turn succeeds, holds after the
loop. -/
theorem forM_invariant {l : List α} {f : α → EStateM ε σ PUnit} (Q : σ → Prop)
    (hf : ∀ a ∈ l, ∀ s s', Q s → f a s = .ok ⟨⟩ s' → Q s') {s s' : σ} (hs : Q s)
    (h : l.forM f s = .ok ⟨⟩ s') : Q s' := by
  induction l generalizing s with
  | nil =>
    cases h
    exact hs
  | cons a l ih =>
    simp only [List.forM_eq_forM, List.forM_cons] at h
    obtain ⟨⟨⟩, s₁, h₁, h₂⟩ := bind_eq_ok.mp h
    exact ih (fun b hb => hf b (List.mem_cons_of_mem a hb)) (hf a List.mem_cons_self s s₁ hs h₁) h₂

/-- A property of the accumulator and the state that every turn of a fold keeps, when the turn
succeeds, holds after the fold. -/
theorem foldlM_invariant {l : List α} {f : β → α → EStateM ε σ β} (Q : β → σ → Prop)
    (hf : ∀ a ∈ l, ∀ b s b' s', Q b s → f b a s = .ok b' s' → Q b' s') {b b' : β} {s s' : σ}
    (hs : Q b s) (h : l.foldlM f b s = .ok b' s') : Q b' s' := by
  induction l generalizing b s with
  | nil =>
    cases h
    exact hs
  | cons a l ih =>
    rw [List.foldlM_cons] at h
    obtain ⟨b₁, s₁, h₁, h₂⟩ := bind_eq_ok.mp h
    exact ih (fun c hc => hf c (List.mem_cons_of_mem a hc)) (hf a List.mem_cons_self b s b₁ s₁ hs h₁)
      h₂

/-- A loop whose every turn succeeds from a state satisfying `Q`, and keeps `Q`, succeeds. -/
theorem forM_ok_of_invariant {l : List α} {f : α → EStateM ε σ PUnit} (Q : σ → Prop)
    (hf : ∀ a ∈ l, ∀ s, Q s → ∃ s', f a s = .ok ⟨⟩ s' ∧ Q s') {s : σ} (hs : Q s) :
    ∃ s', l.forM f s = .ok ⟨⟩ s' ∧ Q s' := by
  induction l generalizing s with
  | nil => exact ⟨s, rfl, hs⟩
  | cons a l ih =>
    obtain ⟨s₁, h₁, hs₁⟩ := hf a List.mem_cons_self s hs
    simp only [List.forM_eq_forM, List.forM_cons]
    rw [bind_of_ok h₁]
    exact ih (fun b hb => hf b (List.mem_cons_of_mem a hb)) hs₁

/-- A fold whose every turn succeeds from a state satisfying `Q` of the items left, and leaves `Q`
of the items after it, succeeds. -/
theorem foldlM_ok_of_invariant {l : List α} {f : β → α → EStateM ε σ β}
    (Q : List α → β → σ → Prop)
    (hf : ∀ a rest, a :: rest <:+ l → ∀ b s, Q (a :: rest) b s →
      ∃ b' s', f b a s = .ok b' s' ∧ Q rest b' s')
    {b : β} {s : σ} (hs : Q l b s) : ∃ b' s', l.foldlM f b s = .ok b' s' ∧ Q [] b' s' := by
  suffices h : ∀ rest, rest <:+ l → ∀ b s, Q rest b s →
      ∃ b' s', rest.foldlM f b s = .ok b' s' ∧ Q [] b' s' from h l (List.suffix_refl l) b s hs
  intro rest
  induction rest with
  | nil => exact fun _ b s hs => ⟨b, s, rfl, hs⟩
  | cons a rest ih =>
    intro hsuf b s hs
    obtain ⟨b₁, s₁, h₁, hs₁⟩ := hf a rest hsuf b s hs
    rw [List.foldlM_cons, bind_of_ok h₁]
    exact ih ((List.suffix_cons a rest).trans hsuf) b₁ s₁ hs₁

/-- A bind fails exactly when its first half fails, or the second half fails after it. -/
theorem bind_eq_error {x : EStateM ε σ α} {f : α → EStateM ε σ β} {s s'' : σ} {e : ε} :
    (x >>= f) s = .error e s'' ↔
      x s = .error e s'' ∨ ∃ a s', x s = .ok a s' ∧ f a s' = .error e s'' := by
  rw [bind_apply]
  cases h : x s with
  | ok a s' =>
    constructor
    · intro hf
      exact .inr ⟨a, s', rfl, hf⟩
    · rintro (heq | ⟨a', s₁, heq, hf⟩)
      · cases heq
      · cases heq
        exact hf
  | error e' s' => simp

/-- Every error `x` can end with satisfies `P`. -/
def Throws (P : ε → Prop) (x : EStateM ε σ α) : Prop :=
  ∀ s e s', x s = .error e s' → P e

variable {P : ε → Prop}

theorem throws_pure (a : α) : Throws P (pure a : EStateM ε σ α) := by
  intro s e s' h
  cases h

theorem throws_get : Throws P (get : EStateM ε σ σ) := by
  intro s e s' h
  cases h

theorem throws_set (t : σ) : Throws P (set t : EStateM ε σ PUnit) := by
  intro s e s' h
  cases h

theorem throws_modify (f : σ → σ) : Throws P (modify f : EStateM ε σ PUnit) := by
  intro s e s' h
  cases h

theorem throws_throw {e : ε} (h : P e) : Throws P (throw e : EStateM ε σ α) := by
  intro s e' s' h'
  cases h'
  exact h

theorem throws_attempt (x : EStateM ε σ α) : Throws P (attempt x) := by
  intro s e s' h
  unfold attempt at h
  split at h <;> cases h

theorem Throws.bind {x : EStateM ε σ α} {f : α → EStateM ε σ β} (hx : Throws P x)
    (hf : ∀ a, Throws P (f a)) : Throws P (x >>= f) := by
  intro s e s' h
  rcases bind_eq_error.mp h with h | ⟨a, s₁, -, h⟩
  · exact hx s e s' h
  · exact hf a s₁ e s' h

theorem Throws.adaptExcept {ε' : Type} {Q : ε' → Prop} (f : ε → ε') (x : EStateM ε σ α)
    (hf : ∀ e, Q (f e)) : Throws Q (adaptExcept f x) := by
  intro s e s' h
  unfold EStateM.adaptExcept at h
  split at h
  · cases h
    exact hf _
  · cases h

theorem Throws.ite {c : Prop} [Decidable c] {x y : EStateM ε σ α} (hx : Throws P x)
    (hy : Throws P y) : Throws P (if c then x else y) := by
  split
  · exact hx
  · exact hy

end EStateM
