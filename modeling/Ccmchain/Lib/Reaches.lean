import Mathlib.Logic.Relation
import Ccmchain.Lib.EStateM

/-!
# The states a computation moves through

`Reaches r x` says that every run of `x`, whether it returns or throws, ends in a state that
the steps `r` reach from the state it started in. Stated once per function, with the steps its
body takes, it composes along a `do` block like `Throws`. An invariant that every step keeps
then holds after every call (`Reaches.keeps`), and after any sequence of calls.
-/

namespace EStateM

open Relation

variable {ε σ α β : Type}

/-- The state a run ends in, returning or throwing. -/
def Result.state : Result ε σ α → σ
  | .ok _ s => s
  | .error _ s => s

@[simp] theorem state_ok (a : α) (s : σ) : (Result.ok a s : Result ε σ α).state = s := rfl

@[simp] theorem state_error (e : ε) (s : σ) : (Result.error e s : Result ε σ α).state = s := rfl

/-- Every run of `x` ends in a state that steps of `r` reach from its start. -/
def Reaches (r : σ → σ → Prop) (x : EStateM ε σ α) : Prop :=
  ∀ s, ReflTransGen r s (x s).state

variable {r : σ → σ → Prop}

theorem reaches_pure (a : α) : Reaches r (pure a : EStateM ε σ α) := fun _ => .refl

theorem reaches_throw (e : ε) : Reaches r (throw e : EStateM ε σ α) := fun _ => .refl

theorem reaches_modify {f : σ → σ} (hf : ∀ s, r s (f s)) :
    Reaches r (modify f : EStateM ε σ PUnit) :=
  fun s => .single (hf s)

/-- A block that reads the state first reaches what each of its continuations reaches from
the state it read. -/
theorem reaches_get_bind {g : σ → EStateM ε σ β} (hg : ∀ s, ReflTransGen r s (g s s).state) :
    Reaches r (get >>= g) :=
  hg

/-- As `Reaches.bind`, where the rest of the block may use what `x` returned and the state it
returned in. -/
theorem Reaches.bind_of_ok {x : EStateM ε σ α} {f : α → EStateM ε σ β} (hx : Reaches r x)
    (hf : ∀ s a s', x s = .ok a s' → ReflTransGen r s' (f a s').state) : Reaches r (x >>= f) := by
  intro s
  rw [bind_apply]
  cases h : x s with
  | ok a s' =>
    have hs' := hx s
    rw [h] at hs'
    exact hs'.trans (hf s a s' h)
  | error e s' =>
    have hs' := hx s
    rw [h] at hs'
    exact hs'

theorem Reaches.bind {x : EStateM ε σ α} {f : α → EStateM ε σ β} (hx : Reaches r x)
    (hf : ∀ a, Reaches r (f a)) : Reaches r (x >>= f) :=
  hx.bind_of_ok fun _ a s' _ => hf a s'

theorem Reaches.attempt {x : EStateM ε σ α} (hx : Reaches r x) : Reaches r (attempt x) := by
  intro s
  have hs := hx s
  unfold EStateM.attempt
  split <;> simp_all

theorem Reaches.ite {c : Prop} [Decidable c] {x y : EStateM ε σ α} (hx : Reaches r x)
    (hy : Reaches r y) : Reaches r (if c then x else y) := by
  split
  · exact hx
  · exact hy

/-- What every step keeps holds after every run. -/
theorem keeps_of_reflTransGen {I : σ → Prop} (hI : ∀ s s', r s s' → I s → I s') {s s' : σ}
    (h : ReflTransGen r s s') (hs : I s) : I s' := by
  induction h with
  | refl => exact hs
  | tail _ hst ih => exact hI _ _ hst ih

/-- A sequence of calls, each of which reaches its end state by steps of `r`, does too. -/
theorem reflTransGen_foldl {γ : Type} (step : σ → γ → σ) (hstep : ∀ s c, ReflTransGen r s (step s c))
    (s : σ) (cs : List γ) : ReflTransGen r s (cs.foldl step s) := by
  induction cs generalizing s with
  | nil => exact .refl
  | cons c cs ih => exact (hstep s c).trans (ih (step s c))

end EStateM
