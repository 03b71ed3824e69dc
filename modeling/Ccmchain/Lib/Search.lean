import Mathlib.Tactic.Ring

/-!
# Binary search for the first index where a predicate holds

`search f i j` is the loop of Go's `sort.Search` on the interval `[i, j)`: it halves the
interval until it closes, keeping the invariant that `f` fails below `i` and holds from `j` on.
For a predicate that stays true once it holds below `n`, it returns the first index in `[0, n)`
where `f` holds, or `n`. What `f` says from `n` on is never read.
-/

namespace BinarySearch

/-- `sort.Search` on `[i, j)`. -/
def search (f : Nat → Bool) (i j : Nat) : Nat :=
  if i < j then
    if !f ((i + j) / 2) then search f ((i + j) / 2 + 1) j else search f i ((i + j) / 2)
  else i
termination_by j - i

/-- `f` stays true once it holds, below `n`. -/
def Upward (f : Nat → Bool) (n : Nat) : Prop := ∀ a b, a ≤ b → b < n → f a = true → f b = true

theorem search_le {f : Nat → Bool} : ∀ {i j : Nat}, i ≤ j → i ≤ search f i j ∧ search f i j ≤ j := by
  intro i j hij
  induction i, j using search.induct f with
  | case1 i j hlt hf ih =>
    rw [search, if_pos hlt]
    simp only [hf, ↓reduceIte]
    have := ih (by omega)
    omega
  | case2 i j hlt hf ih =>
    rw [search, if_pos hlt]
    simp only [hf, Bool.false_eq_true, ↓reduceIte]
    have := ih (by omega)
    omega
  | case3 i j hlt =>
    rw [search, if_neg hlt]
    omega

/-- Below the result `f` fails, from `i` on. -/
theorem search_false {f : Nat → Bool} {n : Nat} (hf : Upward f n) :
    ∀ {i j : Nat}, i ≤ j → j ≤ n → ∀ m, i ≤ m → m < search f i j → f m = false := by
  intro i j hij hjn
  induction i, j using search.induct f with
  | case1 i j hlt hfh ih =>
    intro m hm hlt'
    rw [search, if_pos hlt] at hlt'
    simp only [hfh, ↓reduceIte] at hlt'
    by_cases hmh : m ≤ (i + j) / 2
    · -- `f` fails at the midpoint, so below it too
      cases hfm : f m
      · rfl
      · have := hf m _ hmh (by omega) hfm
        simp_all
    · exact ih (by omega) hjn m (by omega) hlt'
  | case2 i j hlt hfh ih =>
    intro m hm hlt'
    rw [search, if_pos hlt] at hlt'
    simp only [hfh, Bool.false_eq_true, ↓reduceIte] at hlt'
    exact ih (by omega) (by omega) m hm hlt'
  | case3 i j hlt =>
    intro m hm hlt'
    rw [search, if_neg hlt] at hlt'
    omega

/-- At the result, if it is inside the interval, `f` holds: the loop only closes the interval
from above at a point where `f` holds. -/
theorem search_true {f : Nat → Bool} :
    ∀ {i j : Nat}, i ≤ j → search f i j < j → f (search f i j) = true := by
  intro i j
  induction i, j using search.induct f with
  | case1 i j hlt hfh ih =>
    intro hij hlt'
    rw [search, if_pos hlt] at hlt' ⊢
    simp only [hfh, ↓reduceIte] at hlt' ⊢
    exact ih (by omega) hlt'
  | case2 i j hlt hfh ih =>
    intro hij hlt'
    rw [search, if_pos hlt] at hlt' ⊢
    simp only [hfh, Bool.false_eq_true, ↓reduceIte] at hlt' ⊢
    have hfh' : f ((i + j) / 2) = true := by simpa using hfh
    have hle := (search_le (f := f) (show i ≤ (i + j) / 2 by omega)).2
    rcases Nat.eq_or_lt_of_le hle with heq | hlt''
    · rw [heq]
      exact hfh'
    · exact ih (by omega) hlt''
  | case3 i j hlt =>
    intro hij hlt'
    rw [search, if_neg hlt] at hlt'
    omega

/-- For an upward predicate, `search f 0 n` is the first index below `n` where `f` holds, and
`n` if there is none. -/
theorem search_eq_iff {f : Nat → Bool} {n : Nat} (hf : Upward f n) {k : Nat} (hk : k ≤ n) :
    search f 0 n = k ↔ (∀ m < k, f m = false) ∧ (k < n → f k = true) := by
  have hle := search_le (f := f) (Nat.zero_le n)
  have hfalse := search_false hf (Nat.zero_le n) (Nat.le_refl n)
  have htrue := search_true (f := f) (Nat.zero_le n)
  constructor
  · rintro rfl
    exact ⟨fun m hm => hfalse m (Nat.zero_le m) hm, htrue⟩
  · rintro ⟨hbelow, hat⟩
    rcases Nat.lt_trichotomy (search f 0 n) k with hlt | heq | hgt
    · have h1 := hbelow _ hlt
      have h2 := htrue (by omega)
      rw [h1] at h2
      exact absurd h2 Bool.false_ne_true
    · exact heq
    · have h1 := hfalse k (Nat.zero_le k) hgt
      have h2 := hat (by omega)
      rw [h1] at h2
      exact absurd h2 Bool.false_ne_true

end BinarySearch
