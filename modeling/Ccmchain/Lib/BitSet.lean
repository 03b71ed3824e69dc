import Mathlib.Data.Nat.Bitwise
import Mathlib.Tactic.IntervalCases

/-!
# Natural numbers as bit sets

A natural number stands for the set of its one bits: `|||` is union and `a &&& b = b` says
that the bits of `b` are among those of `a`. An or-fold over a list holds the bits of each of
its elements, and stays below `2 ^ n` when they all do.

On a byte, the mask test `x &&& (1 <<< k) != 0` reads bit `k` and `y ||| (1 <<< k)` sets it.
-/

namespace BitSet

/-- The bits of `b` are among those of `a`. -/
theorem and_eq_right_iff {a b : Nat} :
    a &&& b = b ↔ ∀ i, b.testBit i = true → a.testBit i = true := by
  constructor
  · intro h i hb
    have hi := congrArg (·.testBit i) h
    simp only [Nat.testBit_and, hb, Bool.and_true] at hi
    exact hi
  · intro h
    apply Nat.eq_of_testBit_eq
    intro i
    rw [Nat.testBit_and]
    cases hb : b.testBit i with
    | false => simp
    | true => simp [h i hb]

/-- The bits of an or-fold: those of the start and those of every element. -/
theorem testBit_foldl_or {α : Type} (f : α → Nat) (l : List α) (a i : Nat) :
    (l.foldl (fun acc x => acc ||| f x) a).testBit i =
      (a.testBit i || l.any fun x => (f x).testBit i) := by
  induction l generalizing a with
  | nil => simp
  | cons x l ih => simp [ih, Nat.testBit_or, Bool.or_assoc]

/-- An or-fold of numbers below `2 ^ n` stays below `2 ^ n`. -/
theorem foldl_or_lt {α : Type} (f : α → Nat) (l : List α) {a n : Nat} (ha : a < 2 ^ n)
    (hf : ∀ x ∈ l, f x < 2 ^ n) : l.foldl (fun acc x => acc ||| f x) a < 2 ^ n := by
  induction l generalizing a with
  | nil => simpa using ha
  | cons x l ih =>
    exact ih (Nat.or_lt_two_pow ha (hf x (by simp))) fun y hy => hf y (by simp [hy])

/-! ### Byte masks -/

theorem toNat_mask {k : Nat} (hk : k < 8) : ((1 : UInt8) <<< k.toUInt8).toNat = 2 ^ k := by
  interval_cases k <;> rfl

/-- The mask test reads bit `k` of a byte. -/
theorem and_mask_ne_zero (x : UInt8) {k : Nat} (hk : k < 8) :
    (x &&& (1 <<< k.toUInt8) != 0) = x.toNat.testBit k := by
  have h : (x &&& (1 <<< k.toUInt8)).toNat = (x.toNat.testBit k).toNat * 2 ^ k := by
    rw [UInt8.toNat_and, toNat_mask hk, Nat.and_two_pow]
  cases hb : x.toNat.testBit k with
  | false =>
    rw [hb, Bool.toNat_false, zero_mul] at h
    simp [← UInt8.toNat_inj, h]
  | true =>
    rw [hb, Bool.toNat_true, one_mul] at h
    simp [← UInt8.toNat_inj, h]

/-- Or-ing the mask sets bit `k` of a byte and keeps the others. -/
theorem testBit_or_mask (y : UInt8) {k : Nat} (hk : k < 8) (b : Nat) :
    (y ||| (1 <<< k.toUInt8)).toNat.testBit b = (y.toNat.testBit b || decide (k = b)) := by
  rw [UInt8.toNat_or, toNat_mask hk, Nat.testBit_or, Nat.testBit_two_pow]

end BitSet
