import Mathlib

/-!
# `core/vm/stack.go`: the operand stack

`st.data` is kept bottom first, its last item the top, as in Go. An index past either end of
`st.data` is a Go runtime panic, which is `none` here. The integer pool is left out: `dup`
pushes the value it copies.
-/

namespace Ccmchain.Vm

/-- `Stack`. -/
structure Stack where
  data : List Int

namespace Stack

/-- `Stack.len`. -/
def len (st : Stack) : Nat := st.data.length

/-- `Stack.push`; the limit is checked by the interpreter, not here. -/
def push (st : Stack) (d : Int) : Stack := ⟨st.data ++ [d]⟩

/-- `Stack.pop`: the top and the stack below it. -/
def pop (st : Stack) : Option (Int × Stack) :=
  st.data.getLast?.map fun ret => (ret, ⟨st.data.dropLast⟩)

/-- `Stack.peek`. -/
def peek (st : Stack) : Option Int := st.data.getLast?

/-- `Stack.Back(n)`: `data[len - n - 1]`, the item `n` below the top. -/
def Back (st : Stack) (n : Nat) : Option Int :=
  if n < st.len then st.data[st.len - n - 1]? else none

/-- `Stack.swap(n)`: exchanges `data[len - n]` and the top. -/
def swap (st : Stack) (n : Nat) : Option Stack :=
  if 1 ≤ n ∧ n ≤ st.len then
    some ⟨(st.data.set (st.len - n) st.data[st.len - 1]!).set (st.len - 1) st.data[st.len - n]!⟩
  else none

/-- `Stack.dup(n)`: pushes a copy of `data[len - n]`. -/
def dup (st : Stack) (n : Nat) : Option Stack :=
  if 1 ≤ n ∧ n ≤ st.len then some (st.push st.data[st.len - n]!) else none

@[simp] theorem len_push (st : Stack) (d : Int) : (st.push d).len = st.len + 1 := by
  simp [len, push]

@[simp] theorem pop_push (xs : List Int) (d : Int) : (⟨xs ++ [d]⟩ : Stack).pop = some (d, ⟨xs⟩) := by
  simp [pop]

@[simp] theorem pop_nil : (⟨[]⟩ : Stack).pop = none := rfl

@[simp] theorem peek_push (xs : List Int) (d : Int) : (⟨xs ++ [d]⟩ : Stack).peek = some d := by
  simp [peek]

/-- A pop succeeds exactly on a stack that is not empty, and takes one item. -/
theorem pop_eq_some_iff {st : Stack} {ret : Int} {st' : Stack} :
    st.pop = some (ret, st') ↔ st.data = st'.data ++ [ret] := by
  obtain ⟨data⟩ := st
  obtain ⟨data'⟩ := st'
  constructor
  · intro h
    simp only [pop, Option.map_eq_some_iff, Prod.mk.injEq, Stack.mk.injEq] at h
    obtain ⟨ret', hlast, rfl, rfl⟩ := h
    simpa using (List.dropLast_append_getLast? ret' hlast).symm
  · intro h
    simp only at h
    subst h
    simp

theorem pop_isSome_iff (st : Stack) : st.pop.isSome ↔ 1 ≤ st.len := by
  simp [pop, len, List.getLast?_isSome, Nat.one_le_iff_ne_zero]

theorem len_of_pop {st : Stack} {ret : Int} {st' : Stack} (h : st.pop = some (ret, st')) :
    st.len = st'.len + 1 := by
  rw [pop_eq_some_iff] at h
  simp [len, h]

theorem peek_isSome_iff (st : Stack) : st.peek.isSome ↔ 1 ≤ st.len := by
  simp [peek, len, List.getLast?_isSome, Nat.one_le_iff_ne_zero]

theorem back_isSome_iff (st : Stack) (n : Nat) : (st.Back n).isSome ↔ n < st.len := by
  unfold Back
  split
  · rename_i h
    simp only [len] at h ⊢
    simp [List.getElem?_eq_getElem (by omega : st.data.length - n - 1 < st.data.length), h]
  · simp [*]

theorem swap_isSome_iff (st : Stack) (n : Nat) : (st.swap n).isSome ↔ 1 ≤ n ∧ n ≤ st.len := by
  unfold swap
  split <;> simp [*]

theorem len_of_swap {st st' : Stack} {n : Nat} (h : st.swap n = some st') : st'.len = st.len := by
  unfold swap at h
  split at h
  · cases h
    simp [len]
  · cases h

theorem dup_isSome_iff (st : Stack) (n : Nat) : (st.dup n).isSome ↔ 1 ≤ n ∧ n ≤ st.len := by
  unfold dup
  split <;> simp [*]

theorem len_of_dup {st st' : Stack} {n : Nat} (h : st.dup n = some st') : st'.len = st.len + 1 := by
  unfold dup at h
  split at h
  · cases h
    simp
  · cases h

end Stack

end Ccmchain.Vm
