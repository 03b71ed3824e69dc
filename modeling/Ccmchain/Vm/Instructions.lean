import Ccmchain.Common.Math
import Ccmchain.Vm.Stack

/-!
# `core/vm/instructions.go`

The execute functions on the operand stack. `opExp` pops the base and the exponent and pushes the
power modulo `2 ^ 256`, with shortcuts for the exponents `0` and `1` and the base `0`.
-/

namespace Ccmchain.Vm

open Common

/-- `opExp`. -/
def opExp (stack : Stack) : Option Stack := do
  let (base, stack) ← stack.pop
  let (exponent, stack) ← stack.pop
  if exponent < 1 then pure (stack.push 1)
  else if base = 0 then pure (stack.push 0)
  else if exponent = 1 then pure (stack.push base)
  else pure (stack.push (Exp base exponent))

theorem opExp_eq (rest : List Int) (b e : Int) :
    opExp ⟨rest ++ [e, b]⟩ =
      some ⟨rest ++ [if e < 1 then 1 else if b = 0 then 0 else if e = 1 then b else Exp b e]⟩ := by
  have hpop : (⟨rest ++ [e, b]⟩ : Stack).pop = some (b, ⟨rest ++ [e]⟩) := by
    simpa using Stack.pop_push (rest ++ [e]) b
  simp only [opExp, hpop, Stack.pop_push, Option.bind_eq_bind, Option.bind_some, Option.pure_def]
  split_ifs <;> rfl

/-- `Exp` is the power modulo `2 ^ 256`, and `opExp` pushes that power whichever of its
shortcuts it takes. -/
theorem opExp_pushes_pow (b : Int) (e : Nat) (hb0 : 0 ≤ b) (hb : b < 2 ^ 256) :
    Exp b e = b ^ e % 2 ^ 256 ∧
      ∀ rest : List Int, opExp ⟨rest ++ [(e : Int), b]⟩ = some ⟨rest ++ [b ^ e % 2 ^ 256]⟩ := by
  refine ⟨exp_eq b e, fun rest => ?_⟩
  rw [opExp_eq]
  congr 3
  split_ifs with he0 hbz he1
  · -- the exponent zero
    have he : e = 0 := by omega
    simp [he]
  · -- the base zero, the exponent at least one
    subst hbz
    rw [zero_pow (by omega), Int.zero_emod]
  · -- the exponent one
    have he : e = 1 := by omega
    rw [he, pow_one, Int.emod_eq_of_lt hb0 hb]
  · rw [exp_eq]

theorem opExp_pushes_pow_three_five :
    Exp 3 5 = 3 ^ 5 % 2 ^ 256 ∧ opExp ⟨[7, (5 : Nat), 3]⟩ = some ⟨[7, 3 ^ 5 % 2 ^ 256]⟩ :=
  let h := opExp_pushes_pow 3 5 (by norm_num) (by norm_num)
  ⟨h.1, h.2 [7]⟩

end Ccmchain.Vm
