import Mathlib.Data.List.Basic

/-!
# Keystream ciphers

A stream cipher XORs its input with a keystream and moves along it, so its state is the
keystream and the position reached. Cutting the input into several calls gives the bytes one
call would (`xorKeyStream_append`), and a second stream over the same keystream at the same
position undoes the first (`xorKeyStream_xorKeyStream`): this is what lets two ends of a
connection that start together stay in step.
-/

namespace StreamCipher

/-- A keystream and the position reached in it. -/
structure Stream where
  ks : Nat → UInt8
  pos : Nat

/-- The bytes XORed with the keystream from `pos` on. -/
def xorFrom (ks : Nat → UInt8) : Nat → List UInt8 → List UInt8
  | _, [] => []
  | pos, b :: bs => (b ^^^ ks pos) :: xorFrom ks (pos + 1) bs

/-- `XORKeyStream`: the output, and the stream moved past the input. -/
def Stream.xorKeyStream (s : Stream) (b : List UInt8) : List UInt8 × Stream :=
  (xorFrom s.ks s.pos b, { s with pos := s.pos + b.length })

variable (ks : Nat → UInt8)

@[simp] theorem length_xorFrom (pos : Nat) (b : List UInt8) : (xorFrom ks pos b).length = b.length := by
  induction b generalizing pos with
  | nil => rfl
  | cons x xs ih => simp [xorFrom, ih]

theorem xorFrom_append (pos : Nat) (a b : List UInt8) :
    xorFrom ks pos (a ++ b) = xorFrom ks pos a ++ xorFrom ks (pos + a.length) b := by
  induction a generalizing pos with
  | nil => rfl
  | cons x xs ih =>
    rw [List.cons_append, xorFrom, xorFrom, ih, List.length_cons, Nat.add_right_comm,
      Nat.add_assoc, List.cons_append]

/-- XOR with the same keystream twice gives the input back. -/
theorem xorFrom_xorFrom (pos : Nat) (b : List UInt8) : xorFrom ks pos (xorFrom ks pos b) = b := by
  induction b generalizing pos with
  | nil => rfl
  | cons x xs ih => rw [xorFrom, xorFrom, ih, UInt8.xor_assoc, UInt8.xor_self, UInt8.xor_zero]

namespace Stream

variable (s : Stream)

@[simp] theorem xorKeyStream_ks (b : List UInt8) : (s.xorKeyStream b).2.ks = s.ks := rfl

@[simp] theorem xorKeyStream_pos (b : List UInt8) :
    (s.xorKeyStream b).2.pos = s.pos + b.length := rfl

@[simp] theorem length_xorKeyStream (b : List UInt8) : (s.xorKeyStream b).1.length = b.length :=
  length_xorFrom _ _ _

/-- Two calls on consecutive pieces give what one call on the whole input gives. -/
theorem xorKeyStream_append (a b : List UInt8) :
    s.xorKeyStream (a ++ b) =
      ((s.xorKeyStream a).1 ++ ((s.xorKeyStream a).2.xorKeyStream b).1,
        ((s.xorKeyStream a).2.xorKeyStream b).2) := by
  simp only [xorKeyStream, xorFrom_append, List.length_append, Nat.add_assoc]

/-- A stream at the same position undoes the XOR, and ends where the first one did. -/
theorem xorKeyStream_xorKeyStream (b : List UInt8) :
    s.xorKeyStream (s.xorKeyStream b).1 = (b, (s.xorKeyStream b).2) := by
  simp only [xorKeyStream, xorFrom_xorFrom, length_xorFrom]

end Stream

end StreamCipher
