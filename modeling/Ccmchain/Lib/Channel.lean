import Mathlib.Data.List.Infix

/-!
# Framed channels

A writer turns messages into frames of bytes, and a reader takes one message off the front of
the bytes it has received. Both ends carry state (cipher streams, running MACs), and a mode the
two sides agree on for each message by its place in the stream (a compression flag, say).

`RoundTrip` is the law for one frame: from a writer paired with the reader, a message that
fits its mode is written, read back from any bytes that follow its frame, and leaves the two
ends paired again. From that law alone, a link that carries the frames in order keeps the
invariant `Flight`: the messages sent and not yet received are exactly the frames on the wire,
each of which the reader will take off intact. `Flight.send` and `Flight.recv` are its step
lemmas; a connection made of several links (one per direction, say) steps them in any
interleaving.
-/

namespace Channel

/-- A writer and a reader of framed messages, in a mode `μ` per message. -/
structure Codec (μ W R M E : Type) where
  write : μ → W → M → Except E (W × List UInt8)
  read : μ → R → List UInt8 → Except E (M × R × List UInt8)

variable {μ W R M E : Type} (c : Codec μ W R M E)

/-- One frame round-trips: written from a writer paired with the reader, a message that fits
its mode is read back in that mode from any bytes that follow the frame, and the two ends are
paired again. -/
def RoundTrip (Paired : W → R → Prop) (Ok : μ → M → Prop) : Prop :=
  ∀ u w r m, Paired w r → Ok u m → ∃ w' r' out, c.write u w m = .ok (w', out) ∧
    (∀ rest, c.read u r (out ++ rest) = .ok (m, r', rest)) ∧ Paired w' r'

/-- `Frames k w r ms w' r' out`: from the paired ends `w` and `r`, the messages `ms`, the first
of them number `k` of the stream, were written as the bytes `out`, each frame reads back as
its message, and the ends after them are `w'` and `r'`, paired again. -/
inductive Frames (mode : Nat → μ) (Paired : W → R → Prop) :
    Nat → W → R → List M → W → R → List UInt8 → Prop
  | nil {k w r} : Paired w r → Frames mode Paired k w r [] w r []
  | cons {k w r m ms w₁ r₁ out w₂ r₂ outs} :
      c.write (mode k) w m = .ok (w₁, out) →
      (∀ rest, c.read (mode k) r (out ++ rest) = .ok (m, r₁, rest)) →
      Frames mode Paired (k + 1) w₁ r₁ ms w₂ r₂ outs →
      Frames mode Paired k w r (m :: ms) w₂ r₂ (out ++ outs)

/-- One direction of a connection: the writer's and the reader's ends, the bytes in flight,
and the messages written and read so far. -/
structure Link (W R M : Type) where
  writer : W
  reader : R
  wire : List UInt8
  sent : List M
  received : List M

/-- A link whose ends are fresh and that has carried nothing. -/
def Link.start (w : W) (r : R) : Link W R M := ⟨w, r, [], [], []⟩

/-- Writing a message, in the mode agreed for its place in the stream. -/
def Link.send (mode : Nat → μ) (l : Link W R M) (m : M) : Except E (Link W R M) := do
  let (w, out) ← c.write (mode l.sent.length) l.writer m
  pure { l with writer := w, wire := l.wire ++ out, sent := l.sent ++ [m] }

/-- Reading the next message off the wire, in the mode agreed for its place in the stream. -/
def Link.recv (mode : Nat → μ) (l : Link W R M) : Except E (Link W R M) := do
  let (m, r, rest) ← c.read (mode l.received.length) l.reader l.wire
  pure { l with reader := r, wire := rest, received := l.received ++ [m] }

variable {c} {mode : Nat → μ} {Paired : W → R → Prop} {Ok : μ → M → Prop}

theorem Link.send_eq_ok {l l' : Link W R M} {m : M} :
    l.send c mode m = .ok l' ↔ ∃ w out, c.write (mode l.sent.length) l.writer m = .ok (w, out) ∧
      l' = { l with writer := w, wire := l.wire ++ out, sent := l.sent ++ [m] } := by
  simp only [Link.send]
  cases c.write (mode l.sent.length) l.writer m with
  | error e => simp [bind, Except.bind]
  | ok p =>
    obtain ⟨w, out⟩ := p
    simp [bind, Except.bind, pure, Except.pure, eq_comm]

theorem Link.recv_eq_ok {l l' : Link W R M} :
    l.recv c mode = .ok l' ↔ ∃ m r rest, c.read (mode l.received.length) l.reader l.wire =
      .ok (m, r, rest) ∧ l' = { l with reader := r, wire := rest, received := l.received ++ [m] } := by
  simp only [Link.recv]
  cases c.read (mode l.received.length) l.reader l.wire with
  | error e => simp [bind, Except.bind]
  | ok p =>
    obtain ⟨m, r, rest⟩ := p
    simp [bind, Except.bind, pure, Except.pure, eq_comm]

namespace Frames

variable {k : Nat} {w w' : W} {r r' : R} {ms : List M} {out : List UInt8}

theorem paired (h : Frames c mode Paired k w r ms w' r' out) : Paired w' r' := by
  induction h with
  | nil hp => exact hp
  | cons _ _ _ ih => exact ih

/-- One more frame at the end of the stream. -/
theorem snoc (h : Frames c mode Paired k w r ms w' r' out) {m : M} {w'' : W} {r'' : R}
    {o : List UInt8} (hw : c.write (mode (k + ms.length)) w' m = .ok (w'', o))
    (hr : ∀ rest, c.read (mode (k + ms.length)) r' (o ++ rest) = .ok (m, r'', rest))
    (hp : Paired w'' r'') : Frames c mode Paired k w r (ms ++ [m]) w'' r'' (out ++ o) := by
  induction h with
  | nil _ =>
    simpa using Frames.cons hw hr (.nil hp)
  | @cons k _ _ _ ms _ _ _ _ _ _ hw₁ hr₁ _ ih =>
    have hk : k + (ms.length + 1) = k + 1 + ms.length := by omega
    rw [List.length_cons, hk] at hw hr
    rw [List.cons_append, List.append_assoc]
    exact .cons hw₁ hr₁ (ih hw hr)

/-- Inversion for a nonempty stream: its first frame, and the frames after it. -/
theorem cons_inv {m : M} (h : Frames c mode Paired k w r (m :: ms) w' r' out) :
    ∃ w₁ r₁ o outs, c.write (mode k) w m = .ok (w₁, o) ∧
      (∀ rest, c.read (mode k) r (o ++ rest) = .ok (m, r₁, rest)) ∧
      Frames c mode Paired (k + 1) w₁ r₁ ms w' r' outs ∧ out = o ++ outs := by
  cases h with
  | cons hw hr hrest => exact ⟨_, _, _, _, hw, hr, hrest, rfl⟩

end Frames

/-- The state of a link with the messages `pending` in flight: they are the ones sent and not
yet received, and the wire holds their frames, written from a writer paired with the reader. -/
structure Flight (c : Codec μ W R M E) (mode : Nat → μ) (Paired : W → R → Prop)
    (l : Link W R M) (pending : List M) : Prop where
  sent_eq : l.sent = l.received ++ pending
  frames : ∃ w r', Frames c mode Paired l.received.length w l.reader pending l.writer r' l.wire

namespace Flight

variable {l : Link W R M} {pending : List M}

theorem start {w : W} {r : R} (h : Paired w r) : Flight c mode Paired (Link.start w r) [] :=
  ⟨rfl, ⟨w, r, .nil h⟩⟩

/-- The messages in flight are the sent ones past those received. -/
theorem pending_eq (hf : Flight c mode Paired l pending) :
    pending = l.sent.drop l.received.length := by
  rw [hf.sent_eq, List.drop_left]

theorem received_prefix (hf : Flight c mode Paired l pending) : l.received <+: l.sent :=
  ⟨pending, hf.sent_eq.symm⟩

theorem length_sent (hf : Flight c mode Paired l pending) :
    l.sent.length = l.received.length + pending.length := by
  rw [hf.sent_eq, List.length_append]

/-- Step lemma for a write: a message that fits the mode of its place is written, and joins
the messages in flight. -/
theorem send (hc : RoundTrip c Paired Ok) (hf : Flight c mode Paired l pending) {m : M}
    (hm : Ok (mode l.sent.length) m) :
    ∃ l', l.send c mode m = .ok l' ∧ l'.reader = l.reader ∧ l'.received = l.received ∧
      l'.sent = l.sent ++ [m] ∧ Flight c mode Paired l' (pending ++ [m]) := by
  obtain ⟨w, r', hfr⟩ := hf.frames
  obtain ⟨w'', r'', o, hw, hr, hp⟩ := hc _ _ _ m hfr.paired hm
  rw [hf.length_sent] at hw hr
  refine ⟨{ l with writer := w'', wire := l.wire ++ o, sent := l.sent ++ [m] }, ?_, rfl, rfl,
    rfl, ?_, ?_⟩
  · simp only [Link.send, hf.length_sent, hw]
    rfl
  · simp only [hf.sent_eq, List.append_assoc]
  · exact ⟨w, r'', hfr.snoc hw hr hp⟩

/-- Step lemma for a read: the first message in flight is taken off the wire intact. -/
theorem recv (hf : Flight c mode Paired l (m :: ms)) :
    ∃ l', l.recv c mode = .ok l' ∧ l'.writer = l.writer ∧ l'.sent = l.sent ∧
      l'.received = l.received ++ [m] ∧ Flight c mode Paired l' ms := by
  obtain ⟨w, r', hfr⟩ := hf.frames
  obtain ⟨w₁, r₁, out, outs, -, hr, hrest, hwire⟩ := hfr.cons_inv
  refine ⟨{ l with reader := r₁, wire := outs, received := l.received ++ [m] }, ?_, rfl, rfl,
    rfl, ?_, ?_⟩
  · simp only [Link.recv, hwire, hr]
    rfl
  · simp only [hf.sent_eq, List.append_assoc, List.singleton_append]
  · rw [List.length_append, List.length_singleton]
    exact ⟨_, r', hrest⟩

end Flight

end Channel
