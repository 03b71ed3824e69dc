import Ccmchain.Rlp.Uint
import Ccmchain.Lib.Reaches

/-!
# List positions along every run of a `Stream` (`rlp/decode.go`)

A `Stream` keeps one `listpos` for every list it has entered and checks every read against the
innermost one. This module shows what that bookkeeping guarantees over any sequence of calls of
`Kind`, `Bytes`, `uint`, `Raw`, `List` and `ListEnd`, on any input, errors included: a Go caller
may go on using a stream after an error.

Every call is a sequence of the steps `Stream.Move` lists: a header cached or dropped, a read
charged by `willRead` (to the innermost list only where it fits there), a list entered or left.
The list invariant `Stream.Inv` holds of the stream `Reset` makes and every step keeps it, so
every call does. Its `pos ≤ size` is what makes Go's `uint64` subtraction `tos.size - tos.pos`
the difference it is meant to be.

The input limit is another matter. `willRead` charges a read to `remaining` before the reader
is asked for the bytes, and a reader that holds fewer bytes than the limit says ends that read
early. From then on the bytes taken from the input and `remaining` no longer add up to the
limit. They do (`Stream.Reads`) while the limit is at most the length of the input, as it is
when `Reset` takes the limit from the reader.
-/

namespace Ccmchain.Rlp

open EStateM Relation

/-- `Raw`: the value ahead with its header. A header that `Kind` has read already is written
anew in front of the content. -/
def Stream.Raw : StreamM Rlp.Bytes := do
  let (kind, size) ← Stream.Kind
  match kind with
  | .byte =>
    modify fun s => { s with kind := none }
    let s ← get
    pure [s.byteval]
  | .string => pure (puthead 0x80 0xB7 size ++ (← readFull size))
  | .list => pure (puthead 0xC0 0xF7 size ++ (← readFull size))

/-! ### The steps of a call -/

/-- One step of a `Stream` method. A read is charged to the innermost list only where it fits
there, and a list is entered only with a header that passed `Kind`'s check. -/
inductive Stream.Move : Stream → Stream → Prop where
  /-- `s.kind = -1`: the next `Kind` reads a header. -/
  | rearm {s : Stream} : Move s { s with kind := none }
  /-- `Kind` clears the error of an earlier header before it reads the next one. -/
  | clearErr {s : Stream} : s.kind = none → Move s { s with kinderr := none }
  | byteval {s : Stream} (b : UInt8) : Move s { s with byteval := b }
  /-- `Kind` caches a header; without an error only when its size passed `sizeErr`. -/
  | cache {s : Stream} (k : Rlp.Kind) (size : Nat) (err : Option RlpError) :
      (err = none → sizeErr s size = none) →
      Move s { s with kind := some k, size := size, kinderr := err }
  /-- `willRead n` and the read behind it; a reader that runs out leaves nothing unread. -/
  | read {s : Stream} (n : Nat) : s.Room n → Move s { s.charge n with r := s.r.drop n }
  /-- `willRead n` inside a list and past the input limit: the list is charged, the limit not. -/
  | overLimit {s : Stream} (n : Nat) : roomTop s.stack n → s.limited = true → s.remaining < n →
      Move s { s with kind := none, stack := chargeTop s.stack n }
  | push {s : Stream} : s.kind = some .list → s.kinderr = none →
      Move s { s with stack := ⟨0, s.size⟩ :: s.stack, kind := none, size := 0 }
  | pop {s : Stream} {tos : Listpos} {rest} : s.stack = tos :: rest →
      tos.pos = tos.size →
      Move s { s with stack := chargeTop rest tos.size, kind := none, size := 0 }

/-! ### The list invariant -/

/-- Sound list positions: no list read past its end, and no list longer than what was left of
the list around it (the stack holds the innermost list first). -/
structure StackOk (st : List Listpos) : Prop where
  pos_le : ∀ l ∈ st, l.pos ≤ l.size
  nested : st.IsChain fun inner outer => inner.size ≤ outer.size - outer.pos

/-- What a `Stream` keeps between steps: sound list positions, and a header cached without an
error fits the innermost list. -/
structure Stream.Inv (s : Stream) : Prop where
  stack : StackOk s.stack
  cached : s.kind.isSome → s.kinderr = none → roomTop s.stack s.size

theorem stackOk_nil : StackOk [] :=
  ⟨by simp, .nil⟩

theorem StackOk.tail {tos : Listpos} {rest : List Listpos} (h : StackOk (tos :: rest)) :
    StackOk rest :=
  ⟨fun l hl => h.pos_le l (List.mem_cons_of_mem _ hl), h.nested.tail⟩

/-- A read that fits the innermost list keeps the positions sound. -/
theorem StackOk.charge {st : List Listpos} {n : Nat} (h : StackOk st) (hroom : roomTop st n) :
    StackOk (chargeTop st n) := by
  rcases st with _ | ⟨tos, rest⟩
  · exact stackOk_nil
  have htos := h.pos_le tos List.mem_cons_self
  simp only [roomTop] at hroom
  refine ⟨?_, ?_⟩
  · intro l hl
    rcases List.mem_cons.mp hl with rfl | hl
    · dsimp only
      omega
    · exact h.pos_le l (List.mem_cons_of_mem _ hl)
  · rcases rest with _ | ⟨p, ps⟩
    · exact .singleton _
    · exact List.isChain_cons_cons.mpr (List.isChain_cons_cons.mp h.nested)

theorem StackOk.push {st : List Listpos} {size : Nat} (h : StackOk st) (hroom : roomTop st size) :
    StackOk (⟨0, size⟩ :: st) := by
  refine ⟨?_, ?_⟩
  · intro l hl
    rcases List.mem_cons.mp hl with rfl | hl
    · exact Nat.zero_le _
    · exact h.pos_le l hl
  · rcases st with _ | ⟨tos, rest⟩
    · exact .singleton _
    · exact List.isChain_cons_cons.mpr ⟨hroom, h.nested⟩

/-- Leaving a list read to its end charges its size to the list around it, which has room for
it since the list was entered. -/
theorem StackOk.pop {tos : Listpos} {rest : List Listpos} (h : StackOk (tos :: rest)) :
    StackOk (chargeTop rest tos.size) := by
  rcases rest with _ | ⟨p, ps⟩
  · exact stackOk_nil
  · have hroom : roomTop (p :: ps) tos.size := (List.isChain_cons_cons.mp h.nested).1
    exact h.tail.charge hroom

theorem roomTop_of_sizeErr {s : Stream} {size : Nat} (h : sizeErr s size = none) :
    roomTop s.stack size := by
  unfold sizeErr at h
  rcases hst : s.stack with _ | ⟨tos, rest⟩
  · trivial
  · rw [hst] at h
    simp only [ite_eq_right_iff, reduceCtorEq, imp_false, not_lt] at h
    exact h

/-- Every step keeps the list invariant. -/
theorem Stream.Move.inv {s s' : Stream} (h : Stream.Move s s') (hs : s.Inv) : s'.Inv := by
  cases h with
  | rearm => exact ⟨hs.stack, by simp⟩
  | clearErr hk => exact ⟨hs.stack, by simp [hk]⟩
  | byteval b => exact ⟨hs.stack, hs.cached⟩
  | cache k size err herr => exact ⟨hs.stack, fun _ he => roomTop_of_sizeErr (herr he)⟩
  | read n hroom => exact ⟨hs.stack.charge hroom.1, by simp⟩
  | overLimit n hroom _ _ => exact ⟨hs.stack.charge hroom, by simp⟩
  | push hk he => exact ⟨hs.stack.push (hs.cached (by simp [hk]) he), by simp⟩
  | pop hst _ => exact ⟨(hst ▸ hs.stack).pop, by simp⟩

/-! ### The input read so far -/

/-- The bytes taken from the input `b` are a prefix of it, with `remaining` they add up to
`limit`, and what is left of the input covers `remaining`. -/
structure Stream.Reads (b : Rlp.Bytes) (limit : Nat) (s : Stream) : Prop where
  limited : s.limited = true
  suffix : s.r <:+ b
  consumed : b.length - s.r.length + s.remaining = limit
  covered : s.remaining ≤ s.r.length

theorem Stream.Reads.of_eq {b : Rlp.Bytes} {limit : Nat} {s s' : Stream} (hs : s.Reads b limit)
    (hr : s'.r = s.r) (hrem : s'.remaining = s.remaining) (hl : s'.limited = s.limited) :
    s'.Reads b limit :=
  ⟨hl ▸ hs.limited, hr ▸ hs.suffix, hr ▸ hrem ▸ hs.consumed, hr ▸ hrem ▸ hs.covered⟩

/-- Every step keeps the account of the input: a read that `remaining` allows is one the input
covers, so the reader hands over every byte that is charged. -/
theorem Stream.Move.reads {b : Rlp.Bytes} {limit : Nat} {s s' : Stream} (h : Stream.Move s s')
    (hs : s.Reads b limit) : s'.Reads b limit := by
  cases h with
  | rearm => exact hs.of_eq rfl rfl rfl
  | clearErr _ => exact hs.of_eq rfl rfl rfl
  | byteval _ => exact hs.of_eq rfl rfl rfl
  | cache _ _ _ _ => exact hs.of_eq rfl rfl rfl
  | overLimit _ _ _ _ => exact hs.of_eq rfl rfl rfl
  | push _ _ => exact hs.of_eq rfl rfl rfl
  | pop _ _ => exact hs.of_eq rfl rfl rfl
  | read n hroom =>
    have hn : n ≤ s.remaining := hroom.2 hs.limited
    have hlen : s.r.length ≤ b.length := hs.suffix.length_le
    have hcons := hs.consumed
    have hcov := hs.covered
    refine ⟨hs.limited, (List.drop_suffix n s.r).trans hs.suffix, ?_, ?_⟩
    · simp only [charge_remaining, hs.limited, ↓reduceIte, List.length_drop]
      omega
    · simp only [charge_remaining, hs.limited, ↓reduceIte, List.length_drop]
      omega

/-! ### Every call is a run of steps -/

/-- `willRead` fails before it charges anything, or inside a list past the input limit. -/
theorem willRead_eq_error {n : Nat} {s s' : Stream} {e : RlpError} (h : willRead n s = .error e s') :
    Stream.Move s s' := by
  rcases s with ⟨r, remaining, limited, kind, size, byteval, kinderr, stack⟩
  rcases stack with _ | ⟨tos, rest⟩ <;> cases limited <;> simp [willRead] at h <;> split_ifs at h <;>
    simp at h <;> obtain ⟨-, rfl⟩ := h
  all_goals first
    | exact .rearm
    | exact .overLimit n (by simp only [roomTop]; omega) rfl (by omega)

/-- A read step, with the stream it ends in written out. -/
theorem Stream.Move.of_read {s t : Stream} {n : Nat} (hroom : s.Room n)
    (ht : t = { s.charge n with r := s.r.drop n }) : Stream.Move s t :=
  ht ▸ .read n hroom

theorem reaches_readByte : Reaches Stream.Move readByte := by
  intro s
  unfold readByte
  cases h : willRead 1 s with
  | error e s' =>
    rw [bind_of_error h]
    exact .single (willRead_eq_error h)
  | ok u s' =>
    obtain ⟨hroom, rfl⟩ := willRead_eq_ok.mp h
    rw [bind_of_ok h]
    apply ReflTransGen.single
    rcases hr : s.r with _ | ⟨b, rest⟩
    · simp only [get_bind_apply, charge_r, hr, throw_apply, state_error]
      exact .of_read hroom (by ext <;> simp [hr])
    · simp only [get_bind_apply, charge_r, hr, set_bind_apply, pure_apply, state_ok]
      exact .of_read hroom (by ext <;> simp [hr])

theorem reaches_readFull (n : Nat) : Reaches Stream.Move (readFull n) := by
  intro s
  unfold readFull
  cases h : willRead n s with
  | error e s' =>
    rw [bind_of_error h]
    exact .single (willRead_eq_error h)
  | ok u s' =>
    obtain ⟨hroom, rfl⟩ := willRead_eq_ok.mp h
    rw [bind_of_ok h]
    apply ReflTransGen.single
    simp only [get_bind_apply]
    rw [ite_apply_state]
    split
    · simp only [set_bind_apply, pure_apply, state_ok]
      exact .of_read hroom (by ext <;> simp)
    · rename_i hlen
      simp only [set_bind_apply, throw_apply, state_error]
      have hdrop : s.r.drop n = [] := List.drop_eq_nil_of_le (by simp at hlen; omega)
      exact .of_read hroom (by ext <;> simp [hdrop])

theorem reaches_readUint (size : Nat) : Reaches Stream.Move (readUint size) := by
  unfold readUint
  split
  · exact (reaches_modify fun _ => .rearm).bind fun _ => reaches_pure _
  · exact reaches_readByte.bind fun _ => reaches_pure _
  · exact (reaches_readFull _).bind fun _ =>
      Reaches.ite ((reaches_throw _).bind fun _ => reaches_pure _) (reaches_pure _)

theorem reaches_readLongSize (k : Kind) (len : Nat) :
    Reaches Stream.Move (readLongSize k len) :=
  (reaches_readUint len).attempt.bind fun r => by
    cases r <;> exact reaches_pure _

theorem reaches_readTag (b : UInt8) : Reaches Stream.Move (readTag b) := by
  unfold readTag
  refine Reaches.ite ((reaches_modify fun _ => .byteval b).bind fun _ => reaches_pure _) ?_
  refine Reaches.ite (reaches_pure _) ?_
  refine Reaches.ite (reaches_readLongSize _ _) ?_
  exact Reaches.ite (reaches_pure _) (reaches_readLongSize _ _)

theorem reaches_readKind : Reaches Stream.Move readKind :=
  reaches_readByte.attempt.bind fun r => by
    cases r with
    | error e => exact reaches_get_bind fun _ => .refl
    | ok b => exact (reaches_modify fun _ => .byteval 0).bind fun _ => reaches_readTag b

theorem reaches_kind : Reaches Stream.Move Stream.Kind := by
  intro s
  unfold Stream.Kind
  simp only [get_bind_apply]
  cases hk : s.kind with
  | some k => cases s.kinderr <;> exact .refl
  | none =>
    simp only [set_bind_apply]
    refine ReflTransGen.head (.clearErr hk) ?_
    -- at the end of the innermost list nothing is read; otherwise a header is, and cached
    rcases hst : s.stack with _ | ⟨tos, tail⟩
    on_goal 2 =>
      dsimp only
      rw [ite_apply_state]
      split
      · simp only [throw_bind_apply, state_error, hk]
        exact .refl
    all_goals
      refine (Reaches.bind reaches_readKind fun x => reaches_get_bind fun t => ?_) _
      obtain ⟨k, size, err⟩ := x
      simp only [set_bind_apply]
      cases err with
      | some e => exact .single (.cache k size (some e) (by simp))
      | none =>
        cases hse : sizeErr t size with
        | some e => exact .single (.cache k size (some e) (by simp))
        | none => exact .single (.cache k size none fun _ => hse)

/-- What `Kind` returns without an error is the header it leaves cached. -/
theorem kind_eq_ok_cached {s s' : Stream} {k : Kind} {size : Nat}
    (h : Stream.Kind s = .ok (k, size) s') :
    s'.kind = some k ∧ s'.kinderr = none ∧ s'.size = size := by
  cases hk : s.kind with
  | some k' =>
    cases he : s.kinderr with
    | some e => simp [Stream.Kind, hk, he] at h
    | none =>
      rw [kind_of_cached hk he] at h
      cases h
      exact ⟨hk, he, rfl⟩
  | none =>
    obtain ⟨-, s₁, -, -, rfl⟩ := (kind_eq_ok_fresh hk).mp h
    exact ⟨rfl, rfl, rfl⟩

theorem reaches_bytes : Reaches Stream.Move Stream.Bytes := by
  unfold Stream.Bytes
  refine reaches_kind.bind fun x => ?_
  obtain ⟨kind, size⟩ := x
  cases kind with
  | byte => exact (reaches_modify fun _ => .rearm).bind fun _ => reaches_get_bind fun _ => .refl
  | string => exact (reaches_readFull size).bind fun _ =>
      Reaches.ite (reaches_throw _) (reaches_pure _)
  | list => exact reaches_throw _

theorem reaches_uint (maxbits : Nat) : Reaches Stream.Move (Stream.uint maxbits) := by
  unfold Stream.uint
  refine reaches_kind.bind fun x => ?_
  obtain ⟨kind, size⟩ := x
  cases kind with
  | byte =>
    refine reaches_get_bind fun s => ?_
    rw [ite_apply_state]
    split
    · exact .refl
    · exact .single .rearm
  | string =>
    refine Reaches.ite (reaches_throw _) ((reaches_readUint size).attempt.bind fun r => ?_)
    split
    · exact reaches_throw _
    · exact reaches_throw _
    · exact Reaches.ite (reaches_throw _) (reaches_pure _)
  | list => exact reaches_throw _

theorem reaches_raw : Reaches Stream.Move Stream.Raw := by
  unfold Stream.Raw
  refine reaches_kind.bind fun x => ?_
  obtain ⟨kind, size⟩ := x
  cases kind with
  | byte => exact (reaches_modify fun _ => .rearm).bind fun _ => reaches_get_bind fun _ => .refl
  | string => exact (reaches_readFull size).bind fun _ => reaches_pure _
  | list => exact (reaches_readFull size).bind fun _ => reaches_pure _

/-- `List` enters a list only with the header `Kind` checked and cached. -/
theorem reaches_list : Reaches Stream.Move Stream.List := by
  unfold Stream.List
  refine reaches_kind.bind_of_ok fun s x s' h => ?_
  obtain ⟨kind, size⟩ := x
  obtain ⟨hk, he, rfl⟩ := kind_eq_ok_cached h
  dsimp only
  rw [ite_apply_state]
  split
  · exact .refl
  · rename_i hlist
    rw [show kind = .list from of_not_not hlist] at hk
    exact .single (.push hk he)

/-- `ListEnd` fails before it changes the stream. -/
theorem listEnd_eq_error {s s' : Stream} {e : RlpError} (h : Stream.ListEnd s = .error e s') :
    s' = s := by
  unfold Stream.ListEnd at h
  simp only [get_bind_apply] at h
  rcases hst : s.stack with _ | ⟨tos, rest⟩ <;> simp only [hst] at h
  · cases h
    rfl
  · rw [ite_apply_state] at h
    split at h
    · cases h
      rfl
    · cases h

theorem reaches_listEnd : Reaches Stream.Move Stream.ListEnd := by
  intro s
  cases h : Stream.ListEnd s with
  | ok u s' =>
    obtain ⟨tos, rest, hst, hpos, rfl⟩ := listEnd_eq_ok.mp h
    exact .single (.pop hst hpos)
  | error e s' =>
    rw [state_error, listEnd_eq_error h]

/-! ### Runs of calls -/

/-- The calls a decoder makes on a `Stream`. -/
inductive StreamOp where
  | kind
  | bytes
  | uint (maxbits : Nat)
  | raw
  | list
  | listEnd
  deriving DecidableEq, Repr

/-- The stream after one call, whether it returned or failed. -/
def StreamOp.step (s : Stream) : StreamOp → Stream
  | .kind => (Stream.Kind s).state
  | .bytes => (Stream.Bytes s).state
  | .uint maxbits => (Stream.uint maxbits s).state
  | .raw => (Stream.Raw s).state
  | .list => (Stream.List s).state
  | .listEnd => (Stream.ListEnd s).state

/-- The stream after a sequence of calls. -/
def runStreamOps (s : Stream) (ops : List StreamOp) : Stream :=
  ops.foldl StreamOp.step s

theorem reflTransGen_step (s : Stream) (op : StreamOp) :
    ReflTransGen Stream.Move s (op.step s) := by
  cases op with
  | kind => exact reaches_kind s
  | bytes => exact reaches_bytes s
  | uint maxbits => exact reaches_uint maxbits s
  | raw => exact reaches_raw s
  | list => exact reaches_list s
  | listEnd => exact reaches_listEnd s

theorem reflTransGen_runStreamOps (s : Stream) (ops : List StreamOp) :
    ReflTransGen Stream.Move s (runStreamOps s ops) :=
  reflTransGen_foldl _ reflTransGen_step s ops

theorem inv_reset (b : Rlp.Bytes) (limit : Nat) : (Stream.reset b limit).Inv :=
  ⟨stackOk_nil, by simp [Stream.reset]⟩

theorem reads_reset {b : Rlp.Bytes} {limit : Nat} (h : limit ≤ b.length) :
    (Stream.reset b limit).Reads b (Stream.reset b limit).remaining := by
  refine ⟨rfl, List.suffix_refl b, by simp [Stream.reset], ?_⟩
  simp only [Stream.reset]
  split <;> omega

/-- Along any sequence of `Kind`, `Bytes`, `uint`, `Raw`, `List` and `ListEnd` calls on a stream
over any input, whatever they return: every step is one `Stream.Move` allows, so no read is
charged past the end of the innermost list; every list on the stack is read no further than its
size, and no longer than what was left of the list around it; a limit at most the input's
length is accounted for exactly by the bytes taken from the input and `remaining`; and
`ListEnd` succeeds exactly when the innermost list is read to its end. -/
theorem stream_list_positions (b : Rlp.Bytes) (limit : Nat) (ops : List StreamOp) :
    let s := runStreamOps (Stream.reset b limit) ops
    ReflTransGen Stream.Move (Stream.reset b limit) s ∧ s.Inv ∧
      (limit ≤ b.length → s.Reads b (Stream.reset b limit).remaining) ∧
      ((∃ s', Stream.ListEnd s = .ok () s') ↔
        ∃ tos rest, s.stack = tos :: rest ∧ tos.pos = tos.size) := by
  intro s
  have hrun : ReflTransGen Stream.Move (Stream.reset b limit) s := reflTransGen_runStreamOps _ ops
  refine ⟨hrun, keeps_of_reflTransGen (fun _ _ h hs => h.inv hs) hrun (inv_reset b limit),
    fun hlim => keeps_of_reflTransGen (fun _ _ h hs => h.reads hs) hrun (reads_reset hlim), ?_⟩
  constructor
  · rintro ⟨s', h⟩
    obtain ⟨tos, rest, hst, hpos, -⟩ := listEnd_eq_ok.mp h
    exact ⟨tos, rest, hst, hpos⟩
  · rintro ⟨tos, rest, hst, hpos⟩
    exact ⟨_, listEnd_eq_ok.mpr ⟨tos, rest, hst, hpos, rfl⟩⟩

theorem stream_list_positions_nested :
    (runStreamOps (Stream.reset [0xC2, 0xC1, 0x01] 0) [.list, .list, .bytes, .listEnd, .listEnd]).Inv :=
  (stream_list_positions _ _ _).2.1

/-- A limit beyond the input: `NewStream` over the one byte `0x82` with the limit 10. The header
of a two-byte string is read, then `Bytes` charges both content bytes to `remaining` and finds
the input at its end. One byte has been taken and `remaining` is 7. -/
theorem stream_consumed_short_of_limit :
    let s := runStreamOps (Stream.reset [0x82] 10) [.kind, .bytes]
    s.limited = true ∧ s.r = [] ∧ s.remaining = 7 ∧
      [(0x82 : UInt8)].length - s.r.length + s.remaining ≠ (Stream.reset [0x82] 10).remaining := by
  decide

end Ccmchain.Rlp
