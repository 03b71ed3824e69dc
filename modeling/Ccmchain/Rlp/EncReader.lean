import Ccmchain.Rlp.Encode

/-!
# `encReader` (`rlp/encode.go`)

`EncodeToReader` hands the encoder's buffer out through a reader. `next` yields, in turn, the
string data up to the next list header, the header, and at the end the string data after the
last header; `Read` copies these pieces into the caller's buffer and keeps the part of a piece
that did not fit for the next call. `remaining` is what the reader has still to hand out: each
`next` takes a piece off its front, and a `Read` of `n` bytes is `take n` of it.
-/

namespace Ccmchain.Rlp

open Encbuf

/-- `encReader`. `buf` is `none` once `Read` has returned `io.EOF`, `piece` is `none` where
Go's slice is nil. -/
structure EncReader where
  buf : Option Encbuf
  lhpos : Nat
  strpos : Nat
  piece : Option Bytes

namespace EncReader

/-- `encReader.next`: the piece, `none` at EOF, and the reader after it. -/
def next (r : EncReader) : Option Bytes × EncReader :=
  match r.buf, r.piece with
  | none, _ => (none, r)
  | some _, some p => (some p, r)
  | some buf, none =>
    if h : r.lhpos < buf.lheads.length then
      let head := buf.lheads[r.lhpos]
      let sizebefore := head.offset - r.strpos
      if sizebefore > 0 then
        (some ((buf.str.drop r.strpos).take sizebefore), { r with strpos := r.strpos + sizebefore })
      else (some head.encode, { r with lhpos := r.lhpos + 1 })
    else if r.strpos < buf.str.length then
      (some (buf.str.drop r.strpos), { r with strpos := buf.str.length })
    else (none, r)

/-- A bound on the rounds of `Read`'s loop: the piece held, three for each head still to come,
and one for each stretch of string data `next` has still to hand out. -/
def pending (r : EncReader) : Nat :=
  match r.buf with
  | none => 0
  | some buf =>
    (if r.piece.isSome then 1 else 0) + 3 * (buf.lheads.length - r.lhpos) +
      (if buf.lheads[r.lhpos]?.any fun head => r.strpos < head.offset then 1 else 0) +
      (if r.strpos < buf.str.length then 1 else 0)

theorem pending_next {r r' : EncReader} {p : Bytes} (h : r.next = (some p, r')) :
    { r' with piece := none }.pending < r.pending := by
  obtain ⟨buf, lhpos, strpos, piece⟩ := r
  cases buf with
  | none => simp [next] at h
  | some buf =>
    cases piece with
    | some q =>
      simp only [next, Option.some.injEq, Prod.mk.injEq] at h
      obtain ⟨-, rfl⟩ := h
      simp [pending]
    | none =>
      simp only [next] at h
      split at h
      · rename_i hl
        split at h
        · -- the string data before the head
          obtain ⟨-, rfl⟩ := Prod.mk.inj h
          simp only [pending, List.getElem?_eq_getElem hl]
          split_ifs <;> simp_all <;> omega
        · -- the head
          obtain ⟨-, rfl⟩ := Prod.mk.inj h
          simp only [pending, List.getElem?_eq_getElem hl]
          split_ifs <;> simp_all <;> omega
      · split at h
        · -- the string data after the last head
          rename_i hl _
          obtain ⟨-, rfl⟩ := Prod.mk.inj h
          simp only [pending, List.getElem?_eq_none (Nat.le_of_not_lt hl)]
          split_ifs <;> simp_all
        · cases h

/-- The loop of `Read` into a buffer of `size` bytes, `out` holding the bytes copied so far: the
bytes read, whether it returned `io.EOF`, and the reader after. -/
def readLoop (size : Nat) (out : Bytes) (r : EncReader) : Bytes × Bool × EncReader :=
  match h : r.next with
  | (none, r') => (out, true, { r' with piece := none, buf := none })
  | (some piece, r') =>
    have := pending_next h
    let nn := min (size - out.length) piece.length
    let out := out ++ piece.take nn
    if nn < piece.length then (out, false, { r' with piece := some (piece.drop nn) })
    else readLoop size out { r' with piece := none }
termination_by r.pending

/-- `encReader.Read` into a buffer of `size` bytes. -/
def Read (r : EncReader) (size : Nat) : Bytes × Bool × EncReader :=
  readLoop size [] r

/-- The bytes the reader has still to hand out. -/
def remaining (r : EncReader) : Bytes :=
  match r.buf with
  | none => []
  | some buf => r.piece.getD [] ++ writeOut buf.str r.strpos (buf.lheads.drop r.lhpos)

/-- The buffer's list heads lie inside its string data, as `encbuf` records them. -/
def Valid (r : EncReader) : Prop :=
  ∀ buf ∈ r.buf, ∀ head ∈ buf.lheads, head.offset ≤ buf.str.length

theorem next_none {r r' : EncReader} (h : r.next = (none, r')) : r' = r ∧ r.remaining = [] := by
  obtain ⟨buf, lhpos, strpos, piece⟩ := r
  cases buf with
  | none =>
    simp only [next, Prod.mk.injEq] at h
    exact ⟨h.2.symm, rfl⟩
  | some buf =>
    cases piece with
    | some q => simp [next] at h
    | none =>
      simp only [next] at h
      split at h
      · split at h <;> cases h
      · rename_i hl
        split at h
        · cases h
        · rename_i hs
          obtain ⟨-, rfl⟩ := Prod.mk.inj h
          simp [remaining, List.drop_eq_nil_of_le (Nat.le_of_not_lt hl), writeOut, hs]

theorem next_some {r r' : EncReader} {p : Bytes} (hv : r.Valid) (h : r.next = (some p, r')) :
    ∃ buf, r.buf = some buf ∧ r'.buf = some buf ∧
      r.remaining = p ++ { r' with piece := none }.remaining := by
  obtain ⟨buf, lhpos, strpos, piece⟩ := r
  cases buf with
  | none => simp [next] at h
  | some buf =>
    cases piece with
    | some q =>
      simp only [next, Option.some.injEq, Prod.mk.injEq] at h
      obtain ⟨rfl, rfl⟩ := h
      exact ⟨buf, rfl, rfl, by simp [remaining]⟩
    | none =>
      simp only [next] at h
      split at h
      · rename_i hl
        have hdrop := List.drop_eq_getElem_cons hl
        split at h
        · -- the string data before the head, which ends at the head
          rename_i hb
          simp only [Prod.mk.injEq, Option.some.injEq] at h
          obtain ⟨rfl, rfl⟩ := h
          have hin : buf.lheads[lhpos].offset ≤ buf.str.length :=
            hv buf rfl _ (List.getElem_mem hl)
          have hlen : strpos + ((buf.str.drop strpos).take (buf.lheads[lhpos].offset - strpos)).length =
              buf.lheads[lhpos].offset := by
            simp only [List.length_take, List.length_drop]
            omega
          refine ⟨buf, rfl, rfl, ?_⟩
          simp only [remaining, Option.getD_none, List.nil_append, hdrop, writeOut, if_pos hb, hlen]
          simp [show strpos + (buf.lheads[lhpos].offset - strpos) = buf.lheads[lhpos].offset by omega]
        · -- the head
          rename_i hb
          simp only [Prod.mk.injEq, Option.some.injEq] at h
          obtain ⟨rfl, rfl⟩ := h
          refine ⟨buf, rfl, rfl, ?_⟩
          simp only [remaining, Option.getD_none, List.nil_append, hdrop, writeOut, if_neg hb]
      · rename_i hl
        split at h
        · -- the string data after the last head
          rename_i hs
          simp only [Prod.mk.injEq, Option.some.injEq] at h
          obtain ⟨rfl, rfl⟩ := h
          refine ⟨buf, rfl, rfl, ?_⟩
          simp [remaining, List.drop_eq_nil_of_le (Nat.le_of_not_lt hl), writeOut, hs]
        · cases h

theorem valid_of_buf {r r' : EncReader} (h : r'.buf = r.buf) (hv : r.Valid) : r'.Valid := by
  rw [Valid, h]
  exact hv

theorem remaining_with_piece {r : EncReader} {buf : Encbuf} (hb : r.buf = some buf) (x : Bytes) :
    { r with piece := some x }.remaining = x ++ { r with piece := none }.remaining := by
  simp [remaining, hb]

/-- A `Read` round into `k` free bytes is `take k` on what remains, with `io.EOF` exactly when
all of it fits. -/
theorem readLoop_spec (size : Nat) (out : Bytes) (r : EncReader) : r.Valid →
    ∃ r', readLoop size out r = (out ++ r.remaining.take (size - out.length),
        decide (r.remaining.length ≤ size - out.length), r') ∧
      r'.remaining = r.remaining.drop (size - out.length) ∧ r'.Valid := by
  fun_induction readLoop size out r with
  | case1 out r r' h =>
    intro _
    obtain ⟨-, hrem⟩ := next_none h
    refine ⟨{ r' with piece := none, buf := none }, ?_, ?_, ?_⟩
    · simp [hrem]
    · rw [hrem, List.drop_nil]
      rfl
    · simp [Valid]
  | case2 out r piece r' h _ nn out' hlt =>
    intro hv
    obtain ⟨buf, hb, hb', hrem⟩ := next_some hv h
    -- the piece does not fit: the buffer is filled from it
    have hk : size - out.length < piece.length := by omega
    have hnn : min (size - out.length) piece.length = size - out.length := by omega
    refine ⟨{ r' with piece := some (piece.drop nn) }, ?_, ?_, valid_of_buf (hb'.trans hb.symm) hv⟩
    · have hfit : ¬(piece ++ { r' with piece := none }.remaining).length ≤ size - out.length := by
        simp only [List.length_append]
        omega
      simp only [nn, out', hnn, hrem, List.take_append, decide_eq_false hfit,
        Nat.sub_eq_zero_of_le hk.le, List.take_zero, List.append_nil]
    · rw [remaining_with_piece hb', hrem, List.drop_append, Nat.sub_eq_zero_of_le hk.le,
        List.drop_zero]
      simp only [nn, hnn]
  | case3 out r piece r' h _ nn out' hge ih =>
    intro hv
    obtain ⟨buf, hb, hb', hrem⟩ := next_some hv h
    -- the whole piece is copied and the loop goes on with the next one
    have hp : piece.length ≤ size - out.length := by omega
    have hout : out' = out ++ piece := by
      simp only [out', nn]
      rw [List.take_of_length_le (by omega)]
    have hk : size - out'.length = size - out.length - piece.length := by
      rw [hout, List.length_append]
      omega
    obtain ⟨r₂, heq, hrem₂, hv₂⟩ := ih (valid_of_buf (hb'.trans hb.symm) hv)
    refine ⟨r₂, ?_, ?_, hv₂⟩
    · rw [heq, hk, hout, hrem, List.take_append, List.take_of_length_le hp]
      simp only [List.length_append, List.append_assoc, Prod.mk.injEq, decide_eq_decide, true_and,
        and_true]
      omega
    · rw [hrem₂, hk, hrem, List.drop_append, List.drop_eq_nil_of_le hp, List.nil_append]

/-- `Read` of `size` bytes hands out the first `size` bytes that remain, with `io.EOF` exactly
when nothing remains after them. -/
theorem read_spec {r : EncReader} (hv : r.Valid) (size : Nat) :
    ∃ r', r.Read size = (r.remaining.take size, decide (r.remaining.length ≤ size), r') ∧
      r'.remaining = r.remaining.drop size ∧ r'.Valid := by
  simpa [Read] using readLoop_spec size [] r hv

end EncReader

open EncReader

/-- Successive `Read` calls with the buffer sizes `sizes`, up to the first that returns
`io.EOF`: the bytes read and whether `io.EOF` came. -/
def readUntilEOF : List Nat → EncReader → Bytes × Bool
  | [], _ => ([], false)
  | size :: sizes, r =>
    let (b, eof, r) := r.Read size
    if eof then (b, true)
    else
      let (rest, eof) := readUntilEOF sizes r
      (b ++ rest, eof)

theorem readUntilEOF_spec (sizes : List Nat) {r : EncReader} (hv : r.Valid) :
    readUntilEOF sizes r =
      (r.remaining.take sizes.sum, decide (sizes ≠ [] ∧ r.remaining.length ≤ sizes.sum)) := by
  induction sizes generalizing r with
  | nil => simp [readUntilEOF]
  | cons size sizes ih =>
    obtain ⟨r', hread, hrem, hv'⟩ := read_spec hv size
    simp only [readUntilEOF, hread, ih hv', hrem, List.sum_cons]
    split_ifs with heof
    · -- the first read reaches the end
      simp only [decide_eq_true_eq] at heof
      have hcover : size :: sizes ≠ [] ∧ r.remaining.length ≤ size + sizes.sum :=
        ⟨List.cons_ne_nil _ _, by omega⟩
      rw [List.take_of_length_le heof, List.take_of_length_le (by omega)]
      simp [hcover]
    · -- the rest is read by the later calls, if there are any
      simp only [decide_eq_true_eq] at heof
      rw [List.take_add, List.length_drop]
      cases sizes with
      | nil => simp [heof]
      | cons _ _ =>
        simp only [ne_eq, reduceCtorEq, not_false_eq_true, true_and, Prod.mk.injEq,
          decide_eq_decide]
        omega

mutual

theorem heads_offset_le : ∀ (v : RlpValue) (off : Nat), ∀ h ∈ v.heads off,
    h.offset ≤ off + v.strData.length
  | .str _, _, h, hh => by simp [RlpValue.heads] at hh
  | .list xs, off, h, hh => by
    simp only [RlpValue.heads, List.mem_cons] at hh
    rcases hh with rfl | hh
    · simp
    · simpa [RlpValue.strData] using headsList_offset_le xs off h hh

theorem headsList_offset_le : ∀ (xs : List RlpValue) (off : Nat), ∀ h ∈ headsList xs off,
    h.offset ≤ off + (strDataList xs).length
  | [], _, h, hh => by simp [headsList] at hh
  | x :: xs, off, h, hh => by
    simp only [headsList, List.mem_append] at hh
    simp only [strDataList, List.length_append]
    rcases hh with hh | hh
    · have := heads_offset_le x off h hh
      omega
    · have := headsList_offset_le xs _ h hh
      omega

end

/-- `EncodeToReader`: the size of the encoding and a reader over the encoder's buffer. -/
def EncodeToReader (v : RlpValue) : Nat × EncReader :=
  let eb := writeValue v Encbuf.empty
  (eb.size, ⟨some eb, 0, 0, none⟩)

theorem encodeToReader_valid {v : RlpValue} (hv : v.Fits) : (EncodeToReader v).2.Valid := by
  intro buf hbuf head hhead
  simp only [EncodeToReader, Option.mem_def, Option.some.injEq] at hbuf
  subst hbuf
  rw [writeValue_eq v hv] at hhead ⊢
  simpa [Encbuf.empty] using heads_offset_le v 0 head (by simpa [Encbuf.empty] using hhead)

theorem remaining_encodeToReader (v : RlpValue) : (EncodeToReader v).2.remaining = Encode v := by
  simp [EncodeToReader, EncReader.remaining, Encode, toWriter]

/-- The encoder's three outputs agree on every value a Go slice can hold: `EncodeToBytes`,
`Encode` into a writer, and the bytes of successive `Read`s of sizes `sizes`, which return
`io.EOF` exactly when the sizes cover the encoding; `EncodeToReader` reports its length. -/
theorem encoder_outputs_agree {v : RlpValue} (h : v.enc.length < 2 ^ 64) (sizes : List Nat) :
    EncodeToBytes v = v.enc ∧ Encode v = v.enc ∧ (EncodeToReader v).1 = v.enc.length ∧
      readUntilEOF sizes (EncodeToReader v).2 =
        (v.enc.take sizes.sum, decide (sizes ≠ [] ∧ v.enc.length ≤ sizes.sum)) := by
  have hv := fits_of_length_enc v h
  refine ⟨encodeToBytes_eq_enc h, encode_eq_enc h, size_writeValue h, ?_⟩
  rw [readUntilEOF_spec sizes (encodeToReader_valid hv), remaining_encodeToReader, encode_eq_enc h]

theorem encoder_outputs_agree_nested :
    EncodeToBytes (.list [.str [1, 2, 3], .str [5]]) = (RlpValue.list [.str [1, 2, 3], .str [5]]).enc ∧
      Encode (.list [.str [1, 2, 3], .str [5]]) = (RlpValue.list [.str [1, 2, 3], .str [5]]).enc ∧
      (EncodeToReader (.list [.str [1, 2, 3], .str [5]])).1 =
        (RlpValue.list [.str [1, 2, 3], .str [5]]).enc.length ∧
      readUntilEOF [2, 1, 4] (EncodeToReader (.list [.str [1, 2, 3], .str [5]])).2 =
        ((RlpValue.list [.str [1, 2, 3], .str [5]]).enc.take [2, 1, 4].sum,
          decide ([2, 1, 4] ≠ [] ∧ (RlpValue.list [.str [1, 2, 3], .str [5]]).enc.length ≤ [2, 1, 4].sum)) :=
  encoder_outputs_agree (by decide) [2, 1, 4]

end Ccmchain.Rlp
