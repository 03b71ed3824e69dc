import Ccmchain.Rlp.Stream
import Ccmchain.Rlp.Encode

/-!
# Decoding into `interface{}` (`rlp/decode.go`)

`decodeInterface` reads a string as `[]byte` and a list as `[]interface{}` through
`decodeListSlice` and the loop of `decodeSliceElems`, which stops at the `EOL` that `Kind` reports
at the end of the list. `DecodeBytes` runs it on a stream limited to its input and refuses
trailing bytes.

The recursion is bounded by a fuel argument that Go does not have; `DecodeBytes` gives one more
than the input length, which no run exhausts (`decodeInterface_complete`). What a run reads is
described by `Advanced`: the bytes it consumed are charged to the innermost list and to the
input limit. The decoder reads exactly the canonical encoding of the value it returns
(`decodeInterface_sound`) and reads back every value from its canonical encoding
(`decodeInterface_complete`).
-/

namespace Ccmchain.Rlp

open EStateM

/-- `wrapStreamError` for the `[]interface {}` a list is decoded into. -/
def wrapStreamError (err : RlpError) : RlpError :=
  match err with
  | .canonInt => .decodeError "non-canonical integer (leading zero bytes)" []
  | .canonSize => .decodeError "non-canonical size information" []
  | .expectedList => .decodeError "expected input list" []
  | .expectedString => .decodeError "expected input string or byte" []
  | .notAtEOL => .decodeError "input list has too many elements" []
  | e => e

/-- `addErrorContext`. -/
def addErrorContext (err : RlpError) (ctx : String) : RlpError :=
  match err with
  | .decodeError msg cs => .decodeError msg (cs ++ [ctx])
  | e => e

/-- The loop of `decodeSliceElems`: element `i` onwards, until `elemdec` reports `EOL`. -/
def decodeSliceElems {α : Type} (elemdec : StreamM α) : Nat → Nat → StreamM (List α)
  | 0, _ => throw .outOfFuel
  | fuel + 1, i => do
    match ← attempt elemdec with
    | .error .eol => pure []
    | .error err => throw (addErrorContext err ("[" ++ toString i ++ "]"))
    | .ok x =>
      let xs ← decodeSliceElems elemdec fuel (i + 1)
      pure (x :: xs)

/-- `decodeListSlice`. -/
def decodeListSlice {α : Type} (elemdec : StreamM α) (fuel : Nat) : StreamM (List α) := do
  let size ← adaptExcept wrapStreamError Stream.List
  if size = 0 then
    Stream.ListEnd
    pure []
  else
    let xs ← decodeSliceElems elemdec fuel 0
    Stream.ListEnd
    pure xs

/-- `decodeInterface`. -/
def decodeInterface : Nat → StreamM RlpValue
  | 0 => throw .outOfFuel
  | fuel + 1 => do
    let (kind, _) ← Stream.Kind
    if kind = .list then
      let xs ← decodeListSlice (decodeInterface fuel) fuel
      pure (.list xs)
    else
      let b ← Stream.Bytes
      pure (.str b)

/-- The context `Decode` appends to a `*decodeError` that already has one. -/
def decodeTargetContext (err : RlpError) : RlpError :=
  match err with
  | .decodeError msg ctx => if ctx = [] then err else .decodeError msg (ctx ++ ["(interface \x7b\x7d)"])
  | e => e

/-- `Stream.Decode` into an `interface{}`. -/
def Stream.Decode (fuel : Nat) : StreamM RlpValue :=
  adaptExcept decodeTargetContext (decodeInterface fuel)

/-- `DecodeBytes` into an `interface{}`. -/
def DecodeBytes (b : Bytes) : Except RlpError RlpValue :=
  match Stream.Decode (b.length + 1) (Stream.reset b b.length) with
  | .ok v s => if s.r.length > 0 then .error .moreThanOneValue else .ok v
  | .error err _ => .error err

/-! ### What a read moves -/

/-- `s'` is `s` after `n` more bytes were read, charged to the innermost list and to the input
limit. -/
structure Advanced (s s' : Stream) (n : Nat) : Prop where
  remaining : s'.remaining = if s.limited then s.remaining - n else s.remaining
  limited : s'.limited = s.limited
  stack : s'.stack = chargeTop s.stack n

theorem Advanced.trans {s₁ s₂ s₃ : Stream} {m n : Nat} (h₁ : Advanced s₁ s₂ m)
    (h₂ : Advanced s₂ s₃ n) : Advanced s₁ s₃ (m + n) where
  remaining := by
    rw [h₂.remaining, h₁.limited, h₁.remaining]
    split <;> simp [Nat.sub_sub]
  limited := h₂.limited.trans h₁.limited
  stack := by rw [h₂.stack, h₁.stack, chargeTop_chargeTop]

theorem Advanced.zero {s s' : Stream} (hr : s'.remaining = s.remaining) (hl : s'.limited = s.limited)
    (hs : s'.stack = s.stack) : Advanced s s' 0 where
  remaining := by simp [hr]
  limited := hl
  stack := by simp [hs]

/-- What is left to read after an advance is what was left, less what was read. -/
theorem Advanced.room {s t : Stream} {m n : Nat} (h : Advanced s t m) (hroom : s.Room (m + n)) :
    t.Room n := by
  obtain ⟨-, hroom⟩ := room_add.mp hroom
  obtain ⟨hst, hlim⟩ := hroom
  refine ⟨?_, ?_⟩
  · rw [h.stack]
    exact hst
  · intro hl
    rw [h.remaining]
    exact hlim (h.limited ▸ hl)

/-- A read of `n` bytes advances by `n`. -/
theorem advanced_charge (t : Stream) (n : Nat) (x : Bytes) : Advanced t { t.charge n with r := x } n :=
  ⟨rfl, rfl, rfl⟩

/-- A size the rest of the list and the input leave room for passes `Kind`'s check. -/
theorem sizeErr_eq_none {t : Stream} {n : Nat} (h : t.Room n) : sizeErr t n = none := by
  obtain ⟨hst, hlim⟩ := h
  unfold sizeErr
  cases hs : t.stack with
  | nil =>
    by_cases hl : t.limited <;> simp_all
  | cons tos rest =>
    rw [hs] at hst
    simp only [roomTop] at hst
    simp [show ¬ tos.size - tos.pos < n by omega]

/-- The stream after `Kind` has read a header: what was read is charged, and the kind, size
and byte are cached. -/
theorem kind_header {s s' : Stream} {k : Kind} {size : Nat} (hk : s.kind = none)
    (h : Stream.Kind s = .ok (k, size) s') :
    ∃ bv hdr, KindHeader k size bv hdr ∧ s.r = hdr ++ s'.r ∧ Advanced s s' hdr.length ∧
      s'.byteval = bv ∧ s'.kind = some k ∧ s'.kinderr = none ∧ s'.size = size := by
  obtain ⟨-, s₀, hr, -, rfl⟩ := (kind_eq_ok_fresh hk).mp h
  obtain ⟨bv, hdr, rest, hh, -, hs, rfl⟩ := readKind_eq_ok_none.mp hr
  exact ⟨bv, hdr, hh, hs, ⟨rfl, rfl, rfl⟩, rfl, rfl, rfl, rfl⟩

/-- `Kind` on a header that fits the innermost list and the input limit, payload included. -/
theorem kind_of_header {s : Stream} {k : Kind} {size : Nat} {bv : UInt8} {hdr rest : Bytes}
    (hk : s.kind = none) (hh : KindHeader k size bv hdr) (hroom : s.Room (hdr.length + size))
    (hs : s.r = hdr ++ rest) :
    ∃ s₁, Stream.Kind s = .ok (k, size) s₁ ∧ s₁.r = rest ∧ Advanced s s₁ hdr.length ∧
      s₁.byteval = bv ∧ s₁.kind = some k ∧ s₁.kinderr = none ∧ s₁.size = size := by
  have hpos : 0 < hdr.length := by
    cases hh with
    | byte _ => simp
    | string _ => exact List.length_pos_iff.mpr (header_ne_nil _ _)
    | list _ => exact List.length_pos_iff.mpr (header_ne_nil _ _)
  obtain ⟨hroom₁, hroom₂⟩ := room_add.mp hroom
  have hend : ¬ atEOL s.stack := by
    obtain ⟨hst, -⟩ := hroom₁
    cases hs' : s.stack with
    | nil => simp [atEOL]
    | cons tos rest =>
      rw [hs'] at hst
      simp only [roomTop] at hst
      simp only [atEOL]
      omega
  have hr := (readKind_eq_ok_none (s := { s with kinderr := none })).mpr
    ⟨bv, hdr, rest, hh, hroom₁, hs, rfl⟩
  refine ⟨_, (kind_eq_ok_fresh hk).mpr ⟨hend, _, hr, sizeErr_eq_none hroom₂, rfl⟩, rfl, ⟨rfl, rfl, rfl⟩,
    rfl, rfl, rfl, rfl⟩

/-- At the end of a list, `Kind` reports `EOL` and reads nothing. -/
theorem kind_of_atEOL {t : Stream} (hk : t.kind = none) (hend : atEOL t.stack) :
    Stream.Kind t = .error .eol { t with kinderr := none } := by
  unfold Stream.Kind
  simp only [get_bind_apply, hk, set_bind_apply]
  cases hs : t.stack with
  | nil => simp [hs, atEOL] at hend
  | cons tos rest =>
    rw [hs] at hend
    simp only [atEOL] at hend
    dsimp only
    rw [ite_apply_state, if_pos hend]
    simp

/-! ### Where `EOL` comes from -/

theorem addErrorContext_ne_eol {e : RlpError} (h : e ≠ .eol) (ctx : String) :
    addErrorContext e ctx ≠ .eol := by
  cases e <;> simp_all [addErrorContext]

/-- The loop never passes `EOL` on: it is where the loop stops. -/
theorem throws_decodeSliceElems {α : Type} (elemdec : StreamM α) (fuel : Nat) :
    ∀ i, Throws (· ≠ .eol) (decodeSliceElems elemdec fuel i) := by
  induction fuel with
  | zero => exact fun _ => throws_throw (by decide)
  | succ fuel ih =>
    intro i
    refine (throws_attempt _).bind fun r => ?_
    split
    · exact throws_pure _
    · rename_i err hne
      exact throws_throw (addErrorContext_ne_eol (fun h => hne h) _)
    · exact (ih _).bind fun _ => throws_pure _

theorem decodeListSlice_ne_eol {α : Type} {elemdec : StreamM α} {fuel : Nat} {s s' : Stream}
    {e : RlpError} (hk : s.kind = some .list) (he : s.kinderr = none)
    (h : decodeListSlice elemdec fuel s = .error e s') : e ≠ .eol := by
  rw [decodeListSlice, bind_of_ok (adaptExcept_of_ok _ (list_of_cached hk he))] at h
  exact (Throws.ite (throws_listEnd.bind fun _ => throws_pure _)
    ((throws_decodeSliceElems elemdec fuel 0).bind fun _ => throws_listEnd.bind fun _ => throws_pure _))
    _ _ _ h

/-- `decodeInterface` reports `EOL` only where `Kind` does, at the end of a list, having read
nothing. -/
theorem decodeInterface_eq_error_eol {fuel : Nat} {s s' : Stream} (hk : s.kind = none)
    (h : decodeInterface fuel s = .error .eol s') : { s with kinderr := none } = s' := by
  cases fuel with
  | zero => cases h
  | succ n =>
    rw [decodeInterface] at h
    rcases bind_eq_error.mp h with hkind | ⟨⟨kind, size⟩, s₁, hkind, h⟩
    · exact (kind_eq_error_eol hk hkind).2
    · exfalso
      obtain ⟨bv, hdr, hh, -, -, -, hk₁, he₁, -⟩ := kind_header hk hkind
      cases hh with
      | byte hb =>
        rcases bind_eq_error.mp h with hb₂ | ⟨b, s₂, -, hp⟩
        · exact bytes_of_cached_ne_eol hk₁ he₁ hb₂ rfl
        · cases hp
      | string hn =>
        rcases bind_eq_error.mp h with hb₂ | ⟨b, s₂, -, hp⟩
        · exact bytes_of_cached_ne_eol hk₁ he₁ hb₂ rfl
        · cases hp
      | list hn =>
        rcases bind_eq_error.mp h with hxs | ⟨xs, s₂, -, hp⟩
        · exact decodeListSlice_ne_eol hk₁ he₁ hxs rfl
        · cases hp

/-! ### Soundness: what is read is the encoding of what is returned -/

section Sound

variable {elemdec : StreamM RlpValue}

/-- The loop reads the encodings of the elements it returns, one after another, and stops at
the end of the list without reading. -/
theorem decodeSliceElems_sound
    (hsound : ∀ {t t' : Stream} {v : RlpValue}, t.kind = none → elemdec t = .ok v t' →
      v.Fits ∧ t.r = v.enc ++ t'.r ∧ Advanced t t' v.enc.length ∧ t'.kind = none)
    (heol : ∀ {t t' : Stream}, t.kind = none → elemdec t = .error .eol t' →
      { t with kinderr := none } = t') (fuel : Nat) :
    ∀ {i : Nat} {s s' : Stream} {xs : List RlpValue}, s.kind = none →
      decodeSliceElems elemdec fuel i s = .ok xs s' →
      FitsList xs ∧ s.r = encList xs ++ s'.r ∧ Advanced s s' (encList xs).length ∧ s'.kind = none := by
  induction fuel with
  | zero =>
    intro i s s' xs hk h
    cases h
  | succ fuel ih =>
    intro i s s' xs hk h
    rw [decodeSliceElems, bind_eq_ok] at h
    obtain ⟨r, s₁, hatt, hp⟩ := h
    split at hp
    · -- `EOL`: the end of the list, where nothing was read
      obtain ⟨a, ha, -⟩ | ⟨e, he, hx⟩ := attempt_eq_ok.mp hatt
      · cases ha
      cases he
      cases hp
      have h₁ := heol hk hx
      subst h₁
      exact ⟨trivial, by simp, Advanced.zero rfl rfl rfl, hk⟩
    · cases hp
    · -- an element, then the rest of the list
      rename_i x
      obtain ⟨a, ha, hx⟩ | ⟨e, he, -⟩ := attempt_eq_ok.mp hatt
      · cases ha
        obtain ⟨hfx, hrx, hadv, hk₁⟩ := hsound hk hx
        obtain ⟨ys, s₂, hys, hp⟩ := bind_eq_ok.mp hp
        cases hp
        obtain ⟨hfys, hrys, hadv', hk'⟩ := ih hk₁ hys
        refine ⟨⟨hfx, hfys⟩, ?_, ?_, hk'⟩
        · rw [hrx, hrys, encList_cons, List.append_assoc]
        · rw [encList_cons, List.length_append]
          exact hadv.trans hadv'
      · cases he

/-- `decodeListSlice` after `Kind` has found a list of `s.size` bytes reads the encodings of
the elements, exactly filling the list, and charges the list to the enclosing one. -/
theorem decodeListSlice_sound
    (hsound : ∀ {t t' : Stream} {v : RlpValue}, t.kind = none → elemdec t = .ok v t' →
      v.Fits ∧ t.r = v.enc ++ t'.r ∧ Advanced t t' v.enc.length ∧ t'.kind = none)
    (heol : ∀ {t t' : Stream}, t.kind = none → elemdec t = .error .eol t' →
      { t with kinderr := none } = t')
    {fuel : Nat} {s s' : Stream} {xs : List RlpValue} (hk : s.kind = some .list)
    (he : s.kinderr = none) (h : decodeListSlice elemdec fuel s = .ok xs s') :
    FitsList xs ∧ (encList xs).length = s.size ∧ s.r = encList xs ++ s'.r ∧
      Advanced s s' s.size ∧ s'.kind = none := by
  rw [decodeListSlice, bind_of_ok (adaptExcept_of_ok _ (list_of_cached hk he))] at h
  rw [ite_apply_state] at h
  split at h
  · -- an empty list: `ListEnd` at once
    rename_i h0
    obtain ⟨u, s₁, hend, hp⟩ := bind_eq_ok.mp h
    cases hp
    obtain ⟨tos, rest, hst, -, rfl⟩ := listEnd_eq_ok.mp hend
    cases hst
    refine ⟨trivial, by simp [h0], by simp, ⟨by simp [h0], rfl, by simp⟩, rfl⟩
  · obtain ⟨ys, s₁, hys, hp⟩ := bind_eq_ok.mp h
    obtain ⟨u, s₂, hend, hp⟩ := bind_eq_ok.mp hp
    cases hp
    obtain ⟨hf, hr, hadv, hk₁⟩ := decodeSliceElems_sound hsound heol fuel rfl hys
    obtain ⟨tos, rest, hst, hpos, rfl⟩ := listEnd_eq_ok.mp hend
    rw [hadv.stack] at hst
    simp only [chargeTop_cons, List.cons.injEq] at hst
    obtain ⟨rfl, rfl⟩ := hst
    simp only [zero_add] at hpos
    refine ⟨hf, hpos, hr, ⟨?_, hadv.limited, rfl⟩, rfl⟩
    rw [hadv.remaining, hpos]

end Sound

/-- Every value `decodeInterface` returns was read from its canonical encoding, whose sizes all
fit a header. -/
theorem decodeInterface_sound (fuel : Nat) :
    ∀ {s s' : Stream} {v : RlpValue}, s.kind = none → decodeInterface fuel s = .ok v s' →
      v.Fits ∧ s.r = v.enc ++ s'.r ∧ Advanced s s' v.enc.length ∧ s'.kind = none := by
  induction fuel with
  | zero =>
    intro s s' v hk h
    cases h
  | succ n ih =>
    intro s s' v hk h
    rw [decodeInterface, bind_eq_ok] at h
    obtain ⟨⟨kind, size⟩, s₁, hkind, h⟩ := h
    obtain ⟨bv, hdr, hh, hs, hadv, hbv, hk₁, he₁, hsz₁⟩ := kind_header hk hkind
    cases hh with
    | byte hb =>
      obtain ⟨b, s₂, hb₂, hp⟩ := bind_eq_ok.mp h
      cases hp
      rw [bytes_of_cached_byte hk₁ he₁] at hb₂
      cases hb₂
      have henc : (RlpValue.str [s₁.byteval]).enc = [bv] := by
        rw [hbv, enc_str, encString, if_pos (by simp [isByte, hb])]
      refine ⟨by simp [RlpValue.Fits], by rw [henc]; exact hs, ?_, rfl⟩
      rw [henc]
      exact ⟨hadv.remaining, hadv.limited, hadv.stack⟩
    | string hn =>
      obtain ⟨b, s₂, hb₂, hp⟩ := bind_eq_ok.mp h
      cases hp
      obtain ⟨hfull, hcanon⟩ := (bytes_of_cached_string hk₁ he₁).mp hb₂
      obtain ⟨-, hlen, rest, hr, rfl⟩ := readFull_eq_ok.mp hfull
      rw [hsz₁] at hlen hcanon
      have hnb : isByte b = false := by
        unfold isByte
        split
        · rename_i x
          simp only [List.length_singleton] at hlen
          simpa [← hlen] using hcanon
        · rfl
      have henc : (RlpValue.str b).enc = header 0x80 size ++ b := by
        rw [enc_str, encString, if_neg (by simp [hnb]), hlen]
      refine ⟨by rw [RlpValue.Fits, hlen]; exact hn, by rw [henc, hs, hr, List.append_assoc], ?_, rfl⟩
      have hadv' := hadv.trans (advanced_charge s₁ s₁.size rest)
      rw [henc, List.length_append, hlen]
      rw [hsz₁] at hadv' ⊢
      exact hadv'
    | list hn =>
      obtain ⟨xs, s₂, hxs, hp⟩ := bind_eq_ok.mp h
      cases hp
      obtain ⟨hf, hlen, hr, hadv', hk'⟩ :=
        decodeListSlice_sound (ih ·) (decodeInterface_eq_error_eol ·) hk₁ he₁ hxs
      rw [hsz₁] at hlen hadv'
      have henc : (RlpValue.list xs).enc = header 0xC0 size ++ encList xs := by
        rw [enc_list, hlen]
      refine ⟨⟨hlen ▸ hn, hf⟩, by rw [henc, hs, hr, List.append_assoc], ?_, hk'⟩
      rw [henc, List.length_append, hlen]
      exact hadv.trans hadv'

/-! ### Completeness: every value is read back from its encoding -/

/-- The innermost list has exactly `n` bytes left. -/
def FillsTop : List Listpos → Nat → Prop
  | tos :: _, n => tos.pos + n = tos.size
  | [], _ => False

theorem length_le_length_encList (xs : List RlpValue) : xs.length ≤ (encList xs).length := by
  induction xs with
  | nil => simp
  | cons x xs ih =>
    have := List.length_pos_iff.mpr (enc_ne_nil x)
    simp only [List.length_cons, encList_cons, List.length_append]
    omega

theorem length_enc_le_of_mem {x : RlpValue} {xs : List RlpValue} (h : x ∈ xs) :
    x.enc.length ≤ (encList xs).length := by
  induction xs with
  | nil => cases h
  | cons y ys ih =>
    rw [encList_cons, List.length_append]
    rcases List.mem_cons.mp h with rfl | h
    · omega
    · have := ih h
      omega

theorem fits_of_mem {x : RlpValue} {xs : List RlpValue} (hf : FitsList xs) (h : x ∈ xs) : x.Fits := by
  induction xs with
  | nil => cases h
  | cons y ys ih =>
    rcases List.mem_cons.mp h with rfl | h
    · exact hf.1
    · exact ih hf.2 h

section Complete

variable {elemdec : StreamM RlpValue}

/-- The loop reads the elements of a list whose encodings fill the rest of it, then stops at
its end. -/
theorem decodeSliceElems_complete
    (heol : ∀ {t : Stream}, t.kind = none → atEOL t.stack →
      elemdec t = .error .eol { t with kinderr := none })
    (xs : List RlpValue)
    (hcomplete : ∀ x ∈ xs, ∀ {t : Stream} {rest : Bytes}, t.kind = none → t.r = x.enc ++ rest →
      t.Room x.enc.length →
      ∃ t', elemdec t = .ok x t' ∧ t'.r = rest ∧ Advanced t t' x.enc.length ∧ t'.kind = none) :
    ∀ {fuel i : Nat} {s : Stream} {rest : Bytes}, xs.length < fuel → s.kind = none →
      s.r = encList xs ++ rest → FillsTop s.stack (encList xs).length → s.Room (encList xs).length →
      ∃ s', decodeSliceElems elemdec fuel i s = .ok xs s' ∧ s'.r = rest ∧
        Advanced s s' (encList xs).length ∧ s'.kind = none := by
  induction xs with
  | nil =>
    intro fuel i s rest hfuel hk hs hfill _
    obtain ⟨fuel, rfl⟩ : ∃ f, fuel = f + 1 := ⟨fuel - 1, by simp at hfuel; omega⟩
    have hend : atEOL s.stack := by
      cases hst : s.stack with
      | nil => simp [hst, FillsTop] at hfill
      | cons tos st =>
        rw [hst] at hfill
        simpa [FillsTop, atEOL] using hfill
    refine ⟨{ s with kinderr := none }, ?_, by simpa using hs, Advanced.zero rfl rfl rfl, hk⟩
    rw [decodeSliceElems, attempt_bind_of_error (heol hk hend)]
    rfl
  | cons x xs ih =>
    intro fuel i s rest hfuel hk hs hfill hroom
    obtain ⟨fuel, rfl⟩ : ∃ f, fuel = f + 1 := ⟨fuel - 1, by simp at hfuel; omega⟩
    simp only [encList_cons, List.length_append] at hs hfill hroom
    obtain ⟨t, hx, htr, hadv, htk⟩ :=
      hcomplete x List.mem_cons_self hk (by rw [hs, List.append_assoc]) (hroom.mono (by omega))
    have hfill' : FillsTop t.stack (encList xs).length := by
      rw [hadv.stack]
      cases hst : s.stack with
      | nil => simp [hst, FillsTop] at hfill
      | cons tos st =>
        rw [hst] at hfill
        simp only [FillsTop, chargeTop_cons] at hfill ⊢
        omega
    obtain ⟨s', hys, hr', hadv', hk'⟩ :=
      ih (fun y hy => hcomplete y (List.mem_cons_of_mem x hy)) (i := i + 1)
        (by simp at hfuel; omega) htk htr hfill' (hadv.room hroom)
    refine ⟨s', ?_, hr', ?_, hk'⟩
    · rw [decodeSliceElems, attempt_bind_of_ok hx]
      exact bind_of_ok hys (fun ys => pure (x :: ys))
    · rw [encList_cons, List.length_append]
      exact hadv.trans hadv'

/-- `decodeListSlice` after `Kind` has found a list reads its elements when their encodings
fill it. -/
theorem decodeListSlice_complete
    (heol : ∀ {t : Stream}, t.kind = none → atEOL t.stack →
      elemdec t = .error .eol { t with kinderr := none })
    (xs : List RlpValue)
    (hcomplete : ∀ x ∈ xs, ∀ {t : Stream} {rest : Bytes}, t.kind = none → t.r = x.enc ++ rest →
      t.Room x.enc.length →
      ∃ t', elemdec t = .ok x t' ∧ t'.r = rest ∧ Advanced t t' x.enc.length ∧ t'.kind = none)
    {fuel : Nat} {s : Stream} {rest : Bytes} (hfuel : xs.length < fuel) (hk : s.kind = some .list)
    (he : s.kinderr = none) (hsize : s.size = (encList xs).length) (hs : s.r = encList xs ++ rest)
    (hroom : s.Room (encList xs).length) :
    ∃ s', decodeListSlice elemdec fuel s = .ok xs s' ∧ s'.r = rest ∧
      Advanced s s' (encList xs).length ∧ s'.kind = none := by
  rw [decodeListSlice, bind_of_ok (adaptExcept_of_ok _ (list_of_cached hk he)), ite_apply_state]
  split
  · -- an empty list: `ListEnd` at once
    rename_i h0
    rw [hsize] at h0
    have hxs : xs = [] := List.eq_nil_of_length_eq_zero
      (Nat.le_zero.mp (h0 ▸ length_le_length_encList xs))
    subst hxs
    refine ⟨{ s with stack := chargeTop s.stack 0, kind := none, size := 0 }, ?_, by simpa using hs,
      ⟨by simp, rfl, rfl⟩, rfl⟩
    refine bind_of_ok ((listEnd_eq_ok (u := ())).mpr ⟨⟨0, s.size⟩, s.stack, rfl, by simp [hsize], ?_⟩) _
    simp [hsize]
  · obtain ⟨hst, hlim⟩ := hroom
    obtain ⟨s₃, hys, hr₃, hadv, hk₃⟩ := decodeSliceElems_complete heol xs hcomplete (i := 0)
      (s := { s with stack := ⟨0, s.size⟩ :: s.stack, kind := none, size := 0 }) hfuel rfl hs
      (by simp [FillsTop, hsize]) ⟨by simp [roomTop, hsize], hlim⟩
    have hst₃ : s₃.stack = ⟨(encList xs).length, s.size⟩ :: s.stack := by
      rw [hadv.stack]
      simp
    refine ⟨{ s₃ with stack := chargeTop s.stack s.size, kind := none, size := 0 }, ?_, hr₃, ?_, rfl⟩
    · rw [bind_of_ok hys]
      exact bind_of_ok ((listEnd_eq_ok (u := ())).mpr ⟨_, s.stack, hst₃, by simp [hsize], rfl⟩) _
    · refine ⟨?_, hadv.limited, by simp [hsize]⟩
      rw [show ({ s₃ with stack := chargeTop s.stack s.size, kind := none, size := 0 } : Stream).remaining
        = s₃.remaining from rfl, hadv.remaining]

end Complete

/-- At the end of a list, `decodeInterface` reports `EOL` and reads nothing. -/
theorem decodeInterface_of_atEOL (n : Nat) {t : Stream} (hk : t.kind = none) (hend : atEOL t.stack) :
    decodeInterface (n + 1) t = .error .eol { t with kinderr := none } := by
  rw [decodeInterface]
  exact bind_of_error (kind_of_atEOL hk hend) _

/-- `decodeInterface` reads every value back from its canonical encoding, given more fuel than
the encoding has bytes. -/
theorem decodeInterface_complete (fuel : Nat) :
    ∀ (v : RlpValue) {s : Stream} {rest : Bytes}, v.Fits → v.enc.length < fuel → s.kind = none →
      s.r = v.enc ++ rest → s.Room v.enc.length →
      ∃ s', decodeInterface fuel s = .ok v s' ∧ s'.r = rest ∧ Advanced s s' v.enc.length ∧
        s'.kind = none := by
  induction fuel with
  | zero =>
    intro v s rest _ hfuel
    omega
  | succ n ih =>
    intro v s rest hfit hfuel hk hs hroom
    cases v with
    | str b =>
      by_cases hb : isByte b = true
      · -- a single byte below `0x80` is its own encoding
        obtain ⟨x, rfl⟩ : ∃ x, b = [x] := by
          unfold isByte at hb
          split at hb
          · exact ⟨_, rfl⟩
          · cases hb
        have hx : x < 0x80 := by simpa [isByte] using hb
        have henc : (RlpValue.str [x]).enc = [x] := by simp [encString, hb]
        rw [henc] at hs hroom ⊢
        obtain ⟨s₁, hkind, hr₁, hadv, hbv, hk₁, he₁, -⟩ := kind_of_header hk (.byte hx) hroom hs
        refine ⟨{ s₁ with kind := none }, ?_, hr₁, ⟨hadv.remaining, hadv.limited, hadv.stack⟩, rfl⟩
        rw [decodeInterface, bind_of_ok hkind]
        show (Stream.Bytes >>= fun b => pure (RlpValue.str b)) s₁ = _
        rw [bind_of_ok (bytes_of_cached_byte hk₁ he₁), hbv]
        rfl
      · -- a string with a header
        have henc : (RlpValue.str b).enc = header 0x80 b.length ++ b := by
          simp [encString, hb]
        rw [henc] at hs hroom
        rw [henc]
        rw [List.append_assoc] at hs
        rw [List.length_append] at hroom ⊢
        obtain ⟨s₁, hkind, hr₁, hadv, -, hk₁, he₁, hsz₁⟩ :=
          kind_of_header hk (.string hfit) hroom hs
        have hfull : readFull s₁.size s₁ = .ok b { s₁.charge s₁.size with r := rest } := by
          rw [hsz₁]
          exact readFull_eq_ok.mpr ⟨hadv.room hroom, rfl, rest, hr₁, rfl⟩
        have hcanon : ¬ (s₁.size = 1 ∧ b[0]! < 128) := by
          rintro ⟨h1, hlt⟩
          rw [hsz₁] at h1
          obtain ⟨x, rfl⟩ := List.length_eq_one_iff.mp h1
          exact hb (by simpa [isByte] using hlt)
        refine ⟨{ s₁.charge s₁.size with r := rest }, ?_, rfl, ?_, rfl⟩
        · rw [decodeInterface, bind_of_ok hkind]
          show (Stream.Bytes >>= fun b => pure (RlpValue.str b)) s₁ = _
          rw [bind_of_ok ((bytes_of_cached_string hk₁ he₁).mpr ⟨hfull, hcanon⟩)]
          rfl
        · have := hadv.trans (advanced_charge s₁ s₁.size rest)
          rwa [hsz₁] at this ⊢
    | list xs =>
      have henc := enc_list xs
      obtain ⟨hfit, hfits⟩ := hfit
      rw [henc] at hs hroom hfuel
      rw [henc]
      rw [List.append_assoc] at hs
      rw [List.length_append] at hroom hfuel ⊢
      have hhdr := List.length_pos_iff.mpr (header_ne_nil 0xC0 (encList xs).length)
      obtain ⟨m, rfl⟩ : ∃ m, n = m + 1 := ⟨n - 1, by omega⟩
      obtain ⟨s₁, hkind, hr₁, hadv, -, hk₁, he₁, hsz₁⟩ := kind_of_header hk (.list hfit) hroom hs
      have hcomplete : ∀ x ∈ xs, ∀ {t : Stream} {rest : Bytes}, t.kind = none →
          t.r = x.enc ++ rest → t.Room x.enc.length →
          ∃ t', decodeInterface (m + 1) t = .ok x t' ∧ t'.r = rest ∧
            Advanced t t' x.enc.length ∧ t'.kind = none := by
        intro x hx t rest' htk hts htroom
        exact ih x (fits_of_mem hfits hx) (by have := length_enc_le_of_mem hx; omega) htk hts htroom
      obtain ⟨s₂, hxs, hr₂, hadv', hk₂⟩ := decodeListSlice_complete
        (fun htk hend => decodeInterface_of_atEOL _ htk hend) xs hcomplete
        (by have := length_le_length_encList xs; omega : xs.length < m + 1) hk₁ he₁ hsz₁ hr₁ (hadv.room hroom)
      refine ⟨s₂, ?_, hr₂, hadv.trans hadv', hk₂⟩
      rw [decodeInterface, bind_of_ok hkind]
      dsimp only
      rw [ite_apply_state, if_pos rfl, bind_of_ok hxs]
      rfl

/-! ### `DecodeBytes` -/

/-- The stream `DecodeBytes` reads from is limited to its input. -/
theorem room_reset (b : Bytes) : (Stream.reset b b.length).Room b.length := by
  refine ⟨trivial, fun _ => ?_⟩
  simp only [Stream.reset]
  split <;> omega

/-- `DecodeBytes` reads every value back from its canonical encoding. -/
theorem decodeBytes_enc {v : RlpValue} (hv : v.Fits) : DecodeBytes v.enc = .ok v := by
  obtain ⟨s', hdec, hr, -, -⟩ := decodeInterface_complete (v.enc.length + 1) v
    (s := Stream.reset v.enc v.enc.length) hv (by omega) rfl
    (by simp [Stream.reset] : (Stream.reset v.enc v.enc.length).r = v.enc ++ []) (room_reset _)
  unfold DecodeBytes
  rw [Stream.Decode, adaptExcept_of_ok _ hdec]
  simp [hr]

/-- Every value `DecodeBytes` accepts was read from its canonical encoding, which is all of the
input. -/
theorem enc_of_decodeBytes {b : Bytes} {v : RlpValue} (h : DecodeBytes b = .ok v) :
    v.Fits ∧ v.enc = b := by
  unfold DecodeBytes at h
  split at h
  · rename_i v' s' hdec
    split at h
    · cases h
    · rename_i hlen
      cases h
      obtain ⟨hf, hr, -, -⟩ := decodeInterface_sound _ rfl ((adaptExcept_eq_ok _).mp hdec)
      have hnil : s'.r = [] := List.eq_nil_of_length_eq_zero (by omega)
      refine ⟨hf, ?_⟩
      simpa [Stream.reset, hnil] using hr.symm
  · cases h

/-- Encoding any value and decoding the bytes gives the value back. -/
theorem decodeBytes_encodeToBytes {v : RlpValue} (hv : v.Fits) :
    DecodeBytes (EncodeToBytes v) = .ok v := by
  rw [EncodeToBytes, toBytes_writeValue hv]
  exact decodeBytes_enc hv

theorem decodeBytes_encodeToBytes_nested :
    (RlpValue.list [.str [1, 2, 3], .list [], .str [0x80]]).Fits ∧
      DecodeBytes (EncodeToBytes (.list [.str [1, 2, 3], .list [], .str [0x80]])) =
        .ok (.list [.str [1, 2, 3], .list [], .str [0x80]]) :=
  have hv : (RlpValue.list [.str [1, 2, 3], .list [], .str [0x80]]).Fits := by
    simp [RlpValue.Fits, FitsList, encString, isByte, header]
  ⟨hv, decodeBytes_encodeToBytes hv⟩

/-- Decoding accepts only canonical encodings: re-encoding what it returns gives back its
input. -/
theorem encodeToBytes_decodeBytes {b : Bytes} {v : RlpValue} (h : DecodeBytes b = .ok v) :
    EncodeToBytes v = b := by
  obtain ⟨hf, henc⟩ := enc_of_decodeBytes h
  rw [EncodeToBytes, toBytes_writeValue hf, henc]

theorem encodeToBytes_decodeBytes_list :
    DecodeBytes [0xC3, 0x80, 0xC0, 0x01] = .ok (.list [.str [], .list [], .str [0x01]]) ∧
      EncodeToBytes (.list [.str [], .list [], .str [0x01]]) = [0xC3, 0x80, 0xC0, 0x01] :=
  have henc : (RlpValue.list [.str [], .list [], .str [0x01]]).enc = [0xC3, 0x80, 0xC0, 0x01] := by
    decide
  have hv : (RlpValue.list [.str [], .list [], .str [0x01]]).Fits := by
    simp [RlpValue.Fits, FitsList, encString, isByte, header]
  have h : DecodeBytes [0xC3, 0x80, 0xC0, 0x01] = .ok (.list [.str [], .list [], .str [0x01]]) := by
    rw [← henc]
    exact decodeBytes_enc hv
  ⟨h, encodeToBytes_decodeBytes h⟩

/-- A byte below `0x80` behind a string header is refused. -/
example : DecodeBytes [0x81, 0x05] = .error .canonSize := rfl

/-- A long header for a size below 56 is refused. -/
example : DecodeBytes (0xB8 :: 0x05 :: List.replicate 5 0x80) = .error .canonSize := rfl

example : DecodeBytes [0x01, 0x02] = .error .moreThanOneValue := rfl

end Ccmchain.Rlp
