import Ccmchain.Trie.Hasher
import Ccmchain.Rlp.Split

/-!
# Decoding stored nodes (`trie/node.go`)

`decodeNode` reads back a node from the bytes the hasher stores: a list of two values is a short
node, with its key in compact form, and a list of seventeen a full node. A child is either
embedded, a list under 32 bytes decoded in place, or referenced, the 32 bytes of a hash; the
empty string is no child. The decoder recurses into embedded children, on input that gets
shorter at every level, so it is total; and on everything `hashChildren` writes for the nodes of
a canonical trie it gives back the node, with the key in hex form again.
-/

namespace Ccmchain.Trie

open Rlp (RlpValue RlpError Kind Split SplitString SplitList CountValues)

/-- An error of `decodeNode`: an error where it arose, or a `decodeError` that carries the path it
was passed up along, innermost first. -/
inductive DecodeError where
  | plain (msg : String)
  | decodeError (what : String) (stack : List String)
  deriving DecidableEq, Repr

/-- `decodeError.Error`. -/
def DecodeError.message : DecodeError → String
  | .plain msg => msg
  | .decodeError what stack => what ++ " (decode path: " ++ String.intercalate "<-" stack ++ ")"

/-- `wrapError` on an error. -/
def wrapError (ctx : String) : DecodeError → DecodeError
  | .plain msg => .decodeError msg [ctx]
  | .decodeError what stack => .decodeError what (stack ++ [ctx])

/-- `hashLen`. -/
def hashLen : Nat := 32

set_option linter.unusedVariables false in
mutual

/-- `decodeNode`. `hash` goes to the node's cache flags, which the model's nodes do not carry.
The outer `Except` is a Go panic. -/
def decodeNode (hash buf : Bytes) : Except String (Except DecodeError Node) :=
  if buf.length = 0 then pure (.error (.plain "unexpected EOF"))
  else
    match h : SplitList buf with
    | .error e => .error e
    | .ok (_, _, some err) => pure (.error (.plain ("decode error: " ++ err.message)))
    | .ok (elems, _, none) => do
      let (c, _) ← CountValues elems
      if c = 2 then return (← decodeShort hash elems).mapError (wrapError "short")
      else if c = 17 then return (← decodeFull hash elems).mapError (wrapError "full")
      else pure (.error (.plain ("invalid number of list elements: " ++ toString c)))
termination_by (buf.length, 0)
decreasing_by
  all_goals exact Prod.Lex.left _ _ (Rlp.splitList_lt h)

/-- `decodeShort`. -/
def decodeShort (hash elems : Bytes) : Except String (Except DecodeError Node) :=
  match h : SplitString elems with
  | .error e => .error e
  | .ok (_, _, some err) => pure (.error (.plain err.message))
  | .ok (kbuf, rest, none) =>
    let key := compactToHex kbuf
    if hasTerm key then
      match SplitString rest with
      | .error e => .error e
      | .ok (_, _, some err) => pure (.error (.plain ("invalid value node: " ++ err.message)))
      | .ok (val, _, none) => pure (.ok (.short key (.value val)))
    else
      match decodeRef rest with
      | .error e => .error e
      | .ok (.error err) => pure (.error (wrapError "val" err))
      | .ok (.ok (r, _)) => pure (.ok (.short key r))
termination_by (elems.length, 2)
decreasing_by exact Prod.Lex.left _ _ (Rlp.splitString_rest_lt h)

/-- `decodeFull`: the sixteen references, then the value. -/
def decodeFull (hash elems : Bytes) : Except String (Except DecodeError Node) :=
  match decodeChildren 0 elems fun _ => .nil with
  | .error e => .error e
  | .ok (.error err) => pure (.error err)
  | .ok (.ok (children, elems)) =>
    match SplitString elems with
    | .error e => .error e
    | .ok (_, _, some err) => pure (.error (.plain err.message))
    | .ok (val, _, none) =>
      pure (.ok (.full (if val.length > 0 then Function.update children 16 (.value val)
        else children)))
termination_by (elems.length, 3)
decreasing_by exact Prod.Lex.right _ (by decide)

/-- The loop of `decodeFull` from child `i` on: the children and the input after them. -/
def decodeChildren (i : Nat) (elems : Bytes) (children : Fin 17 → Node) :
    Except String (Except DecodeError ((Fin 17 → Node) × Bytes)) :=
  if hi : i < 16 then
    match decodeRef elems with
    | .error e => .error e
    | .ok (.error err) => pure (.error (wrapError ("[" ++ toString i ++ "]") err))
    | .ok (.ok (cld, ⟨rest, _⟩)) =>
      decodeChildren (i + 1) rest (Function.update children ⟨i, by omega⟩ cld)
  else pure (.ok (children, elems))
termination_by (elems.length, 2)
decreasing_by
  · exact Prod.Lex.right _ (by decide)
  · exact Prod.Lex.left _ _ (by assumption)

/-- `decodeRef`: an embedded or hashed child, or none, and the input after it. The rest is
returned only with a child, since no caller reads it beside an error, and it is shorter than
the input, which the loop of `decodeFull` rests on. -/
def decodeRef (buf : Bytes) :
    Except String (Except DecodeError (Node × {rest : Bytes // rest.length < buf.length})) :=
  match h : Split buf with
  | .error e => .error e
  | .ok (_, _, _, some err) => pure (.error (.plain err.message))
  | .ok (kind, val, rest, none) =>
    if kind = .list then
      let size := buf.length - rest.length
      if size > hashLen then
        pure (.error (.plain ("oversized embedded node (size is " ++ toString size ++
          " bytes, want size < " ++ toString hashLen ++ ")")))
      else
        match decodeNode [] buf with
        | .error e => .error e
        | .ok (.error err) => pure (.error err)
        | .ok (.ok n) => pure (.ok (n, ⟨rest, (Rlp.split_eq_ok_none h).1⟩))
    else if kind = .string ∧ val.length = 0 then pure (.ok (.nil, ⟨rest, (Rlp.split_eq_ok_none h).1⟩))
    else if kind = .string ∧ val.length = 32 then
      pure (.ok (.hash val, ⟨rest, (Rlp.split_eq_ok_none h).1⟩))
    else
      pure (.error (.plain ("invalid RLP string size " ++ toString val.length ++ " (want 0 or 32)")))
termination_by (buf.length, 1)
decreasing_by exact Prod.Lex.right _ (by decide)

end

end Ccmchain.Trie

namespace Ccmchain.Trie

open Rlp (RlpValue RlpError Kind Split SplitString SplitList CountValues split_ok splitString_ok
  splitList_ok splitList_lt splitString_rest_lt countValues_ok)

theorem decodeChildren_rest_le {i : Nat} {elems : Bytes} {children cs : Fin 17 → Node} {rest : Bytes}
    (h : decodeChildren i elems children = .ok (.ok (cs, rest))) : rest.length ≤ elems.length := by
  unfold decodeChildren at h
  split_ifs at h with hi
  · split at h
    · cases h
    · cases h
    · rename_i cld rest' hrest _
      have := decodeChildren_rest_le h
      omega
  · cases h
    exact le_rfl
termination_by 16 - i


section NoPanic

/-! The decoder's own recursion, run as an induction: each lemma below assumes that
`decodeNode` does not panic on inputs up to the length it may pass on, and `decodeNode_ok`
discharges that by induction on the length. -/

variable {m : Nat} (ih : ∀ hash b, b.length ≤ m → ∃ r, decodeNode hash b = .ok r)
include ih

theorem decodeRef_ok {buf : Bytes} (hb : buf.length < 2 ^ 63) (hm : buf.length ≤ m) :
    ∃ r, decodeRef buf = .ok r := by
  obtain ⟨v, hs⟩ := split_ok hb
  unfold decodeRef
  split
  · rename_i e he
    rw [hs] at he
    cases he
  · exact ⟨_, rfl⟩
  · split_ifs with hk
    · dsimp only
      split_ifs
      · exact ⟨_, rfl⟩
      · obtain ⟨r, hr⟩ := ih [] buf hm
        split
        · rename_i e he
          rw [hr] at he
          cases he
        all_goals exact ⟨_, rfl⟩
    all_goals exact ⟨_, rfl⟩

theorem decodeChildren_ok (i : Nat) (elems : Bytes) (children : Fin 17 → Node)
    (hb : elems.length < 2 ^ 63) (hm : elems.length ≤ m) :
    ∃ r, decodeChildren i elems children = .ok r := by
  unfold decodeChildren
  split_ifs with hi
  · obtain ⟨r, hr⟩ := decodeRef_ok ih hb hm
    split
    · rename_i e he
      rw [hr] at he
      cases he
    · exact ⟨_, rfl⟩
    · rename_i cld rest hrest _
      exact decodeChildren_ok (i + 1) rest _ (by omega) (by omega)
  · exact ⟨_, rfl⟩
termination_by 16 - i

theorem decodeShort_ok (hash elems : Bytes) (hb : elems.length < 2 ^ 63) (hm : elems.length ≤ m) :
    ∃ r, decodeShort hash elems = .ok r := by
  obtain ⟨v, hs⟩ := splitString_ok hb
  unfold decodeShort
  split
  · rename_i e he
    rw [hs] at he
    cases he
  · exact ⟨_, rfl⟩
  · rename_i kbuf rest he
    have hlt := splitString_rest_lt he
    dsimp only
    split_ifs
    · obtain ⟨v', hs'⟩ := splitString_ok (b := rest) (by omega)
      split
      · rename_i e he'
        rw [hs'] at he'
        cases he'
      all_goals exact ⟨_, rfl⟩
    · obtain ⟨r, hr⟩ := decodeRef_ok ih (show rest.length < 2 ^ 63 by omega) (by omega)
      split
      · rename_i e he'
        rw [hr] at he'
        cases he'
      all_goals exact ⟨_, rfl⟩

theorem decodeFull_ok (hash elems : Bytes) (hb : elems.length < 2 ^ 63) (hm : elems.length ≤ m) :
    ∃ r, decodeFull hash elems = .ok r := by
  obtain ⟨r, hr⟩ := decodeChildren_ok ih 0 elems (fun _ => .nil) hb hm
  unfold decodeFull
  split
  · rename_i e he
    rw [hr] at he
    cases he
  · exact ⟨_, rfl⟩
  · rename_i children rest he
    have := decodeChildren_rest_le he
    obtain ⟨v, hs⟩ := splitString_ok (b := rest) (by omega)
    split
    · rename_i e he'
      rw [hs] at he'
      cases he'
    all_goals exact ⟨_, rfl⟩

end NoPanic

theorem decodeNode_ok (hash buf : Bytes) (hb : buf.length < 2 ^ 63) :
    ∃ r, decodeNode hash buf = .ok r := by
  unfold decodeNode
  split_ifs with h0
  · exact ⟨_, rfl⟩
  · obtain ⟨v, hs⟩ := splitList_ok hb
    split
    · rename_i e he
      rw [hs] at he
      cases he
    · exact ⟨_, rfl⟩
    · rename_i elems _ he
      have hlt := splitList_lt he
      have ih : ∀ hash b, b.length ≤ elems.length → ∃ r, decodeNode hash b = .ok r :=
        fun hash b hle => decodeNode_ok hash b (by omega)
      obtain ⟨⟨c, err⟩, hc⟩ := countValues_ok elems 0 (by omega)
      simp only [CountValues, hc, bind, Except.bind]
      split_ifs
      · obtain ⟨r, hr⟩ := decodeShort_ok ih hash elems (by omega) le_rfl
        exact ⟨_, by rw [hr]; rfl⟩
      · obtain ⟨r, hr⟩ := decodeFull_ok ih hash elems (by omega) le_rfl
        exact ⟨_, by rw [hr]; rfl⟩
      · exact ⟨_, rfl⟩
termination_by buf.length

/-! ### The decoder on well-formed input

One lemma per function of the decoder: what it returns when the readers it calls accept. -/

theorem decodeRef_string {buf val rest : Bytes} (h : Split buf = .ok (.string, val, rest, none))
    (hv : val.length = 0 ∨ val.length = 32) :
    ∃ hr, decodeRef buf = .ok (.ok (if val.length = 0 then .nil else .hash val, ⟨rest, hr⟩)) := by
  refine ⟨(Rlp.split_eq_ok_none h).1, ?_⟩
  unfold decodeRef
  split
  · rename_i e he
    rw [h] at he
    cases he
  · rename_i k v r err he
    rw [h] at he
    cases he
  · rename_i k v r he
    rw [h] at he
    cases he
    rcases hv with hv | hv <;> simp [hv]

theorem decodeRef_list {buf content rest : Bytes} {n : Node} (h : Split buf = .ok (.list, content, rest, none))
    (hs : buf.length - rest.length ≤ hashLen) (hn : decodeNode [] buf = .ok (.ok n)) :
    ∃ hr, decodeRef buf = .ok (.ok (n, ⟨rest, hr⟩)) := by
  refine ⟨(Rlp.split_eq_ok_none h).1, ?_⟩
  unfold decodeRef
  split
  · rename_i e he
    rw [h] at he
    cases he
  · rename_i k v r err he
    rw [h] at he
    cases he
  · rename_i k v r he
    rw [h] at he
    cases he
    simp only [if_true]
    rw [if_neg (by omega)]
    split
    · rename_i e he
      rw [hn] at he
      cases he
    · rename_i e he
      rw [hn] at he
      cases he
    · rename_i n' he
      rw [hn] at he
      cases he
      rfl

theorem decodeChildren_succ {i : Nat} (hi : i < 16) {elems rest : Bytes} {cld : Node}
    {hr : rest.length < elems.length} (h : decodeRef elems = .ok (.ok (cld, ⟨rest, hr⟩)))
    (children : Fin 17 → Node) :
    decodeChildren i elems children = decodeChildren (i + 1) rest (Function.update children ⟨i, by omega⟩ cld) := by
  rw [decodeChildren, dif_pos hi]
  split
  · rename_i e he
    rw [h] at he
    cases he
  · rename_i e he
    rw [h] at he
    cases he
  · rename_i c r _ he
    rw [h] at he
    cases he
    rfl

theorem decodeFull_eq {hash elems rest val r : Bytes} {children : Fin 17 → Node}
    (h : decodeChildren 0 elems (fun _ => .nil) = .ok (.ok (children, rest)))
    (hv : SplitString rest = .ok (val, r, none)) :
    decodeFull hash elems =
      .ok (.ok (.full (if val.length > 0 then Function.update children 16 (.value val) else children))) := by
  unfold decodeFull
  rw [h]
  dsimp only
  rw [hv]
  rfl

theorem decodeShort_eq {hash elems kbuf rest : Bytes} (h : SplitString elems = .ok (kbuf, rest, none)) :
    decodeShort hash elems =
      if hasTerm (compactToHex kbuf) then
        match SplitString rest with
        | .error e => .error e
        | .ok (_, _, some err) => pure (.error (.plain ("invalid value node: " ++ err.message)))
        | .ok (val, _, none) => pure (.ok (.short (compactToHex kbuf) (.value val)))
      else
        match decodeRef rest with
        | .error e => .error e
        | .ok (.error err) => pure (.error (wrapError "val" err))
        | .ok (.ok (r, _)) => pure (.ok (.short (compactToHex kbuf) r)) := by
  unfold decodeShort
  split
  · rename_i e he
    rw [h] at he
    cases he
  · rename_i k v err he
    rw [h] at he
    cases he
  · rename_i k v he
    rw [h] at he
    cases he
    rfl

theorem decodeNode_eq {hash buf elems rest : Bytes} (h : SplitList buf = .ok (elems, rest, none))
    {c : Nat} {err : Option RlpError} (hc : CountValues elems = .ok (c, err)) :
    decodeNode hash buf =
      if c = 2 then (decodeShort hash elems).map (Except.mapError (wrapError "short"))
      else if c = 17 then (decodeFull hash elems).map (Except.mapError (wrapError "full"))
      else pure (.error (.plain ("invalid number of list elements: " ++ toString c))) := by
  have hlt := Rlp.splitList_lt h
  unfold decodeNode
  rw [if_neg (by omega)]
  split
  · rename_i e he
    rw [h] at he
    cases he
  · rename_i k v err he
    rw [h] at he
    cases he
  · rename_i k v he
    rw [h] at he
    cases he
    simp only [hc, bind, Except.bind]
    split_ifs
    · cases decodeShort hash elems <;> rfl
    · cases decodeFull hash elems <;> rfl
    · rfl

theorem decodeShort_value {hash elems kbuf rest val r : Bytes} (h : SplitString elems = .ok (kbuf, rest, none))
    (ht : hasTerm (compactToHex kbuf) = true) (hv : SplitString rest = .ok (val, r, none)) :
    decodeShort hash elems = .ok (.ok (.short (compactToHex kbuf) (.value val))) := by
  rw [decodeShort_eq h, if_pos ht, hv]
  rfl

theorem decodeShort_ref {hash elems kbuf rest r : Bytes} (h : SplitString elems = .ok (kbuf, rest, none))
    (ht : hasTerm (compactToHex kbuf) = false) {c : Node} {hr : r.length < rest.length}
    (hc : decodeRef rest = .ok (.ok (c, ⟨r, hr⟩))) :
    decodeShort hash elems = .ok (.ok (.short (compactToHex kbuf) c)) := by
  rw [decodeShort_eq h, if_neg (by simp [ht]), hc]
  rfl

/-! ### Decoding what the hasher writes -/

theorem Terminated.hasTerm {k : List Nibble} (h : Terminated k) : hasTerm k = true := by
  obtain ⟨ks, rfl, -⟩ := h
  simp [Trie.hasTerm]

namespace Node

/-- `hasher.store` leaves `n` embedded in its parent: its encoding is shorter than a hash. -/
def Embeds (n : Node) : Prop := (Rlp.Encode n.toRlp).length < 32

/-- A child reference as `hashChildren` leaves it: the 32 bytes of a hash, or a node that
embeds, of which `collapsed` holds. -/
def CollapsedRef (collapsed : Prop) (n : Node) : Prop :=
  (∃ h, n = .hash h ∧ h.length = 32) ∨ (collapsed ∧ n.Embeds)

/-- A node as `hashChildren` hands it to the encoder: a leaf, whose key ends in the terminator;
an extension, whose key has none and whose child is a reference; or a full node with a
reference or nothing in each of its sixteen slots and a value, not empty, or nothing in the
last. -/
def Collapsed : Node → Prop
  | .short k v => (Terminated k ∧ v.isValue) ∨ (16 ∉ k ∧ CollapsedRef v.Collapsed v)
  | .full cs => (∀ i, i ≠ 16 → cs i = .nil ∨ CollapsedRef (cs i).Collapsed (cs i)) ∧
      (cs 16 = .nil ∨ ∃ v, cs 16 = .value v ∧ v ≠ [])
  | _ => False

theorem Collapsed.toRlp_list {n : Node} (h : n.Collapsed) : ∃ xs, n.toRlp = .list xs := by
  cases n with
  | short k v => exact ⟨_, rfl⟩
  | full cs => exact ⟨_, rfl⟩
  | _ => exact h.elim

end Node

open Rlp (encList splitString_enc splitList_enc countValues_encList split_enc_append
  fits_of_length_enc)

section RoundTrip

variable {x : Node} (ih : x.Collapsed → ∀ hash rest, (x.toRlp.enc ++ rest).length < 2 ^ 63 →
  decodeNode hash (x.toRlp.enc ++ rest) = .ok (.ok x))
include ih

theorem decodeRef_enc (hx : x.CollapsedRef x.Collapsed) (rest : Bytes)
    (hb : (x.toRlp.enc ++ rest).length < 2 ^ 63) :
    ∃ hr, decodeRef (x.toRlp.enc ++ rest) = .ok (.ok (x, ⟨rest, hr⟩)) := by
  have hfit := fits_of_length_enc x.toRlp (by simp at hb; omega)
  rcases hx with ⟨h, rfl, hl⟩ | ⟨hc, he⟩
  · -- a hash: a string of 32 bytes
    have hs := split_enc_append hfit rest hb
    have hk : (RlpValue.str h).kind = .string := by
      have hnb : ¬ Rlp.isByte h := fun hbyte => by
        have := Rlp.isByte_length hbyte
        omega
      simp [RlpValue.kind, hnb]
    simp only [Node.toRlp, hk, RlpValue.content] at hs
    obtain ⟨hr, hd⟩ := decodeRef_string hs (.inr hl)
    rw [if_neg (by omega)] at hd
    exact ⟨hr, hd⟩
  · -- an embedded node: a list, shorter than a hash
    obtain ⟨xs, hxs⟩ := hc.toRlp_list
    have hs := split_enc_append hfit rest hb
    have hk : x.toRlp.kind = .list := by
      rw [hxs]
      rfl
    rw [hk] at hs
    have hlen : (Rlp.Encode x.toRlp).length = x.toRlp.enc.length := by
      rw [Rlp.encode_eq_enc (by simp at hb; omega)]
    have hsize : (x.toRlp.enc ++ rest).length - rest.length ≤ hashLen := by
      simp only [Node.Embeds] at he
      simp only [List.length_append, hashLen]
      omega
    exact decodeRef_list hs hsize (ih hc [] rest hb)

/-- A slot of a full node: the empty string for no child, else the child's reference. -/
theorem decodeRef_slot (hx : x = .nil ∨ x.CollapsedRef x.Collapsed) (rest : Bytes)
    (hb : ((if x.isNil then RlpValue.str [] else x.toRlp).enc ++ rest).length < 2 ^ 63) :
    ∃ hr, decodeRef ((if x.isNil then RlpValue.str [] else x.toRlp).enc ++ rest) =
      .ok (.ok (x, ⟨rest, hr⟩)) := by
  rcases hx with rfl | hx
  · have hs := split_enc_append (v := .str []) (by simp [RlpValue.Fits]) rest hb
    obtain ⟨hr, hd⟩ := decodeRef_string hs (.inl rfl)
    exact ⟨hr, hd⟩
  · have hn : x.isNil = false := by
      rcases hx with ⟨h, rfl, -⟩ | ⟨hc, -⟩
      · rfl
      · cases x <;> first | rfl | exact hc.elim
    have he : (if x.isNil then RlpValue.str [] else x.toRlp) = x.toRlp := by simp [hn]
    rw [he] at hb ⊢
    exact decodeRef_enc ih hx rest hb

end RoundTrip

/-- The loop of `decodeFull` over the encodings of sixteen slots, from slot `i` on, each of
which `decodeRef` reads back. -/
theorem decodeChildren_ofFn (g : Fin 17 → RlpValue) (cs : Fin 17 → Node)
    (hg : ∀ j : Fin 17, j ≠ 16 → ∀ rest, ((g j).enc ++ rest).length < 2 ^ 63 →
      ∃ hr, decodeRef ((g j).enc ++ rest) = .ok (.ok (cs j, ⟨rest, hr⟩)))
    (i : Nat) (children : Fin 17 → Node) (hi : i ≤ 16)
    (hb : (encList ((List.ofFn g).drop i)).length < 2 ^ 63) :
    decodeChildren i (encList ((List.ofFn g).drop i)) children =
      .ok (.ok (fun j => if i ≤ j.val ∧ j ≠ 16 then cs j else children j, (g 16).enc)) := by
  rcases Nat.lt_or_ge i 16 with hlt | hge
  · have hd : (List.ofFn g).drop i = g ⟨i, by omega⟩ :: (List.ofFn g).drop (i + 1) := by
      rw [List.drop_eq_getElem_cons (by simp; omega), List.getElem_ofFn]
    rw [hd, Rlp.encList_cons] at hb ⊢
    have hne : (⟨i, by omega⟩ : Fin 17) ≠ 16 := by
      intro h
      have := congrArg Fin.val h
      simp at this
      omega
    obtain ⟨hr, hdec⟩ := hg ⟨i, by omega⟩ hne _ hb
    rw [decodeChildren_succ hlt hdec,
      decodeChildren_ofFn g cs hg (i + 1) _ (by omega) (by simp only [List.length_append] at hb; omega)]
    congr 3
    funext j
    by_cases hj : j.val = i
    · have : j = ⟨i, by omega⟩ := Fin.ext hj
      rw [this]
      simp [hne]
    · have : j ≠ ⟨i, by omega⟩ := fun h => hj (congrArg Fin.val h)
      simp only [Function.update_of_ne this]
      congr 1
      simp only [eq_iff_iff]
      omega
  · obtain rfl : i = 16 := by omega
    have hd : (List.ofFn g).drop 16 = [g 16] := by
      rw [List.drop_eq_getElem_cons (by simp), List.getElem_ofFn, List.drop_eq_nil_of_le (by simp)]
      rfl
    rw [hd, decodeChildren, dif_neg (by omega)]
    simp only [Rlp.encList_cons, Rlp.encList_nil, List.append_nil]
    congr 3
    funext j
    rw [if_neg]
    omega
termination_by 16 - i

theorem decodeNode_enc_short {k : List Nibble} {v : Node}
    (ih : v.Collapsed → ∀ hash rest, (v.toRlp.enc ++ rest).length < 2 ^ 63 →
      decodeNode hash (v.toRlp.enc ++ rest) = .ok (.ok v))
    (hn : (Node.short k v).Collapsed) (hash rest : Bytes)
    (hb : ((Node.short k v).toRlp.enc ++ rest).length < 2 ^ 63) :
    decodeNode hash ((Node.short k v).toRlp.enc ++ rest) = .ok (.ok (.short k v)) := by
  have htr : (Node.short k v).toRlp = .list [.str (hexToCompact k), v.toRlp] := rfl
  rw [htr] at hb ⊢
  have hsz : (RlpValue.str (hexToCompact k)).enc.length + v.toRlp.enc.length < 2 ^ 63 := by
    simp only [Rlp.enc_list, Rlp.encList_cons, Rlp.encList_nil, List.length_append] at hb
    omega
  have hpay : (encList [.str (hexToCompact k), v.toRlp]).length < 2 ^ 63 := by
    simp only [Rlp.encList_cons, Rlp.encList_nil, List.append_nil, List.length_append]
    omega
  have hfit := fits_of_length_enc (.list [.str (hexToCompact k), v.toRlp])
    (by simp only [List.length_append] at hb; omega)
  have hl := splitList_enc hfit rest hb
  have hc := countValues_encList _ hfit.2 hpay 0
  rw [decodeNode_eq hl hc, if_pos (by simp)]
  simp only [Rlp.encList_cons, Rlp.encList_nil]
  have hk := splitString_enc hfit.2.1 (v.toRlp.enc ++ [])
    (by simp only [List.append_nil, List.length_append]; omega)
  rcases hn with ⟨ht, hv⟩ | ⟨h16, hv⟩
  · -- a leaf: the value is read as a string
    have hkey := compactToHex_hexToCompact (.inl ht)
    obtain ⟨val, rfl⟩ := Node.isValue_iff.mp hv
    have hval := splitString_enc hfit.2.2.1 []
      (by simp only [Node.toRlp] at hsz; simp only [List.append_nil]; omega)
    rw [decodeShort_value hk (by rw [hkey]; exact ht.hasTerm) hval, hkey]
    rfl
  · -- an extension: the child is read as a reference
    have hkey := compactToHex_hexToCompact (.inr h16)
    obtain ⟨hr, hd⟩ := decodeRef_enc ih hv [] (by simp only [List.append_nil]; omega)
    rw [decodeShort_ref hk (by rw [hkey]; exact hasTerm_of_not_mem h16) hd, hkey]
    rfl

theorem decodeNode_enc_full {cs : Fin 17 → Node}
    (ih : ∀ i, (cs i).Collapsed → ∀ hash rest, ((cs i).toRlp.enc ++ rest).length < 2 ^ 63 →
      decodeNode hash ((cs i).toRlp.enc ++ rest) = .ok (.ok (cs i)))
    (hn : (Node.full cs).Collapsed) (hash rest : Bytes)
    (hb : ((Node.full cs).toRlp.enc ++ rest).length < 2 ^ 63) :
    decodeNode hash ((Node.full cs).toRlp.enc ++ rest) = .ok (.ok (.full cs)) := by
  obtain ⟨hslots, h16⟩ := hn
  let g : Fin 17 → RlpValue := fun i => if (cs i).isNil then .str [] else (cs i).toRlp
  have htr : (Node.full cs).toRlp = .list (List.ofFn g) := rfl
  rw [htr] at hb ⊢
  have hpay : (encList (List.ofFn g)).length < 2 ^ 63 := by
    simp only [Rlp.enc_list, List.length_append] at hb
    omega
  have hfit := fits_of_length_enc (.list (List.ofFn g)) (by simp only [List.length_append] at hb; omega)
  have hl := splitList_enc hfit rest hb
  have hc := countValues_encList _ hfit.2 hpay 0
  rw [decodeNode_eq hl hc, if_neg (by simp), if_pos (by simp)]
  have hch := decodeChildren_ofFn g cs (fun j hj rest hb => decodeRef_slot (ih j) (hslots j hj) rest hb)
    0 (fun _ => .nil) (by omega) (by simpa using hpay)
  rw [List.drop_zero] at hch
  have h16le := decodeChildren_rest_le hch
  rcases h16 with h16 | ⟨v, h16, hv⟩
  · -- no value: the empty string
    have hg : g 16 = .str [] := by simp [g, h16, Node.isNil]
    rw [hg] at hch
    have hs := splitString_enc (b := []) (by simp [RlpValue.Fits]) [] (by decide)
    rw [List.append_nil] at hs
    have hf : (fun j : Fin 17 => if 0 ≤ j.val ∧ j ≠ 16 then cs j else Node.nil) = cs := by
      funext j
      by_cases hj : j = 16
      · simp [hj, h16]
      · simp [hj]
    rw [decodeFull_eq hch hs, if_neg (by simp), hf]
    rfl
  · -- a value that is not empty
    have hg : g 16 = .str v := by simp [g, h16, Node.isNil, Node.toRlp]
    rw [hg] at hch h16le
    have hs := splitString_enc (b := v) (fits_of_length_enc _ (by omega)) [] (by simp only [List.append_nil]; omega)
    rw [List.append_nil] at hs
    have hf : Function.update (fun j : Fin 17 => if 0 ≤ j.val ∧ j ≠ 16 then cs j else Node.nil) 16
        (.value v) = cs := by
      funext j
      by_cases hj : j = 16
      · simp [hj, h16]
      · simp [hj]
    rw [decodeFull_eq hch hs, if_pos (List.length_pos_iff.mpr hv), hf]
    rfl

/-- `decodeNode` reads back every collapsed node from its encoding, whatever follows it. -/
theorem decodeNode_enc (n : Node) (hn : n.Collapsed) (hash rest : Bytes)
    (hb : (n.toRlp.enc ++ rest).length < 2 ^ 63) :
    decodeNode hash (n.toRlp.enc ++ rest) = .ok (.ok n) := by
  induction n generalizing hash rest with
  | short k v ih => exact decodeNode_enc_short ih hn hash rest hb
  | full cs ih => exact decodeNode_enc_full ih hn hash rest hb
  | nil | value _ | hash _ => exact hn.elim

/-! ### What `hashChildren` leaves -/

namespace Hasher

/-- `hasher.hashChildren` with no database: the node `store` is given, with the children of a
short or full node hashed with `force` unset, except a value. The compact key is written by
`toRlp`. -/
def hashChildren (keccak : Bytes → Bytes) : Node → Node
  | .short k v => .short k (if v.isValue then v else hash keccak v false)
  | .full cs => .full fun i => if i.val < 16 ∧ !(cs i).isNil then hash keccak (cs i) false else cs i
  | n => n

theorem hash_eq_store (keccak : Bytes → Bytes) (n : Node) (force : Bool) :
    hash keccak n force = store keccak (hashChildren keccak n) force := by
  cases n <;> rfl

end Hasher

namespace Node

/-- No key of `n` holds the empty value: writing an empty value deletes the key. -/
def NoEmptyValue (n : Node) : Prop := ∀ r, n.lookup r ≠ some []

theorem NoEmptyValue.short {k : List Nibble} {c : Node} (h : (Node.short k c).NoEmptyValue) :
    c.NoEmptyValue := fun r => by simpa using h (k ++ r)

theorem NoEmptyValue.full {cs : Fin 17 → Node} (h : (Node.full cs).NoEmptyValue) (i : Nibble) :
    (cs i).NoEmptyValue := fun r => by simpa using h (i :: r)

end Node

section Collapse

open Hasher

variable {keccak : Bytes → Bytes} (hk : ∀ b, (keccak b).length = 32)
include hk

/-- `store` with `force` unset turns a collapsed node into a reference. -/
theorem store_collapsedRef {n : Node} (hn : n.Collapsed) :
    (store keccak n false).CollapsedRef (store keccak n false).Collapsed := by
  cases n with
  | short k v | full cs =>
    unfold store
    dsimp only
    split_ifs with h
    · exact .inr ⟨hn, h.1⟩
    · exact .inl ⟨_, rfl, hk _⟩
  | _ => exact hn.elim

/-- `hashChildren` collapses every canonical node that holds no empty value. -/
theorem collapsed_hashChildren (n : Node) (hc : n.Canon) (he : n.NoEmptyValue) :
    (hashChildren keccak n).Collapsed := by
  induction n with
  | nil | value _ | hash _ => exact hc.elim
  | short k c ih =>
    obtain ⟨-, ⟨ht, hv⟩ | ⟨h16, hf, hcc⟩⟩ := hc
    · -- a leaf keeps its value
      refine .inl ⟨ht, ?_⟩
      simp [hv]
    · -- an extension's child, a full node, becomes a reference
      have hv : c.isValue = false := by
        obtain ⟨cs, rfl⟩ := Node.isFull_iff.mp hf
        rfl
      have href := store_collapsedRef hk (ih hcc he.short)
      rw [← hash_eq_store] at href
      simp only [hashChildren, hv, Bool.false_eq_true, if_false]
      exact .inr ⟨h16, href⟩
  | full cs ih =>
    obtain ⟨h16, hslots, -⟩ := hc
    refine ⟨fun i hi => ?_, ?_⟩
    · have hlt : i.val < 16 := by
        have := i.isLt
        have : i.val ≠ 16 := fun h => hi (Fin.ext h)
        omega
      rcases hslots i hi with hnil | hci
      · left
        simp [hnil, Node.isNil]
      · have hn : (cs i).isNil = false :=
          Bool.eq_false_iff.mpr fun h => hci.ne_nil ((Node.isNil_iff _).mp h)
        have href := store_collapsedRef hk (ih i hci (he.full i))
        rw [← hash_eq_store] at href
        simp only [hlt, hn, Bool.not_false, and_self, if_true]
        exact .inr href
    · -- the value slot is left as it is, and its value is not empty
      simp only [show ¬ ((16 : Nibble).val < 16) by decide, false_and, if_false]
      rcases h16 with hv | hnil
      · obtain ⟨v, hv⟩ := Node.isValue_iff.mp hv
        refine .inr ⟨v, hv, fun h => he [16] ?_⟩
        simp [hv, h]
      · exact .inl hnil

/-- The reference `hash` leaves for a canonical child. -/
theorem hash_collapsedRef {n : Node} (hc : n.Canon) (he : n.NoEmptyValue) :
    (hash keccak n false).CollapsedRef (hash keccak n false).Collapsed := by
  rw [hash_eq_store]
  exact store_collapsedRef hk (collapsed_hashChildren hk n hc he)

end Collapse

/-! ### The nodes of a trie -/

/-- The reference map never holds the empty value. -/
theorem foldl_refApply_ne_empty (ops : List Op) :
    ∀ m : Bytes → Option Bytes, (∀ key, m key ≠ some []) → ∀ key, ops.foldl refApply m key ≠ some [] := by
  induction ops with
  | nil => exact fun m hm => hm
  | cons op ops ih =>
    intro m hm
    refine ih _ fun key => ?_
    cases op with
    | update k v =>
      by_cases hkey : key = k
      · subst hkey
        by_cases hv : v.length ≠ 0
        · simp only [refApply, Function.update_self, if_pos hv, ne_eq, Option.some.injEq]
          exact fun h => hv (by simp [h])
        · simp [refApply, hv]
      · simp only [refApply, Function.update_of_ne hkey]
        exact hm key
    | delete k =>
      by_cases hkey : key = k
      · simp [refApply, hkey]
      · simp only [refApply, Function.update_of_ne hkey]
        exact hm key

/-- The root of every trie built from the empty one is empty, or canonical and holding no empty
value: the nodes `hash` passes to `hashChildren` are such nodes. -/
theorem root_of_applyAll {ops : List Op} {t : Trie} (h : emptyTrie.applyAll ops = .ok t) :
    t.root = .nil ∨ (t.root.Canon ∧ t.root.NoEmptyValue) := by
  obtain ⟨t', hrun, hh⟩ := emptyTrie_holds.applyAll ops
  rw [h] at hrun
  cases hrun
  have hc := emptyTrie_canonical.applyAll h
  refine hc.root.imp_right fun hcanon => ⟨hcanon, fun r hr => ?_⟩
  obtain ⟨key, rfl⟩ := hc.hex r (by rw [hr]; simp)
  have hkey := congrFun hh.lookup key
  simp only [Function.comp_apply] at hkey
  rw [hkey] at hr
  exact foldl_refApply_ne_empty ops _ (fun _ => by simp) key hr

/-- `decodeNode` reads back a collapsed node from what `rlp.Encode` writes for it. -/
theorem decodeNode_encode {n : Node} (hn : n.Collapsed) (hb : n.toRlp.enc.length < 2 ^ 63)
    (hash : Bytes) : decodeNode hash (Rlp.Encode n.toRlp) = .ok (.ok n) := by
  rw [Rlp.encode_eq_enc (by omega)]
  simpa using decodeNode_enc n hn hash [] (by simpa using hb)

theorem decodeNode_total_inverts_encoding :
    (∀ hash buf : Bytes, buf.length < 2 ^ 63 → ∃ r, decodeNode hash buf = .ok r) ∧
    (∀ n : Node, n.Collapsed → n.toRlp.enc.length < 2 ^ 63 →
      ∀ hash, decodeNode hash (Rlp.Encode n.toRlp) = .ok (.ok n)) ∧
    (∀ keccak : Bytes → Bytes, (∀ b, (keccak b).length = 32) →
      ∀ n : Node, n.Canon → n.NoEmptyValue → (Hasher.hashChildren keccak n).toRlp.enc.length < 2 ^ 63 →
        ∀ hash, decodeNode hash (Rlp.Encode (Hasher.hashChildren keccak n).toRlp) =
          .ok (.ok (Hasher.hashChildren keccak n))) ∧
    (∀ (ops : List Op) (t : Trie), emptyTrie.applyAll ops = .ok t →
      t.root = .nil ∨ (t.root.Canon ∧ t.root.NoEmptyValue)) :=
  ⟨decodeNode_ok, fun _ hn hb hash => decodeNode_encode hn hb hash,
    fun _ hk n hc he hb hash => decodeNode_encode (collapsed_hashChildren hk n hc he) hb hash,
    fun _ _ h => root_of_applyAll h⟩

end Ccmchain.Trie
