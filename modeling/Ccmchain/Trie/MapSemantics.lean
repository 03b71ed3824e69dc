import Ccmchain.Trie.Lookup
import Ccmchain.Lib.Except

/-!
# The trie is a map

On a `Good` node, `tryGet` answers with `Node.lookup`, `insert` of a value updates the map at
one key and `delete` removes one key, and each keeps the node `Good`. `applyAll_tryGet` puts
the three together over any sequence of `TryUpdate` and `TryDelete` from the empty trie, as
`runRandTest` in `trie/trie_test.go` checks them against a Go map.

Every statement holds for any `again`: a `Good` node has no `hashNode`, so a walk over it
never reaches the point where a resolved node would be handed on.
-/

namespace Ccmchain.Trie

open PrefixMap Trie Node

/-- The test of `tryGet` on a short node fails exactly when the key is not below it. -/
theorem short_mismatch_iff (k r : List Nibble) :
    (r.length < k.length ∨ k ≠ r.take k.length) ↔ ¬ k <+: r := by
  rw [List.prefix_iff_eq_take]
  constructor
  · rintro (h | h) he
    · have hl := congrArg List.length he
      simp only [List.length_take] at hl
      omega
    · exact h he
  · exact Or.inr

/-- Below a terminated key sits exactly one entry when the short node is a leaf. -/
theorem drop_eq_nil_of_leaf {k s : List Nibble} (hk : Terminated k) (hks : Terminated (k ++ s)) :
    s = [] := by
  have := hk.eq_of_prefix hks (List.prefix_append k s)
  simpa using this

section Walk

variable (t : Trie)

theorem tryGet_good (again : Node → List Nibble → Nat → Except TrieError GetResult) :
    ∀ (n : Node), n.Good → ∀ key pos, Terminated (key.drop pos) →
      t.tryGet again n key pos = .ok (n.lookup (key.drop pos), n, false) := by
  intro n
  induction n with
  | nil =>
    intro _ key pos _
    simp [tryGet]
  | value v => intro h; exact h.elim
  | hash h => intro hg; exact hg.elim
  | short k c ih =>
    intro hg key pos hkey
    have hmis := short_mismatch_iff k (key.drop pos)
    rw [List.length_drop] at hmis
    by_cases hp : k <+: key.drop pos
    · obtain ⟨s, hs⟩ := hp
      have hrest : key.drop (pos + k.length) = s := by
        rw [← List.drop_drop, ← hs, List.drop_left]
      have hcond : ¬ (key.length - pos < k.length ∨ k ≠ (key.drop pos).take k.length) := by
        rw [hmis, not_not, ← hs]
        exact List.prefix_append k s
      rw [← hs] at hkey
      rcases hg.2 with ⟨hleaf, hv⟩ | ⟨hnt, hgc⟩
      · obtain ⟨v, rfl⟩ := isValue_iff.mp hv
        have hs0 : s = [] := drop_eq_nil_of_leaf hleaf hkey
        subst hs0
        rw [tryGet, if_neg hcond, ← hs, List.append_nil]
        simp [tryGet]
      · have hc := ih hgc key (pos + k.length) (by rw [hrest]; exact hkey.append_right hnt)
        rw [tryGet, if_neg hcond, hc, hrest, ← hs]
        simp
    · have hcond : key.length - pos < k.length ∨ k ≠ (key.drop pos).take k.length := hmis.mpr hp
      simp [tryGet, hcond, under_eq_none hp]
  | full cs ih =>
    intro hg key pos hkey
    obtain ⟨i, s, hs⟩ : ∃ i s, key.drop pos = i :: s := by
      cases h : key.drop pos with
      | nil => exact absurd h hkey.ne_nil
      | cons i s => exact ⟨i, s, rfl⟩
    have hi : key[pos]? = some i := by
      rw [← List.head?_drop, hs]
      rfl
    have hrest : key.drop (pos + 1) = s := by
      rw [← List.drop_drop, hs]
      rfl
    rw [hs] at hkey
    by_cases h16 : i = 16
    · subst h16
      have hs0 : s = [] := by
        rcases terminated_cons.mp hkey with ⟨-, h⟩ | ⟨h, -⟩
        · exact h
        · exact absurd rfl h
      subst hs0
      rcases hg.1 with hv | hnil
      · obtain ⟨v, hcv⟩ := isValue_iff.mp hv
        rw [tryGet, hi, hs]
        simp [tryGet, hcv]
      · rw [tryGet, hi, hs]
        simp [tryGet, hnil]
    · have hsk : Terminated s := by
        rcases terminated_cons.mp hkey with ⟨h, -⟩ | ⟨-, h⟩
        · exact absurd h h16
        · exact h
      have hc := ih i (hg.2 i h16) key (pos + 1) (by rw [hrest]; exact hsk)
      simp only [tryGet, hi]
      rw [hc, hrest, hs]
      simp

end Walk

/-! ### The slots of a full node and the branch of `insert` -/

namespace Node

/-- What `Good` asks of the child in slot `i` of a full node. -/
def SlotGood (i : Nibble) (n : Node) : Prop :=
  if i = 16 then n.isValue ∨ n = .nil else n.Good

theorem good_full_iff_slots {cs : Fin 17 → Node} : Good (.full cs) ↔ ∀ i, SlotGood i (cs i) := by
  constructor
  · rintro ⟨h16, hi⟩ i
    by_cases h : i = 16
    · subst h
      simpa [SlotGood] using h16
    · simpa [SlotGood, h] using hi i h
  · intro h
    exact ⟨by simpa [SlotGood] using h 16, fun i hi => by simpa [SlotGood, hi] using h i⟩

theorem slotGood_nil (i : Nibble) : SlotGood i .nil := by
  unfold SlotGood
  split <;> simp

theorem good_full_nil : Good (.full fun _ => .nil) :=
  good_full_iff_slots.mpr fun i => slotGood_nil i

/-- Replacing one child by a child fit for its slot keeps a full node `Good`. -/
theorem Good.update {cs : Fin 17 → Node} (h : Good (.full cs)) {i : Nibble} {x : Node}
    (hx : SlotGood i x) : Good (.full (Function.update cs i x)) := by
  rw [good_full_iff_slots] at h ⊢
  intro j
  by_cases hj : j = i
  · subst hj
    simpa using hx
  · rw [Function.update_of_ne hj]
    exact h j

end Node

/-- A value placed by `insertNil` below nibble `i` of a terminated key fits slot `i`. -/
theorem slotGood_insertNil_value {i : Nibble} {r : List Nibble} (h : Terminated (i :: r))
    {w : Node} (hw : w.isValue) : SlotGood i (insertNil r w) := by
  rcases terminated_cons.mp h with ⟨rfl, rfl⟩ | ⟨hi, hr⟩
  · simp [SlotGood, insertNil, hw]
  · obtain ⟨v, rfl⟩ := isValue_iff.mp hw
    simp only [SlotGood, hi, ↓reduceIte, insertNil, hr.ne_nil]
    exact good_leaf hr v

/-- The rest of a `Good` short node's key after nibble `a`, with its child, fits slot `a`. -/
theorem slotGood_insertNil_of_short {p r : List Nibble} {a : Nibble} {c : Node}
    (h : Good (.short (p ++ a :: r) c)) : SlotGood a (insertNil r c) := by
  rcases h.2 with ⟨hk, hv⟩ | ⟨hn, hc⟩
  · exact slotGood_insertNil_value (hk.append_right (hk.not_mem_of_append (List.cons_ne_nil a r))) hv
  · have ha : a ≠ 16 := by
      rintro rfl
      exact hn (by simp)
    have hr : 16 ∉ r := fun h => hn (by simp [h])
    simp only [SlotGood, ha, ↓reduceIte]
    unfold insertNil
    split
    · exact hc
    · exact ⟨‹_›, Or.inr ⟨hr, hc⟩⟩

/-- The full node `insert` builds where two keys part: `c` below `a :: ka`, `w` below `b :: kb`. -/
def branchNode (a : Nibble) (ka : List Nibble) (c : Node) (b : Nibble) (kb : List Nibble)
    (w : Node) : Node :=
  .full (Function.update (Function.update (fun _ => .nil) a (insertNil ka c)) b (insertNil kb w))

theorem lookup_branchNode {a b : Nibble} (hab : a ≠ b) (ka kb : List Nibble) (c : Node) (v : Bytes) :
    (branchNode a ka c b kb (.value v)).lookup =
      Function.update (under (a :: ka) c.lookup) (b :: kb) (some v) := by
  funext r
  cases r with
  | nil => simp [branchNode]
  | cons i s =>
    simp only [branchNode, lookup_full, branch_cons]
    by_cases hib : i = b
    · subst hib
      rw [Function.update_self, lookup_insertNil, lookup_value, under_single]
      by_cases hs : s = kb
      · subst hs
        simp
      · simp [hs, under_cons_cons, hab]
    · have hne : i :: s ≠ b :: kb := fun h => hib (List.cons.inj h).1
      rw [Function.update_of_ne hib, Function.update_of_ne hne]
      by_cases hia : i = a
      · subst hia
        simp [under_cons_cons]
      · rw [Function.update_of_ne hia]
        simp [under_cons_cons, Ne.symm hia]

theorem good_branchNode {p ka kb : List Nibble} {a b : Nibble} {c : Node} (v : Bytes)
    (hs : Good (.short (p ++ a :: ka) c)) (hk : Terminated (p ++ b :: kb)) :
    Good (branchNode a ka c b kb (.value v)) := by
  have hb : Terminated (b :: kb) := hk.append_right (hk.not_mem_of_append (List.cons_ne_nil b kb))
  exact (good_full_nil.update (slotGood_insertNil_of_short hs)).update
    (slotGood_insertNil_value hb rfl)

/-- A clean result hands back the old node, so both arms of the dirty test agree. -/
theorem dirty_select {d : Bool} {old new : Node} (h : d = false → new = old) (f : Node → Node) :
    (if !d then (pure (false, f old) : Except TrieError (Bool × Node)) else pure (true, f new)) =
      .ok (d, f new) := by
  cases d
  · simp [h rfl]
  · rfl

/-- Where a key leaves a `Good` short node, both keys go on: the short node's key cannot end
inside the inserted one, since a terminated key is never a prefix of another key. -/
theorem prefixLen_lt_key {k c} (hg : Good (.short k c)) {key : List Nibble} (hkey : Terminated key)
    (hm : prefixLen key k ≠ k.length) : prefixLen key k < key.length := by
  rcases Nat.lt_or_ge (prefixLen key k) key.length with h | h
  · exact h
  · have he : prefixLen key k = key.length := le_antisymm (prefixLen_le_left key k) h
    have hp : key <+: k := (prefixLen_eq_length_iff key k).mp he
    exfalso
    rcases hg.2 with ⟨hk, -⟩ | ⟨hn, -⟩
    · rw [hkey.eq_of_prefix hk hp] at he hm
      exact hm he
    · exact hn (hp.subset hkey.mem)

/-- Replacing child `i` of a full node by one that updates its map at `rest` updates the
full node's map at `i :: rest`. -/
theorem lookup_full_update {cs : Fin 17 → Node} {i : Nibble} {rest : List Nibble} {nn : Node}
    {x : Option Bytes} (h : nn.lookup = Function.update (cs i).lookup rest x) :
    (Node.full (Function.update cs i nn)).lookup = Function.update (Node.full cs).lookup (i :: rest) x := by
  rw [lookup_full, lookup_full, branch_update, ← h]
  congr 1
  funext j
  by_cases hj : j = i
  · subst hj
    simp
  · simp [Function.update_of_ne hj]

theorem Terminated.append_left {p k : List Nibble} (hp : 16 ∉ p) (hk : Terminated k) :
    Terminated (p ++ k) := by
  obtain ⟨ks, rfl, hks⟩ := hk
  refine ⟨p ++ ks, by simp, ?_⟩
  simp [hp, hks]

/-- The merge of `delete`: a short node over a `Good` short node, below a key without the
terminator, is one `Good` short node. -/
theorem good_short_append {p ck : List Nibble} {cv : Node} (hp : 16 ∉ p) (h : Good (.short ck cv)) :
    Good (.short (p ++ ck) cv) := by
  refine ⟨by simp [h.1], ?_⟩
  rcases h.2 with ⟨hk, hv⟩ | ⟨hn, hc⟩
  · exact Or.inl ⟨hk.append_left hp, hv⟩
  · exact Or.inr ⟨by simp [hp, hn], hc⟩

section Walk

variable (t : Trie)

/-- A `Good` node is never a hash node, so resolving it hands it back. -/
theorem resolve_of_good {n : Node} (h : n.Good) (pfx : List Nibble) : t.resolve n pfx = .ok n := by
  cases n
  case hash => exact h.elim
  all_goals rfl

/-- Where a key leaves a `Good` short node's key, both go on past the common part, with
different nibbles. -/
theorem short_parts {k : List Nibble} {c : Node} (hg : Good (.short k c)) {key : List Nibble}
    (hkey : Terminated key) (hm : prefixLen key k ≠ k.length) :
    ∃ a b, k[prefixLen key k]? = some a ∧ key[prefixLen key k]? = some b ∧ a ≠ b ∧
      k = key.take (prefixLen key k) ++ a :: k.drop (prefixLen key k + 1) ∧
      key = key.take (prefixLen key k) ++ b :: key.drop (prefixLen key k + 1) := by
  set m := prefixLen key k with hmdef
  have hmk : m < k.length := lt_of_le_of_ne (prefixLen_le_right key k) hm
  have hmkey : m < key.length := prefixLen_lt_key hg hkey hm
  have htake : key.take m = k.take m := take_prefixLen key k
  refine ⟨k[m], key[m], List.getElem?_eq_getElem hmk, List.getElem?_eq_getElem hmkey,
    (getElem_prefixLen_ne key k hmkey hmk).symm, ?_, ?_⟩
  · rw [htake, ← List.drop_eq_getElem_cons hmk, List.take_append_drop]
  · rw [← List.drop_eq_getElem_cons hmkey, List.take_append_drop]

/-- The short node `insert` puts above the branch, when the keys share a part. -/
theorem lookup_branch_above (m : Nat) (key : List Nibble) (B : Node) :
    (if m = 0 then B else .short (key.take m) B).lookup = under (key.take m) B.lookup := by
  split
  · rename_i h0
    simp [h0]
  · rfl

/-- The branch case of `insert` on a `Good` short node. -/
theorem insert_branch_good {k : List Nibble} {c : Node} (hg : Good (.short k c))
    {key : List Nibble} (hkey : Terminated key) (hm : prefixLen key k ≠ k.length) (v : Bytes) :
    ∃ a b, k[prefixLen key k]? = some a ∧ key[prefixLen key k]? = some b ∧
      let B := branchNode a (k.drop (prefixLen key k + 1)) c b
        (key.drop (prefixLen key k + 1)) (.value v)
      let n' := if prefixLen key k = 0 then B else .short (key.take (prefixLen key k)) B
      n'.Good ∧ n'.lookup = Function.update (under k c.lookup) key (some v) := by
  obtain ⟨a, b, ha, hb, hab, hk, hkey'⟩ := short_parts hg hkey hm
  set m := prefixLen key k with hmdef
  refine ⟨a, b, ha, hb, ?_⟩
  have hB := good_branchNode v (by rw [← hk]; exact hg) (by rw [← hkey']; exact hkey)
  refine ⟨?_, ?_⟩
  · split
    · exact hB
    · rename_i h0
      have hne : key.take m ≠ [] := by
        intro h
        have := congrArg List.length h
        have hmkey : m < key.length := prefixLen_lt_key hg hkey hm
        simp only [List.length_take, List.length_nil] at this
        omega
      have hnt : 16 ∉ key.take m := by
        rw [hkey'] at hkey
        exact hkey.not_mem_of_append (List.cons_ne_nil _ _)
      exact ⟨hne, Or.inr ⟨hnt, hB⟩⟩
  · rw [lookup_branch_above, lookup_branchNode hab, under_update, ← under_append, ← hk, ← hkey']

theorem insert_good (again : Node → List Nibble → List Nibble → Node → Except TrieError (Bool × Node))
    (v : Bytes) :
    ∀ (n : Node), n.Good → ∀ pfx key, Terminated key →
      ∃ d n', t.insert again n pfx key (.value v) = .ok (d, n') ∧ n'.Good ∧
        n'.lookup = Function.update n.lookup key (some v) ∧ (d = false → n' = n) := by
  intro n
  induction n with
  | nil =>
    intro _ pfx key hkey
    obtain ⟨kh, kt, rfl⟩ := List.exists_cons_of_ne_nil hkey.ne_nil
    refine ⟨true, .short (kh :: kt) (.value v), rfl, good_leaf hkey v, ?_, by simp⟩
    rw [lookup_short, lookup_value, under_single_eq_update, lookup_nil]
  | value w => intro h; exact h.elim
  | hash h => intro h; exact h.elim
  | short k c ih =>
    intro hg pfx key hkey
    obtain ⟨kh, kt, hkk⟩ := List.exists_cons_of_ne_nil hkey.ne_nil
    subst hkk
    by_cases hm : prefixLen (kh :: kt) k = k.length
    · -- the short node's key is a prefix of the key
      have hp : k <+: kh :: kt := (prefixLen_eq_length_iff k _).mp (by rw [prefixLen_comm]; exact hm)
      obtain ⟨s, hs⟩ := hp
      have hdrop : (kh :: kt).drop k.length = s := by rw [← hs, List.drop_left]
      rcases hg.2 with ⟨hleaf, hv⟩ | ⟨hnt, hgc⟩
      · obtain ⟨w, rfl⟩ := isValue_iff.mp hv
        have hs0 : s = [] := drop_eq_nil_of_leaf hleaf (by rw [hs]; exact hkey)
        subst hs0
        simp only [List.append_nil] at hs
        subst hs
        refine ⟨w != v, .short (kh :: kt) (.value v), ?_, good_leaf hleaf v, ?_, ?_⟩
        · simp only [Trie.insert, hm, ↓reduceIte, hdrop]
          cases h : w != v
          · simp only [bne_eq_false_iff_eq] at h
            subst h
            rfl
          · rfl
        · simp [under_single_eq_update]
        · intro h
          simp only [bne_eq_false_iff_eq] at h
          rw [h]
      · have hsk : Terminated s := by rw [← hs] at hkey; exact hkey.append_right hnt
        obtain ⟨d, c', hins, hgc', hlc', hcl⟩ := ih hgc (pfx ++ (kh :: kt).take k.length) s hsk
        refine ⟨d, .short k c', ?_, ⟨hg.1, Or.inr ⟨hnt, hgc'⟩⟩, ?_, ?_⟩
        · simp only [Trie.insert, hm, ↓reduceIte, hdrop, hins, Except.ok_bind]
          exact dirty_select hcl (Node.short k)
        · rw [lookup_short, hlc', under_update, hs, lookup_short]
        · intro h
          rw [hcl h]
    · -- the keys part inside the short node's key
      obtain ⟨a, b, ha, hb, hgood, hlook⟩ := insert_branch_good hg hkey hm v
      refine ⟨true, _, ?_, hgood, hlook, by simp⟩
      simp only [Trie.insert, hm, ↓reduceIte, ha, hb]
      split <;> rfl
  | full cs ih =>
    intro hg pfx key hkey
    obtain ⟨i, rest, rfl⟩ := List.exists_cons_of_ne_nil hkey.ne_nil
    have hslot : ∃ d nn, t.insert again (cs i) (pfx ++ [i]) rest (.value v) = .ok (d, nn) ∧
        SlotGood i nn ∧ nn.lookup = Function.update (cs i).lookup rest (some v) ∧
        (d = false → nn = cs i) := by
      rcases terminated_cons.mp hkey with ⟨rfl, rfl⟩ | ⟨hi, hr⟩
      · -- the terminator slot holds the value itself
        rcases hg.1 with hv | hnil
        · obtain ⟨w, hw⟩ := isValue_iff.mp hv
          refine ⟨w != v, .value v, by simp [Trie.insert, hw], by simp [SlotGood], ?_, ?_⟩
          · rw [hw]
            funext r
            cases r <;> simp
          · intro h
            simp only [bne_eq_false_iff_eq] at h
            rw [hw, h]
        · refine ⟨true, .value v, by simp [Trie.insert, hnil], by simp [SlotGood], ?_, by simp⟩
          rw [hnil]
          funext r
          cases r <;> simp
      · obtain ⟨d, nn, hins, hgn, hln, hcl⟩ := ih i (hg.2 i hi) (pfx ++ [i]) rest hr
        exact ⟨d, nn, hins, by simpa [SlotGood, hi] using hgn, hln, hcl⟩
    obtain ⟨d, nn, hins, hgn, hln, hcl⟩ := hslot
    refine ⟨d, .full (Function.update cs i nn), ?_, hg.update hgn, ?_, ?_⟩
    · simp only [Trie.insert, hins, Except.ok_bind]
      cases d
      · simp [hcl rfl]
      · rfl
    · exact lookup_full_update hln
    · intro h
      rw [hcl h, Function.update_eq_self]

/-- What is left of a full node once one child has changed: the node itself, or, when a
single child is left, a short node to that child, merged with it when it is short. -/
theorem delete_collapse_good {cs : Fin 17 → Node} (hg : Good (.full cs)) (pfx : List Nibble)
    {r : Except TrieError (Bool × Node)}
    (hr : (match scanChildren cs with
      | .single pos =>
        if pos ≠ 16 then do
          let cnode ← t.resolve (cs pos) pfx
          match cnode with
          | .short ck cv => pure (true, .short (pos :: ck) cv)
          | _ => pure (true, .short [pos] (cs pos))
        else pure (true, .short [pos] (cs pos))
      | _ => pure (true, .full cs)) = r) :
    ∃ n', r = .ok (true, n') ∧ n'.Good ∧ n'.lookup = (Node.full cs).lookup := by
  split at hr
  · rename_i pos hscan
    obtain ⟨hne, hother⟩ := scanChildren_single hscan
    have hlook : (Node.full cs).lookup = under [pos] (cs pos).lookup := by
      rw [lookup_full]
      exact branch_eq_under_of_empty _ pos fun j hj => by rw [hother j hj]; rfl
    rw [hlook]
    by_cases h16 : pos = 16
    · -- only the value in the terminator slot is left
      subst h16
      rw [if_neg (not_not.mpr rfl)] at hr
      have hv : (cs 16).isValue := hg.1.resolve_right hne
      exact ⟨_, hr.symm, ⟨by simp, Or.inl ⟨⟨[], rfl, by simp⟩, hv⟩⟩, rfl⟩
    · have hgp : (cs pos).Good := hg.2 pos h16
      rw [if_pos h16, resolve_of_good t hgp, Except.ok_bind] at hr
      split at hr
      · rename_i ck cv hshort
        rw [hshort] at hgp ⊢
        refine ⟨_, hr.symm, good_short_append (p := [pos]) (by simpa using Ne.symm h16) hgp, ?_⟩
        rw [lookup_short, lookup_short, ← under_append]
        rfl
      · exact ⟨_, hr.symm, ⟨by simp, Or.inr ⟨by simpa using Ne.symm h16, hgp⟩⟩, rfl⟩
  · exact ⟨_, hr.symm, hg, rfl⟩

theorem delete_good (again : Node → List Nibble → List Nibble → Except TrieError (Bool × Node)) :
    ∀ (n : Node), n.Good → ∀ pfx key, Terminated key →
      ∃ d n', t.delete again n pfx key = .ok (d, n') ∧ n'.Good ∧
        n'.lookup = Function.update n.lookup key none ∧ (d = false → n' = n) := by
  intro n
  induction n with
  | nil =>
    intro _ pfx key _
    refine ⟨false, .nil, rfl, good_nil, ?_, fun _ => rfl⟩
    rw [lookup_nil, eq_comm, Function.update_eq_self_iff]
    rfl
  | value w => intro h; exact h.elim
  | hash h => intro h; exact h.elim
  | short k c ih =>
    intro hg pfx key hkey
    by_cases hmk : prefixLen key k < k.length
    · -- the key leaves the short node's key: nothing to delete
      have hnp : ¬ k <+: key := fun hp => by
        rw [prefixLen_comm, prefixLen_of_prefix hp] at hmk
        exact lt_irrefl _ hmk
      refine ⟨false, .short k c, by simp [Trie.delete_short, hmk], hg, ?_, fun _ => rfl⟩
      rw [lookup_short, eq_comm, Function.update_eq_self_iff, under_eq_none hnp]
    have hm : prefixLen key k = k.length := le_antisymm (prefixLen_le_right key k) (not_lt.mp hmk)
    have hp : k <+: key := (prefixLen_eq_length_iff k key).mp (by rw [prefixLen_comm]; exact hm)
    obtain ⟨s, rfl⟩ := hp
    rcases hg.2 with ⟨hleaf, hv⟩ | ⟨hnt, hgc⟩
    · -- a leaf is removed whole
      have hs0 : s = [] := drop_eq_nil_of_leaf hleaf hkey
      subst hs0
      obtain ⟨w, rfl⟩ := isValue_iff.mp hv
      simp only [List.append_nil] at hm hmk
      refine ⟨true, .nil, by simp [Trie.delete_short, hm], good_nil, ?_, by simp⟩
      rw [List.append_nil, lookup_short, lookup_value, under_single_eq_update, Function.update_idem,
        lookup_nil, eq_comm, Function.update_eq_self_iff]
      rfl
    -- otherwise the key goes on below the short node's key
    have hsk : Terminated s := hkey.append_right hnt
    have hlen : prefixLen (k ++ s) k ≠ (k ++ s).length := by
      rw [hm, List.length_append]
      have := List.length_pos_of_ne_nil hsk.ne_nil
      omega
    obtain ⟨d, c', hdel, hgc', hlc', hcl⟩ := ih hgc (pfx ++ (k ++ s).take k.length) s hsk
    have hlook : under k c'.lookup = Function.update (Node.short k c).lookup (k ++ s) none := by
      rw [hlc', under_update, lookup_short]
    obtain ⟨r, hr⟩ : ∃ r, t.delete again (.short k c) pfx (k ++ s) = r := ⟨_, rfl⟩
    rw [hr]
    simp only [Trie.delete_short, hmk, hlen, ↓reduceIte, List.drop_left, hdel, Except.ok_bind] at hr
    cases d
    · obtain rfl := hcl rfl
      simp only [Bool.not_false, ↓reduceIte] at hr
      refine ⟨false, .short k c', hr.symm, hg, ?_, fun _ => rfl⟩
      rw [← hlook, lookup_short]
    · simp only [Bool.not_true, Bool.false_eq_true, ↓reduceIte] at hr
      split at hr
      · rename_i ck cv
        refine ⟨true, _, hr.symm, good_short_append hnt hgc', ?_, by simp⟩
        rw [← hlook, lookup_short, lookup_short, under_append]
      · exact ⟨true, _, hr.symm, ⟨hg.1, Or.inr ⟨hnt, hgc'⟩⟩, hlook, by simp⟩
  | full cs ih =>
    intro hg pfx key hkey
    obtain ⟨i, rest, rfl⟩ := List.exists_cons_of_ne_nil hkey.ne_nil
    have hslot : ∃ d nn, t.delete again (cs i) (pfx ++ [i]) rest = .ok (d, nn) ∧
        SlotGood i nn ∧ nn.lookup = Function.update (cs i).lookup rest none ∧
        (d = false → nn = cs i) := by
      rcases terminated_cons.mp hkey with ⟨rfl, rfl⟩ | ⟨hi, hr⟩
      · -- the terminator slot holds the value itself
        refine ⟨!(cs 16).isNil, .nil, ?_, slotGood_nil 16, ?_, ?_⟩
        · rcases hg.1 with hv | hnil
          · obtain ⟨w, hw⟩ := isValue_iff.mp hv
            simp [hw]
          · simp [hnil]
        · funext r
          cases r
          · simp
          · rcases hg.1 with hv | hnil
            · obtain ⟨w, hw⟩ := isValue_iff.mp hv
              simp [hw]
            · simp [hnil]
        · intro h
          simp only [Bool.not_eq_false', isNil_iff] at h
          exact h.symm
      · obtain ⟨d, nn, hdel, hgn, hln, hcl⟩ := ih i (hg.2 i hi) (pfx ++ [i]) rest hr
        exact ⟨d, nn, hdel, by simpa [SlotGood, hi] using hgn, hln, hcl⟩
    obtain ⟨d, nn, hdel, hgn, hln, hcl⟩ := hslot
    have hL := lookup_full_update hln
    obtain ⟨r, hr⟩ : ∃ r, t.delete again (.full cs) pfx (i :: rest) = r := ⟨_, rfl⟩
    rw [hr]
    simp only [Trie.delete_full_cons, hdel, Except.ok_bind] at hr
    cases d
    · obtain rfl := hcl rfl
      simp only [Bool.not_false, ↓reduceIte] at hr
      rw [Function.update_eq_self] at hL
      exact ⟨false, .full cs, hr.symm, hg, hL, fun _ => rfl⟩
    · simp only [Bool.not_true, Bool.false_eq_true, ↓reduceIte] at hr
      obtain ⟨n', hrun, hgood, hlook⟩ := delete_collapse_good t (hg.update hgn) pfx hr
      exact ⟨true, n', hrun, hgood, hlook.trans hL, by simp⟩

end Walk

/-! ### Whole runs from the empty trie -/

/-- The reference map of `runRandTest`: an update sets the key, and an empty value, like a
delete, leaves it absent. -/
def refApply (m : Bytes → Option Bytes) : Op → Bytes → Option Bytes
  | .update key val => Function.update m key (if val.length ≠ 0 then some val else none)
  | .delete key => Function.update m key none

/-- The reference map after a sequence of writes to the empty map. -/
def refMap (ops : List Op) : Bytes → Option Bytes :=
  ops.foldl refApply fun _ => none

/-- `t` holds the map `m`: its root is `Good` and answers for each key as `m` does. -/
structure Holds (t : Trie) (m : Bytes → Option Bytes) : Prop where
  good : t.root.Good
  lookup : t.root.lookup ∘ keybytesToHex = m

theorem emptyTrie_holds : Holds emptyTrie fun _ => none :=
  ⟨good_nil, rfl⟩

namespace Holds

variable {t : Trie} {m : Bytes → Option Bytes}

theorem tryGet (h : Holds t m) (key : Bytes) : t.TryGet key = .ok (m key, t) := by
  have hget := tryGet_good t (t.tryGetFuel (keybytesToHex key).length) t.root h.good
    (keybytesToHex key) 0 (by simpa using keybytesToHex_terminated key)
  rw [List.drop_zero] at hget
  simp only [TryGet, tryGetFuel, hget, Except.ok_bind, Bool.false_eq_true, ↓reduceIte,
    Except.pure_eq_ok]
  rw [← h.lookup]
  rfl

/-- A new `Good` root that updates the old root's map at the hex form of `key`. -/
theorem root_update (h : Holds t m) {n : Node} (hn : n.Good) {key : Bytes} {x : Option Bytes}
    (hl : n.lookup = Function.update t.root.lookup (keybytesToHex key) x) :
    Holds { t with root := n } (Function.update m key x) := by
  refine ⟨hn, ?_⟩
  show n.lookup ∘ keybytesToHex = _
  rw [hl, Function.update_comp_eq_of_injective _ keybytesToHex_injective, h.lookup]

theorem tryDelete (h : Holds t m) (key : Bytes) :
    ∃ t', t.TryDelete key = .ok t' ∧ Holds t' (Function.update m key none) := by
  obtain ⟨d, n', hdel, hgood, hlook, -⟩ := delete_good t (t.deleteFuel (keybytesToHex key).length)
    t.root h.good [] (keybytesToHex key) (keybytesToHex_terminated key)
  refine ⟨_, ?_, h.root_update hgood hlook⟩
  simp only [TryDelete, deleteFuel, hdel, Except.ok_bind, Except.pure_eq_ok]

theorem tryUpdate (h : Holds t m) (key value : Bytes) :
    ∃ t', t.TryUpdate key value = .ok t' ∧
      Holds t' (Function.update m key (if value.length ≠ 0 then some value else none)) := by
  by_cases hv : value.length ≠ 0
  · obtain ⟨d, n', hins, hgood, hlook, -⟩ := insert_good t
      (t.insertFuel (keybytesToHex key).length) value t.root h.good [] (keybytesToHex key)
      (keybytesToHex_terminated key)
    rw [if_pos hv]
    refine ⟨_, ?_, h.root_update hgood hlook⟩
    simp only [TryUpdate, insertFuel, hins, Except.ok_bind, Except.pure_eq_ok]
    rw [if_pos hv]
  · obtain ⟨t', hdel, hh⟩ := h.tryDelete key
    rw [if_neg hv]
    refine ⟨t', ?_, hh⟩
    simp only [TryUpdate, hv, ↓reduceIte]
    exact hdel

theorem apply (h : Holds t m) (op : Op) : ∃ t', t.apply op = .ok t' ∧ Holds t' (refApply m op) := by
  cases op with
  | update key val =>
    rw [Trie.apply, refApply]
    exact h.tryUpdate key val
  | delete key =>
    rw [Trie.apply, refApply]
    exact h.tryDelete key

/-- The run lemma: every write succeeds and the trie keeps holding the reference map. -/
theorem applyAll (h : Holds t m) (ops : List Op) :
    ∃ t', t.applyAll ops = .ok t' ∧ Holds t' (ops.foldl refApply m) := by
  induction ops generalizing t m with
  | nil => exact ⟨t, rfl, h⟩
  | cons op ops ih =>
    obtain ⟨t₁, h₁, hh₁⟩ := h.apply op
    obtain ⟨t₂, h₂, hh₂⟩ := ih hh₁
    refine ⟨t₂, ?_, hh₂⟩
    simp only [Trie.applyAll, List.foldlM_cons, h₁, Except.ok_bind]
    exact h₂

end Holds

theorem applyAll_tryGet (ops : List Op) :
    ∃ t, emptyTrie.applyAll ops = .ok t ∧ ∀ key, t.TryGet key = .ok (refMap ops key, t) := by
  obtain ⟨t, hrun, hholds⟩ := emptyTrie_holds.applyAll ops
  exact ⟨t, hrun, hholds.tryGet⟩

end Ccmchain.Trie
