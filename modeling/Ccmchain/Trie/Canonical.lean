import Ccmchain.Trie.MapSemantics

/-!
# The canonical trie

`Node.Canon` is the shape the hasher's callers rely on: no short node over a short node or
over nothing, every full node with at least two non-nil children, and values only behind a
terminated key. `insert` and `delete` keep it, and a canonical node is determined by its map
(`canon_eq_of_lookup_eq`), so the root after a sequence of writes depends only on the map
they leave.
-/

namespace Ccmchain.Trie

open PrefixMap Trie Node

namespace Node

/-- `n` is a `fullNode`. -/
def isFull : Node → Bool
  | .full _ => true
  | _ => false

theorem isFull_iff {n : Node} : n.isFull = true ↔ ∃ cs, n = .full cs := by
  cases n <;> simp [isFull]

/-- Two different slots of a full node are taken. -/
def TwoChildren (cs : Fin 17 → Node) : Prop :=
  ∃ i j, i ≠ j ∧ cs i ≠ .nil ∧ cs j ≠ .nil

/-- The canonical form of a non-empty trie. -/
def Canon : Node → Prop
  | .nil => False
  | .value _ => False
  | .hash _ => False
  | .short k c => k ≠ [] ∧ ((Terminated k ∧ c.isValue) ∨ (16 ∉ k ∧ c.isFull ∧ c.Canon))
  | .full cs => ((cs 16).isValue ∨ cs 16 = .nil) ∧ (∀ i, i ≠ 16 → cs i = .nil ∨ (cs i).Canon) ∧
      TwoChildren cs

/-- What `Canon` asks of the child in slot `i` of a full node. -/
def CanonSlot (i : Nibble) (n : Node) : Prop :=
  if i = 16 then n.isValue ∨ n = .nil else n = .nil ∨ n.Canon

theorem canonSlot_def (i : Nibble) (n : Node) :
    CanonSlot i n = if i = 16 then n.isValue ∨ n = .nil else n = .nil ∨ n.Canon := rfl

theorem canon_full_iff {cs : Fin 17 → Node} :
    Canon (.full cs) ↔ (∀ i, CanonSlot i (cs i)) ∧ TwoChildren cs := by
  constructor
  · rintro ⟨h16, hi, htwo⟩
    refine ⟨fun i => ?_, htwo⟩
    by_cases h : i = 16
    · subst h
      simpa [canonSlot_def] using h16
    · simpa [canonSlot_def, h] using hi i h
  · rintro ⟨h, htwo⟩
    exact ⟨by simpa [canonSlot_def] using h 16, fun i hi => by simpa [canonSlot_def, hi] using h i, htwo⟩

theorem Canon.ne_nil {n : Node} (h : n.Canon) : n ≠ .nil := by
  rintro rfl
  exact h

theorem canonSlot_nil (i : Nibble) : CanonSlot i .nil := by
  rw [canonSlot_def]
  split <;> simp

/-- A canonical node is `Good`. -/
theorem Canon.good {n : Node} (h : n.Canon) : n.Good := by
  induction n with
  | nil | value _ | hash _ => exact h.elim
  | short k c ih =>
    obtain ⟨hk, hc⟩ := h
    refine ⟨hk, ?_⟩
    rcases hc with ⟨ht, hv⟩ | ⟨hn, -, hc⟩
    · exact Or.inl ⟨ht, hv⟩
    · exact Or.inr ⟨hn, ih hc⟩
  | full cs ih =>
    obtain ⟨h16, hi, -⟩ := h
    refine ⟨h16, fun i hne => ?_⟩
    rcases hi i hne with h | h
    · rw [h]
      exact good_nil
    · exact ih i h

/-- The child of a canonical short node: a value, or a canonical full node. -/
def ShortChild (c : Node) : Prop :=
  c.isValue ∨ (c.isFull ∧ c.Canon)

theorem Canon.shortChild {k : List Nibble} {c : Node} (h : Canon (.short k c)) : ShortChild c := by
  rcases h.2 with ⟨-, hv⟩ | ⟨-, hf, hc⟩
  · exact Or.inl hv
  · exact Or.inr ⟨hf, hc⟩

/-- A canonical node stores something. -/
theorem Canon.lookup_ne_empty {n : Node} (h : n.Canon) : ∃ r, n.lookup r ≠ none := by
  induction n with
  | nil | value _ | hash _ => exact h.elim
  | short k c ih =>
    have hcr : ∃ r, c.lookup r ≠ none := by
      rcases h.shortChild with hv | ⟨-, hc⟩
      · obtain ⟨v, rfl⟩ := isValue_iff.mp hv
        exact ⟨[], by simp⟩
      · exact ih hc
    obtain ⟨r, hr⟩ := hcr
    exact ⟨k ++ r, by rw [lookup_short, under_append_apply]; exact hr⟩
  | full cs ih =>
    obtain ⟨h16, hi, i, j, hij, hci, hcj⟩ := h
    by_cases h : i = 16
    · subst h
      obtain ⟨v, hv⟩ := isValue_iff.mp (h16.resolve_right hci)
      exact ⟨[16], by simp [hv]⟩
    · obtain ⟨r, hr⟩ := ih i ((hi i h).resolve_left hci)
      exact ⟨i :: r, by simpa using hr⟩

/-- The child in a taken slot of a canonical full node stores something. -/
theorem CanonSlot.lookup_ne_empty {i : Nibble} {n : Node} (h : CanonSlot i n) (hn : n ≠ .nil) :
    ∃ r, n.lookup r ≠ none := by
  rw [canonSlot_def] at h
  split at h
  · obtain ⟨v, rfl⟩ := isValue_iff.mp (h.resolve_right hn)
    exact ⟨[], by simp⟩
  · exact (h.resolve_left hn).lookup_ne_empty

/-- A canonical full node has entries below two different nibbles. -/
theorem Canon.splits {cs : Fin 17 → Node} (h : Canon (.full cs)) : Splits (Node.full cs).lookup := by
  obtain ⟨hslot, i, j, hij, hci, hcj⟩ := canon_full_iff.mp h
  obtain ⟨r, hr⟩ := (hslot i).lookup_ne_empty hci
  obtain ⟨s, hs⟩ := (hslot j).lookup_ne_empty hcj
  exact ⟨i, j, r, s, hij, by simpa using hr, by simpa using hs⟩

theorem ShortChild.lookup_ne_empty {c : Node} (h : ShortChild c) : ∃ r, c.lookup r ≠ none := by
  rcases h with hv | ⟨-, hc⟩
  · obtain ⟨v, rfl⟩ := isValue_iff.mp hv
    exact ⟨[], by simp⟩
  · exact hc.lookup_ne_empty

end Node

/-! ### A canonical node is determined by its map -/

/-- The key of a canonical short node never ends strictly inside another short node's key
over the same map: below it there would be a single value or a branch, and neither fits. -/
theorem not_lookup_short_eq_append {k : List Nibble} {c c' : Node} (h : Canon (.short k c))
    (j : Nibble) (r : List Nibble) :
    (Node.short k c).lookup ≠ (Node.short (k ++ j :: r) c').lookup := by
  intro he
  rw [lookup_short, lookup_short, under_append] at he
  have hc := under_injective k he
  rcases h.shortChild with hv | ⟨hf, hcc⟩
  · obtain ⟨v, rfl⟩ := isValue_iff.mp hv
    have h0 := congrFun hc []
    simp at h0
  · obtain ⟨cs, rfl⟩ := isFull_iff.mp hf
    have hs := hcc.splits
    rw [hc] at hs
    exact not_splits_under (List.cons_ne_nil j r) _ hs

section Unique

variable {c c' : Node}

/-- The keys of two canonical short nodes over the same map agree. -/
theorem key_eq_of_lookup_short_eq {k k' : List Nibble} (h : Canon (.short k c))
    (h' : Canon (.short k' c')) (he : (Node.short k c).lookup = (Node.short k' c').lookup) : k = k' := by
  obtain ⟨r, hr⟩ := h.shortChild.lookup_ne_empty
  rcases prefix_or_prefix_of_under_eq he hr with ⟨t, rfl⟩ | ⟨t, rfl⟩
  · cases t with
    | nil => simp
    | cons j r => exact absurd he (not_lookup_short_eq_append h j r)
  · cases t with
    | nil => simp
    | cons j r => exact absurd he.symm (not_lookup_short_eq_append h' j r)

/-- Two children of canonical short nodes over the same map are equal, given that for the
first one when it is a canonical full node. -/
theorem shortChild_eq (h : ShortChild c) (h' : ShortChild c') (he : c.lookup = c'.lookup)
    (ih : c.Canon → ∀ b : Node, b.Canon → c.lookup = b.lookup → c = b) : c = c' := by
  rcases h with hv | ⟨hf, hc⟩ <;> rcases h' with hv' | ⟨hf', hc'⟩
  · obtain ⟨v, rfl⟩ := isValue_iff.mp hv
    obtain ⟨w, rfl⟩ := isValue_iff.mp hv'
    have h0 := congrFun he []
    simp only [lookup_value, single_nil, Option.some.injEq] at h0
    rw [h0]
  · obtain ⟨v, rfl⟩ := isValue_iff.mp hv
    obtain ⟨cs, rfl⟩ := isFull_iff.mp hf'
    have hs := hc'.splits
    rw [← he] at hs
    exact absurd hs (not_splits_single v)
  · obtain ⟨v, rfl⟩ := isValue_iff.mp hv'
    obtain ⟨cs, rfl⟩ := isFull_iff.mp hf
    have hs := hc.splits
    rw [he] at hs
    exact absurd hs (not_splits_single v)
  · exact ih hc c' hc' he

/-- Two children in slot `i` of canonical full nodes over the same map are equal, given that
for the first one when it is canonical. -/
theorem canonSlot_eq {i : Nibble} (h : CanonSlot i c) (h' : CanonSlot i c') (he : c.lookup = c'.lookup)
    (ih : c.Canon → ∀ b : Node, b.Canon → c.lookup = b.lookup → c = b) : c = c' := by
  rw [canonSlot_def] at h h'
  split at h
  · simp only [‹i = 16›, ↓reduceIte] at h'
    have h0 := congrFun he []
    rcases h with hv | rfl <;> rcases h' with hv' | rfl
    · obtain ⟨v, rfl⟩ := isValue_iff.mp hv
      obtain ⟨w, rfl⟩ := isValue_iff.mp hv'
      simp only [lookup_value, single_nil, Option.some.injEq] at h0
      rw [h0]
    · obtain ⟨v, rfl⟩ := isValue_iff.mp hv
      simp at h0
    · obtain ⟨w, rfl⟩ := isValue_iff.mp hv'
      simp at h0
    · rfl
  · simp only [‹¬i = 16›, ↓reduceIte] at h'
    rcases h with rfl | hc <;> rcases h' with rfl | hc'
    · rfl
    · obtain ⟨r, hr⟩ := hc'.lookup_ne_empty
      rw [← he] at hr
      exact absurd rfl hr
    · obtain ⟨r, hr⟩ := hc.lookup_ne_empty
      rw [he] at hr
      exact absurd rfl hr
    · exact ih hc c' hc' he

end Unique

/-- A canonical node is determined by the map it stands for. -/
theorem canon_eq_of_lookup_eq {a : Node} (ha : a.Canon) :
    ∀ b : Node, b.Canon → a.lookup = b.lookup → a = b := by
  induction a with
  | nil | value _ | hash _ => exact ha.elim
  | short k c ih =>
    intro b hb he
    cases b with
    | nil | value _ | hash _ => exact hb.elim
    | short k' c' =>
      obtain rfl := key_eq_of_lookup_short_eq ha hb he
      rw [lookup_short, lookup_short] at he
      rw [shortChild_eq ha.shortChild hb.shortChild (under_injective k he) ih]
    | full cs' =>
      have hs := hb.splits
      rw [← he, lookup_short] at hs
      exact absurd hs (not_splits_under ha.1 _)
  | full cs ih =>
    intro b hb he
    cases b with
    | nil | value _ | hash _ => exact hb.elim
    | short k' c' =>
      have hs := ha.splits
      rw [he, lookup_short] at hs
      exact absurd hs (not_splits_under hb.1 _)
    | full cs' =>
      have hslot := (canon_full_iff.mp ha).1
      have hslot' := (canon_full_iff.mp hb).1
      have hchild := branch_injective he
      congr 1
      funext i
      exact canonSlot_eq (hslot i) (hslot' i) (congrFun hchild i) (ih i)

/-! ### `insert` keeps the trie canonical -/

theorem insertNil_ne_nil {r : List Nibble} {c : Node} (hc : c ≠ .nil) : insertNil r c ≠ .nil := by
  rw [insertNil_def]
  split
  · exact hc
  · simp

/-- Replacing one child of a canonical full node by a non-nil child fit for its slot keeps it
canonical. -/
theorem Node.Canon.update {cs : Fin 17 → Node} (h : Canon (.full cs)) {i : Nibble} {x : Node}
    (hx : CanonSlot i x) (hnil : x ≠ .nil) : Canon (.full (Function.update cs i x)) := by
  obtain ⟨hslot, j₁, j₂, hj, h₁, h₂⟩ := canon_full_iff.mp h
  have hkeep : ∀ j, cs j ≠ .nil → Function.update cs i x j ≠ .nil := by
    intro j hj
    by_cases hji : j = i
    · subst hji
      simpa using hnil
    · rwa [Function.update_of_ne hji]
  refine canon_full_iff.mpr ⟨fun j => ?_, j₁, j₂, hj, hkeep j₁ h₁, hkeep j₂ h₂⟩
  by_cases hji : j = i
  · subst hji
    simpa using hx
  · rw [Function.update_of_ne hji]
    exact hslot j

/-- A value placed by `insertNil` below nibble `i` of a terminated key fits slot `i`. -/
theorem canonSlot_insertNil_value {i : Nibble} {r : List Nibble} (h : Terminated (i :: r)) (v : Bytes) :
    CanonSlot i (insertNil r (.value v)) := by
  rcases terminated_cons.mp h with ⟨rfl, rfl⟩ | ⟨hi, hr⟩
  · simp [canonSlot_def, insertNil_def]
  · simp only [canonSlot_def, hi, ↓reduceIte, insertNil_def, hr.ne_nil]
    exact Or.inr ⟨hr.ne_nil, Or.inl ⟨hr, rfl⟩⟩

/-- The rest of a canonical short node's key after nibble `a`, with its child, fits slot `a`. -/
theorem canonSlot_insertNil_of_short {p r : List Nibble} {a : Nibble} {c : Node}
    (h : Canon (.short (p ++ a :: r) c)) : CanonSlot a (insertNil r c) := by
  rcases h.2 with ⟨hk, hv⟩ | ⟨hn, hf, hc⟩
  · have har : Terminated (a :: r) := hk.append_right (hk.not_mem_of_append (List.cons_ne_nil a r))
    obtain ⟨v, rfl⟩ := isValue_iff.mp hv
    exact canonSlot_insertNil_value har v
  · have ha : a ≠ 16 := by
      rintro rfl
      exact hn (by simp)
    have hr : 16 ∉ r := fun h => hn (by simp [h])
    simp only [canonSlot_def, ha, ↓reduceIte]
    rw [insertNil_def]
    split
    · exact Or.inr hc
    · exact Or.inr ⟨‹_›, Or.inr ⟨hr, hf, hc⟩⟩

theorem canon_branchNode {p ka kb : List Nibble} {a b : Nibble} {c : Node} (v : Bytes)
    (hs : Canon (.short (p ++ a :: ka) c)) (hk : Terminated (p ++ b :: kb)) (hab : a ≠ b) :
    Canon (branchNode a ka c b kb (.value v)) := by
  have hb : Terminated (b :: kb) := hk.append_right (hk.not_mem_of_append (List.cons_ne_nil b kb))
  have hca : insertNil ka c ≠ .nil := by
    refine insertNil_ne_nil ?_
    rcases hs.shortChild with hv | ⟨-, hc⟩
    · obtain ⟨w, rfl⟩ := isValue_iff.mp hv
      simp
    · exact hc.ne_nil
  have hcb : insertNil kb (.value v) ≠ .nil := insertNil_ne_nil (by simp)
  refine canon_full_iff.mpr ⟨fun j => ?_, a, b, hab, ?_, ?_⟩
  · by_cases hjb : j = b
    · subst hjb
      simpa using canonSlot_insertNil_value hb v
    · rw [Function.update_of_ne hjb]
      by_cases hja : j = a
      · subst hja
        simpa using canonSlot_insertNil_of_short hs
      · rw [Function.update_of_ne hja]
        exact canonSlot_nil j
  · rwa [Function.update_of_ne hab, Function.update_self]
  · rwa [Function.update_self]

section Walk

variable (t : Trie)

/-- At the end of the key `insert` hands back the value itself. -/
theorem insert_empty_key {again : Node → List Nibble → List Nibble → Node → Except TrieError (Bool × Node)}
    {n : Node} {pfx : List Nibble} {v : Bytes} {d : Bool} {n' : Node}
    (h : t.insert again n pfx [] (.value v) = .ok (d, n')) : n' = .value v := by
  unfold Trie.insert at h
  split at h
  · simp only [Except.ok.injEq, Prod.mk.injEq] at h
    exact h.2.symm
  · rename_i hne
    exact (hne v rfl).elim
  · simp only [Except.ok.injEq, Prod.mk.injEq] at h
    exact h.2.symm

/-- Inserting below a full node gives a full node. -/
theorem insert_full_isFull {again : Node → List Nibble → List Nibble → Node → Except TrieError (Bool × Node)}
    {cs : Fin 17 → Node} {pfx : List Nibble} {i : Nibble} {rest : List Nibble} {w : Node} {d : Bool}
    {n' : Node} (h : t.insert again (.full cs) pfx (i :: rest) w = .ok (d, n')) : n'.isFull := by
  simp only [Trie.insert] at h
  obtain ⟨⟨d₀, nn⟩, -, h₂⟩ := Except.bind_eq_ok_iff.mp h
  cases d₀
  · simp only [Bool.not_false, ↓reduceIte, Except.pure_eq_ok, Except.ok.injEq, Prod.mk.injEq] at h₂
    rw [← h₂.2]
    rfl
  · simp only [Bool.not_true, Bool.false_eq_true, ↓reduceIte, Except.pure_eq_ok, Except.ok.injEq,
      Prod.mk.injEq] at h₂
    rw [← h₂.2]
    rfl

theorem insert_canon (again : Node → List Nibble → List Nibble → Node → Except TrieError (Bool × Node))
    (v : Bytes) :
    ∀ n : Node, (n = .nil ∨ n.Canon) → ∀ pfx key, Terminated key → ∀ d n',
      t.insert again n pfx key (.value v) = .ok (d, n') → n'.Canon := by
  intro n
  induction n with
  | nil =>
    intro _ pfx key hkey d n' h
    obtain ⟨kh, kt, rfl⟩ := List.exists_cons_of_ne_nil hkey.ne_nil
    simp only [Trie.insert, Except.ok.injEq, Prod.mk.injEq] at h
    rw [← h.2]
    exact ⟨List.cons_ne_nil _ _, Or.inl ⟨hkey, rfl⟩⟩
  | value w =>
    rintro (h | h)
    · cases h
    · exact h.elim
  | hash h =>
    rintro (h | h)
    · cases h
    · exact h.elim
  | short k c ih =>
    intro hc pfx key hkey d n' h
    replace hc : Canon (.short k c) := hc.resolve_left (by simp)
    obtain ⟨kh, kt, rfl⟩ := List.exists_cons_of_ne_nil hkey.ne_nil
    by_cases hm : prefixLen (kh :: kt) k = k.length
    · have hp : k <+: kh :: kt := (prefixLen_eq_length_iff k _).mp (by rw [prefixLen_comm]; exact hm)
      obtain ⟨s, hs⟩ := hp
      have hdrop : (kh :: kt).drop k.length = s := by rw [← hs, List.drop_left]
      simp only [Trie.insert, hm, ↓reduceIte, hdrop] at h
      obtain ⟨⟨d₀, nn⟩, h₁, h₂⟩ := Except.bind_eq_ok_iff.mp h
      have hnn : Canon (.short k nn) := by
        rcases hc.2 with ⟨hleaf, hv⟩ | ⟨hnt, hf, hcc⟩
        · -- a leaf over the same key: the value is replaced
          have hs0 : s = [] := drop_eq_nil_of_leaf hleaf (by rw [hs]; exact hkey)
          subst hs0
          rw [insert_empty_key t h₁]
          exact ⟨hc.1, Or.inl ⟨hleaf, rfl⟩⟩
        · have hsk : Terminated s := by rw [← hs] at hkey; exact hkey.append_right hnt
          obtain ⟨i, rest, rfl⟩ := List.exists_cons_of_ne_nil hsk.ne_nil
          obtain ⟨cs, rfl⟩ := isFull_iff.mp hf
          exact ⟨hc.1, Or.inr ⟨hnt, insert_full_isFull t h₁, ih (Or.inr hcc) _ _ hsk d₀ nn h₁⟩⟩
      cases d₀
      · simp only [Bool.not_false, ↓reduceIte, Except.pure_eq_ok, Except.ok.injEq,
          Prod.mk.injEq] at h₂
        rw [← h₂.2]
        exact hc
      · simp only [Bool.not_true, Bool.false_eq_true, ↓reduceIte, Except.pure_eq_ok, Except.ok.injEq,
          Prod.mk.injEq] at h₂
        rw [← h₂.2]
        exact hnn
    · -- the keys part inside the short node's key: a branch, under the shared part if any
      obtain ⟨a, b, ha, hb, hab, hk, hkey'⟩ := short_parts hc.good hkey hm
      have hB := canon_branchNode v (by rw [← hk]; exact hc) (by rw [← hkey']; exact hkey) hab
      simp only [Trie.insert, hm, ↓reduceIte, ha, hb] at h
      split at h
      · simp only [Except.ok.injEq, Prod.mk.injEq] at h
        rw [← h.2]
        exact hB
      · rename_i h0
        simp only [Except.ok.injEq, Prod.mk.injEq] at h
        rw [← h.2]
        have hmkey : prefixLen (kh :: kt) k < (kh :: kt).length := prefixLen_lt_key hc.good hkey hm
        have hne : (kh :: kt).take (prefixLen (kh :: kt) k) ≠ [] := by
          simp only [ne_eq, List.take_eq_nil_iff, List.cons_ne_nil, or_false]
          exact h0
        have hnt : 16 ∉ (kh :: kt).take (prefixLen (kh :: kt) k) := by
          rw [hkey'] at hkey
          exact hkey.not_mem_of_append (List.cons_ne_nil _ _)
        exact ⟨hne, Or.inr ⟨hnt, rfl, hB⟩⟩
  | full cs ih =>
    intro hc pfx key hkey d n' h
    replace hc : Canon (.full cs) := hc.resolve_left (by simp)
    obtain ⟨i, rest, rfl⟩ := List.exists_cons_of_ne_nil hkey.ne_nil
    simp only [Trie.insert] at h
    obtain ⟨⟨d₀, nn⟩, h₁, h₂⟩ := Except.bind_eq_ok_iff.mp h
    have hslot : CanonSlot i nn ∧ nn ≠ .nil := by
      rcases terminated_cons.mp hkey with ⟨rfl, rfl⟩ | ⟨hi, hr⟩
      · rw [insert_empty_key t h₁]
        exact ⟨by simp [canonSlot_def], by simp⟩
      · have hci := (canon_full_iff.mp hc).1 i
        simp only [canonSlot_def, hi, ↓reduceIte] at hci
        have hnn := ih i hci _ rest hr d₀ nn h₁
        exact ⟨by simp [canonSlot_def, hi, hnn], hnn.ne_nil⟩
    cases d₀
    · simp only [Bool.not_false, ↓reduceIte, Except.pure_eq_ok, Except.ok.injEq, Prod.mk.injEq] at h₂
      rw [← h₂.2]
      exact hc
    · simp only [Bool.not_true, Bool.false_eq_true, ↓reduceIte, Except.pure_eq_ok, Except.ok.injEq,
        Prod.mk.injEq] at h₂
      rw [← h₂.2]
      exact hc.update hslot.1 hslot.2

end Walk

/-! ### `delete` keeps the trie canonical -/

/-- The merge of `delete`: a key without the terminator in front of a canonical short node. -/
theorem canon_short_append {p ck : List Nibble} {cv : Node} (hp : 16 ∉ p) (h : Canon (.short ck cv)) :
    Canon (.short (p ++ ck) cv) := by
  refine ⟨by simp [h.1], ?_⟩
  rcases h.2 with ⟨hk, hv⟩ | ⟨hn, hf, hc⟩
  · exact Or.inl ⟨hk.append_left hp, hv⟩
  · exact Or.inr ⟨by simp [hp, hn], hf, hc⟩

/-- A canonical node that is not short is full. -/
theorem Node.Canon.isFull_of_not_short {n : Node} (h : n.Canon) (hs : ∀ ck cv, n ≠ .short ck cv) :
    n.isFull := by
  cases n with
  | nil | value _ | hash _ => exact h.elim
  | short ck cv => exact absurd rfl (hs ck cv)
  | full cs => rfl

section Walk

variable (t : Trie)

/-- The node `delete` leaves in place of a full node whose slots are all canonical, one of
them taken, is canonical. -/
theorem delete_collapse_canon {cs : Fin 17 → Node} (hslot : ∀ j, CanonSlot j (cs j)) {j : Nibble}
    (hj : cs j ≠ .nil) (pfx : List Nibble) {r : Except TrieError (Bool × Node)}
    (hr : (match scanChildren cs with
      | .single pos =>
        if pos ≠ 16 then do
          let cnode ← t.resolve (cs pos) pfx
          match cnode with
          | .short ck cv => pure (true, .short (pos :: ck) cv)
          | _ => pure (true, .short [pos] (cs pos))
        else pure (true, .short [pos] (cs pos))
      | _ => pure (true, .full cs)) = r) :
    ∃ n', r = .ok (true, n') ∧ n'.Canon := by
  cases hscan : scanChildren cs with
  | none => exact absurd hscan (scanChildren_ne_none hj)
  | single pos =>
    rw [hscan] at hr
    dsimp only at hr
    have hne := (scanChildren_single hscan).1
    have hp := hslot pos
    by_cases h16 : pos = 16
    · -- only the value in the terminator slot is left
      subst h16
      rw [if_neg (not_not.mpr rfl)] at hr
      simp only [canonSlot_def, ↓reduceIte] at hp
      exact ⟨_, hr.symm, ⟨by simp, Or.inl ⟨⟨[], rfl, by simp⟩, hp.resolve_right hne⟩⟩⟩
    · simp only [canonSlot_def, h16, ↓reduceIte] at hp
      have hcp : (cs pos).Canon := hp.resolve_left hne
      have hnt : 16 ∉ [pos] := by simpa using Ne.symm h16
      rw [if_pos h16, resolve_of_good t hcp.good, Except.ok_bind] at hr
      split at hr
      · rename_i ck cv hshort
        rw [hshort] at hcp
        exact ⟨_, hr.symm, canon_short_append hnt hcp⟩
      · rename_i hns
        exact ⟨_, hr.symm, ⟨by simp, Or.inr ⟨hnt, hcp.isFull_of_not_short hns, hcp⟩⟩⟩
  | several =>
    rw [hscan] at hr
    dsimp only at hr
    exact ⟨_, hr.symm, canon_full_iff.mpr ⟨hslot, two_of_scanChildren_several hscan⟩⟩

theorem delete_canon (again : Node → List Nibble → List Nibble → Except TrieError (Bool × Node)) :
    ∀ n : Node, n.Canon → ∀ pfx key, Terminated key → ∀ d n',
      t.delete again n pfx key = .ok (d, n') → (n' = .nil ∨ n'.Canon) ∧ (n.isFull → n'.Canon) := by
  intro n
  induction n with
  | nil | value _ | hash _ => intro hc; exact hc.elim
  | short k c ih =>
    intro hc pfx key hkey d n' h
    by_cases hmk : prefixLen key k < k.length
    · -- the key leaves the short node's key: nothing changes
      simp only [Trie.delete_short, hmk, ↓reduceIte, Except.ok.injEq, Prod.mk.injEq] at h
      rw [← h.2]
      exact ⟨Or.inr hc, fun hf => hc⟩
    have hm : prefixLen key k = k.length := le_antisymm (prefixLen_le_right key k) (not_lt.mp hmk)
    have hp : k <+: key := (prefixLen_eq_length_iff k key).mp (by rw [prefixLen_comm]; exact hm)
    obtain ⟨s, rfl⟩ := hp
    rcases hc.2 with ⟨hleaf, -⟩ | ⟨hnt, hf, hcc⟩
    · -- a leaf is removed whole
      have hs0 : s = [] := drop_eq_nil_of_leaf hleaf hkey
      subst hs0
      simp only [List.append_nil] at hm hmk h
      simp only [Trie.delete_short, hm, lt_self_iff_false, ↓reduceIte, Except.ok.injEq, Prod.mk.injEq] at h
      rw [← h.2]
      exact ⟨Or.inl rfl, fun hf => absurd hf (by simp [isFull])⟩
    have hsk : Terminated s := hkey.append_right hnt
    have hlen : prefixLen (k ++ s) k ≠ (k ++ s).length := by
      rw [hm, List.length_append]
      have := List.length_pos_of_ne_nil hsk.ne_nil
      omega
    simp only [Trie.delete_short, hmk, hlen, ↓reduceIte, List.drop_left] at h
    obtain ⟨⟨d₀, nn⟩, h₁, h₂⟩ := Except.bind_eq_ok_iff.mp h
    have hnn : nn.Canon := (ih hcc _ s hsk d₀ nn h₁).2 hf
    refine ⟨Or.inr ?_, fun hf' => absurd hf' (by simp [isFull])⟩
    cases d₀
    · simp only [Bool.not_false, ↓reduceIte, Except.pure_eq_ok, Except.ok.injEq, Prod.mk.injEq] at h₂
      rw [← h₂.2]
      exact hc
    · simp only [Bool.not_true, Bool.false_eq_true, ↓reduceIte] at h₂
      split at h₂
      · rename_i ck cv
        simp only [Except.pure_eq_ok, Except.ok.injEq, Prod.mk.injEq] at h₂
        rw [← h₂.2]
        exact canon_short_append hnt hnn
      · rename_i hns
        simp only [Except.pure_eq_ok, Except.ok.injEq, Prod.mk.injEq] at h₂
        rw [← h₂.2]
        exact ⟨hc.1, Or.inr ⟨hnt, hnn.isFull_of_not_short hns, hnn⟩⟩
  | full cs ih =>
    intro hc pfx key hkey d n' h
    obtain ⟨i, rest, rfl⟩ := List.exists_cons_of_ne_nil hkey.ne_nil
    obtain ⟨hslot, j₁, j₂, hj, h₁, h₂⟩ := canon_full_iff.mp hc
    rw [Trie.delete_full_cons] at h
    obtain ⟨⟨d₀, nn⟩, hdel, hrest⟩ := Except.bind_eq_ok_iff.mp h
    have hnn : CanonSlot i nn := by
      rcases terminated_cons.mp hkey with ⟨rfl, rfl⟩ | ⟨hi, hr⟩
      · -- the terminator slot: a value or nothing, and nothing after
        have h16 := hslot 16
        simp only [canonSlot_def, ↓reduceIte] at h16
        rcases h16 with hv | hnil
        · obtain ⟨w, hw⟩ := isValue_iff.mp hv
          simp only [hw, Trie.delete_value, Except.ok.injEq, Prod.mk.injEq] at hdel
          rw [← hdel.2]
          exact canonSlot_nil 16
        · simp only [hnil, Trie.delete_nil, Except.ok.injEq, Prod.mk.injEq] at hdel
          rw [← hdel.2]
          exact canonSlot_nil 16
      · have hci := hslot i
        simp only [canonSlot_def, hi, ↓reduceIte] at hci ⊢
        rcases hci with hnil | hci
        · simp only [hnil, Trie.delete_nil, Except.ok.injEq, Prod.mk.injEq] at hdel
          exact Or.inl hdel.2.symm
        · exact (ih i hci _ rest hr d₀ nn hdel).1
    cases d₀
    · simp only [Bool.not_false, ↓reduceIte, Except.pure_eq_ok, Except.ok.injEq, Prod.mk.injEq] at hrest
      rw [← hrest.2]
      exact ⟨Or.inr hc, fun _ => hc⟩
    · simp only [Bool.not_true, Bool.false_eq_true, ↓reduceIte] at hrest
      -- one of the two taken slots is not the one that changed
      obtain ⟨j, hji, hjn⟩ : ∃ j, j ≠ i ∧ cs j ≠ .nil := by
        by_cases h₁i : j₁ = i
        · exact ⟨j₂, fun h => hj (h₁i.trans h.symm), h₂⟩
        · exact ⟨j₁, h₁i, h₁⟩
      have hslot' : ∀ j, CanonSlot j (Function.update cs i nn j) := by
        intro j
        by_cases hji : j = i
        · subst hji
          simpa using hnn
        · rw [Function.update_of_ne hji]
          exact hslot j
      have hjn' : Function.update cs i nn j ≠ .nil := by rwa [Function.update_of_ne hji]
      obtain ⟨n'', hr, hc''⟩ := delete_collapse_canon t hslot' hjn' pfx hrest
      simp only [Except.ok.injEq, Prod.mk.injEq] at hr
      rw [hr.2]
      exact ⟨Or.inr hc'', fun _ => hc''⟩

end Walk

/-! ### Whole runs from the empty trie -/

/-- Canonical roots, the empty one included, with the same map are equal. -/
theorem root_eq_of_lookup_eq {a b : Node} (ha : a = .nil ∨ a.Canon) (hb : b = .nil ∨ b.Canon)
    (h : a.lookup = b.lookup) : a = b := by
  rcases ha with rfl | ha <;> rcases hb with rfl | hb
  · rfl
  · obtain ⟨r, hr⟩ := hb.lookup_ne_empty
    rw [← h] at hr
    exact absurd rfl hr
  · obtain ⟨r, hr⟩ := ha.lookup_ne_empty
    rw [h] at hr
    exact absurd rfl hr
  · exact canon_eq_of_lookup_eq ha b hb h

/-- What holds of every trie that writes build from the empty trie: a canonical or empty
root that stores values under hex forms of keys only, and no database. -/
structure Canonical (t : Trie) : Prop where
  root : t.root = .nil ∨ t.root.Canon
  hex : ∀ r, t.root.lookup r ≠ none → ∃ key, keybytesToHex key = r
  db : t.db = none

theorem emptyTrie_canonical : Canonical emptyTrie :=
  ⟨Or.inl rfl, fun _ h => absurd rfl h, rfl⟩

namespace Canonical

variable {t : Trie}

theorem good (h : Canonical t) : t.root.Good := by
  rcases h.root with h | h
  · rw [h]
    exact good_nil
  · exact h.good

/-- A new root that is canonical or empty and updates the map at a hex key keeps the trie
`Canonical`. -/
theorem root_update (h : Canonical t) {n : Node} (hn : n = .nil ∨ n.Canon) {key : Bytes}
    {x : Option Bytes} (hl : n.lookup = Function.update t.root.lookup (keybytesToHex key) x) :
    Canonical { t with root := n } := by
  refine ⟨hn, fun r hr => ?_, h.db⟩
  change n.lookup r ≠ none at hr
  by_cases hrk : r = keybytesToHex key
  · exact ⟨key, hrk.symm⟩
  · rw [hl, Function.update_of_ne hrk] at hr
    exact h.hex r hr

theorem tryDelete (h : Canonical t) {key : Bytes} {t' : Trie} (ht : t.TryDelete key = .ok t') :
    Canonical t' := by
  simp only [TryDelete] at ht
  obtain ⟨⟨d, n⟩, hdel, ht'⟩ := Except.bind_eq_ok_iff.mp ht
  simp only [Except.pure_eq_ok, Except.ok.injEq] at ht'
  subst ht'
  rw [deleteFuel] at hdel
  obtain ⟨d', n', hdel', -, hlook, -⟩ := delete_good t _ t.root h.good [] (keybytesToHex key)
    (keybytesToHex_terminated key)
  rw [hdel', Except.ok.injEq, Prod.mk.injEq] at hdel
  obtain ⟨-, rfl⟩ := hdel
  have hn : n' = .nil ∨ n'.Canon := by
    rcases h.root with hnil | hc
    · -- deleting from the empty trie leaves it empty
      rw [hnil] at hdel'
      simp only [Trie.delete_nil, Except.ok.injEq, Prod.mk.injEq] at hdel'
      exact Or.inl hdel'.2.symm
    · exact (delete_canon t _ t.root hc [] _ (keybytesToHex_terminated key) d' n' hdel').1
  exact h.root_update hn hlook

theorem tryUpdate (h : Canonical t) {key value : Bytes} {t' : Trie}
    (ht : t.TryUpdate key value = .ok t') : Canonical t' := by
  simp only [TryUpdate] at ht
  split at ht
  · obtain ⟨⟨d, n⟩, hins, ht'⟩ := Except.bind_eq_ok_iff.mp ht
    simp only [Except.pure_eq_ok, Except.ok.injEq] at ht'
    subst ht'
    rw [insertFuel] at hins
    obtain ⟨d', n', hins', -, hlook, -⟩ := insert_good t _ value t.root h.good [] (keybytesToHex key)
      (keybytesToHex_terminated key)
    rw [hins', Except.ok.injEq, Prod.mk.injEq] at hins
    obtain ⟨-, rfl⟩ := hins
    exact h.root_update
      (Or.inr (insert_canon t _ value t.root h.root [] _ (keybytesToHex_terminated key) d' n' hins'))
      hlook
  · exact h.tryDelete ht

/-- The run lemma: every trie that the writes pass through is `Canonical`. -/
theorem applyAll (h : Canonical t) {ops : List Op} {t' : Trie} (ht : t.applyAll ops = .ok t') :
    Canonical t' := by
  induction ops generalizing t with
  | nil =>
    simp only [Trie.applyAll, List.foldlM_nil, Except.pure_eq_ok, Except.ok.injEq] at ht
    rw [← ht]
    exact h
  | cons op ops ih =>
    simp only [Trie.applyAll, List.foldlM_cons] at ht
    obtain ⟨t₁, h₁, h₂⟩ := Except.bind_eq_ok_iff.mp ht
    have hc₁ : Canonical t₁ := by
      cases op with
      | update key value => exact h.tryUpdate h₁
      | delete key => exact h.tryDelete h₁
    exact ih hc₁ h₂

end Canonical

/-- Two tries that hold the same map and are `Canonical` are the same trie. -/
theorem Canonical.eq_of_holds {t₁ t₂ : Trie} {m : Bytes → Option Bytes} (c₁ : Canonical t₁)
    (c₂ : Canonical t₂) (h₁ : Holds t₁ m) (h₂ : Holds t₂ m) : t₁ = t₂ := by
  have hlook : t₁.root.lookup = t₂.root.lookup := by
    funext r
    by_cases hr : ∃ key, keybytesToHex key = r
    · obtain ⟨key, rfl⟩ := hr
      exact (congrFun h₁.lookup key).trans (congrFun h₂.lookup key).symm
    · have e₁ : t₁.root.lookup r = none := by
        by_contra hne
        exact hr (c₁.hex r hne)
      have e₂ : t₂.root.lookup r = none := by
        by_contra hne
        exact hr (c₂.hex r hne)
      rw [e₁, e₂]
  have hroot := root_eq_of_lookup_eq c₁.root c₂.root hlook
  have hdb : t₁.db = t₂.db := c₁.db.trans c₂.db.symm
  cases t₁
  cases t₂
  simp only at hroot hdb
  rw [hroot, hdb]

/-- History independence: two sequences of writes that leave the same reference map build
the same trie. -/
theorem applyAll_eq_of_refMap_eq {ops₁ ops₂ : List Op} (h : refMap ops₁ = refMap ops₂) :
    ∃ t, emptyTrie.applyAll ops₁ = .ok t ∧ emptyTrie.applyAll ops₂ = .ok t := by
  obtain ⟨t₁, hrun₁, hh₁⟩ := emptyTrie_holds.applyAll ops₁
  obtain ⟨t₂, hrun₂, hh₂⟩ := emptyTrie_holds.applyAll ops₂
  have c₁ := emptyTrie_canonical.applyAll hrun₁
  have c₂ := emptyTrie_canonical.applyAll hrun₂
  rw [← refMap, h] at hh₁
  rw [← refMap] at hh₂
  refine ⟨t₁, hrun₁, ?_⟩
  rw [c₁.eq_of_holds c₂ hh₁ hh₂]
  exact hrun₂

end Ccmchain.Trie
