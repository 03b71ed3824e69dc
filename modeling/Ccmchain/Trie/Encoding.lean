import Mathlib

/-!
# Trie key encodings (`trie/encoding.go`)

A trie key is handled in three encodings. KEYBYTES is the key as the caller gives it.
HEX has one element per nibble and, for keys that reach a value, the terminator 16 at the
end; the in-memory nodes use it. COMPACT ("hex prefix" in the Yellow Paper) packs two
nibbles a byte behind a flag byte and is what the hasher writes.

A hex nibble is a `Fin 17`: the Go code keeps it in a byte, but every hex key it builds
(`keybytesToHex`, `compactToHex`) holds values up to 16 only, and a full node indexes its
17 children with it.
-/

namespace Ccmchain.Trie

/-- Go `[]byte`. -/
abbrev Bytes := List UInt8

/-- One element of a HEX key: a nibble, or the terminator 16. -/
abbrev Nibble := Fin 17

/-- The literals of `Nibble` (the terminator `16` above all) all rest on this one instance. -/
instance nibble_neZero : NeZero (17 : Nat) := ⟨by decide⟩

/-- The high nibble of a byte. -/
def hiNibble (b : UInt8) : Nibble := ⟨b.toNat / 16, by have := b.toNat_lt; omega⟩

/-- The low nibble of a byte. -/
def loNibble (b : UInt8) : Nibble := ⟨b.toNat % 16, by omega⟩

theorem hiNibble_val (b : UInt8) : (hiNibble b).val = b.toNat / 16 := rfl

theorem loNibble_val (b : UInt8) : (loNibble b).val = b.toNat % 16 := rfl

/-- `keybytesToHex`: two nibbles per byte, high first, then the terminator. -/
def keybytesToHex (str : Bytes) : List Nibble :=
  str.flatMap (fun b => [hiNibble b, loNibble b]) ++ [16]

/-- `hasTerm`: whether a hex key ends with the terminator. -/
def hasTerm (s : List Nibble) : Bool :=
  s.getLast? == some 16

/-- `decodeNibbles`: packs pairs of nibbles into bytes, high nibble first. The callers only
pass an even number of nibbles (an odd one would index past the end in Go). -/
def decodeNibbles : List Nibble → Bytes
  | a :: b :: rest => ((a.val.toUInt8 <<< 4) ||| b.val.toUInt8) :: decodeNibbles rest
  | _ => []

/-- `hexToKeybytes`; `none` stands for its panic on a key of odd length. -/
def hexToKeybytes (hex : List Nibble) : Option Bytes :=
  let hex := if hasTerm hex then hex.dropLast else hex
  if hex.length % 2 ≠ 0 then none else some (decodeNibbles hex)

/-- `hexToCompact`: the flag byte holds the terminator flag (bit 5), the odd flag (bit 4)
and, for an odd length, the first nibble. -/
def hexToCompact (hex : List Nibble) : Bytes :=
  let terminator : UInt8 := if hasTerm hex then 1 else 0
  let hex := if hasTerm hex then hex.dropLast else hex
  match hex.length % 2, hex with
  | 1, h :: rest => ((terminator <<< 5) ||| ((1 : UInt8) <<< 4) ||| h.val.toUInt8) :: decodeNibbles rest
  | _, _ => (terminator <<< 5) :: decodeNibbles hex

/-- `compactToHex`: undoes the flag byte of `hexToCompact`. -/
def compactToHex (compact : Bytes) : List Nibble :=
  match compact with
  | [] => []
  | c :: _ =>
    let base := keybytesToHex compact
    -- `base[0]` is the flag nibble: below 2 means no terminator flag
    let base := if (hiNibble c).val < 2 then base.dropLast else base
    base.drop (2 - (hiNibble c).val % 2)

/-- `prefixLen`: the length of the common prefix of `a` and `b`. -/
def prefixLen {α : Type} [DecidableEq α] : List α → List α → Nat
  | a :: as, b :: bs => if a = b then prefixLen as bs + 1 else 0
  | _, _ => 0

section PrefixLen

variable {α : Type} [DecidableEq α]

@[simp] theorem prefixLen_nil_left (b : List α) : prefixLen [] b = 0 := rfl

@[simp] theorem prefixLen_cons_nil (x : α) (as : List α) : prefixLen (x :: as) [] = 0 := rfl

theorem prefixLen_cons_cons (x y : α) (as bs : List α) :
    prefixLen (x :: as) (y :: bs) = if x = y then prefixLen as bs + 1 else 0 := rfl

theorem prefixLen_le_left (a b : List α) : prefixLen a b ≤ a.length := by
  induction a generalizing b with
  | nil => simp
  | cons x as ih =>
    cases b with
    | nil => simp
    | cons y bs =>
      simp only [prefixLen_cons_cons, List.length_cons]
      split
      · have := ih bs; omega
      · omega

theorem prefixLen_le_right (a b : List α) : prefixLen a b ≤ b.length := by
  induction a generalizing b with
  | nil => simp
  | cons x as ih =>
    cases b with
    | nil => simp
    | cons y bs =>
      simp only [prefixLen_cons_cons, List.length_cons]
      split
      · have := ih bs; omega
      · omega

theorem prefixLen_comm (a b : List α) : prefixLen a b = prefixLen b a := by
  induction a generalizing b with
  | nil => cases b <;> simp
  | cons x as ih =>
    cases b with
    | nil => simp
    | cons y bs =>
      simp only [prefixLen_cons_cons, ih bs]
      by_cases h : x = y
      · simp [h]
      · simp [h, Ne.symm h]

/-- Both lists agree on their first `prefixLen` elements. -/
theorem take_prefixLen (a b : List α) : a.take (prefixLen a b) = b.take (prefixLen a b) := by
  induction a generalizing b with
  | nil => simp
  | cons x as ih =>
    cases b with
    | nil => simp
    | cons y bs =>
      simp only [prefixLen_cons_cons]
      split
      · rename_i h
        subst h
        simp [ih bs]
      · simp

/-- Where the common prefix stops short of both ends, the next elements differ. -/
theorem getElem_prefixLen_ne (a b : List α) (ha : prefixLen a b < a.length)
    (hb : prefixLen a b < b.length) : a[prefixLen a b] ≠ b[prefixLen a b] := by
  induction a generalizing b with
  | nil => simp at ha
  | cons x as ih =>
    cases b with
    | nil => simp at hb
    | cons y bs =>
      simp only [prefixLen_cons_cons] at ha hb ⊢
      split
      · rename_i h
        simp only [h, ↓reduceIte, List.length_cons] at ha hb
        simpa [h] using ih bs (by omega) (by omega)
      · rename_i h
        simpa using h

/-- A list that is a prefix of `b` is its own common prefix with `b`. -/
theorem prefixLen_of_prefix {a b : List α} (h : a <+: b) : prefixLen a b = a.length := by
  obtain ⟨t, rfl⟩ := h
  induction a with
  | nil => simp
  | cons x as ih => simp [prefixLen_cons_cons, ih]

/-- The common prefix has full length on the left exactly when the left list is a prefix. -/
theorem prefixLen_eq_length_iff (a b : List α) : prefixLen a b = a.length ↔ a <+: b := by
  refine ⟨fun h => ?_, prefixLen_of_prefix⟩
  have ht := take_prefixLen a b
  rw [h, List.take_length] at ht
  rw [ht]
  exact List.take_prefix _ _

end PrefixLen

/-! ### Terminated hex keys -/

/-- A hex key as `keybytesToHex` builds it, or a suffix of one: nibbles below 16 and then
the terminator, which is the last element and the only 16. -/
def Terminated (k : List Nibble) : Prop :=
  ∃ ks, k = ks ++ [16] ∧ 16 ∉ ks

theorem Terminated.ne_nil {k : List Nibble} (h : Terminated k) : k ≠ [] := by
  obtain ⟨ks, rfl, -⟩ := h
  simp

theorem terminated_cons {a : Nibble} {k : List Nibble} :
    Terminated (a :: k) ↔ (a = 16 ∧ k = []) ∨ (a ≠ 16 ∧ Terminated k) := by
  constructor
  · rintro ⟨ks, hk, hn⟩
    cases ks with
    | nil =>
      simp only [List.nil_append, List.cons.injEq] at hk
      exact Or.inl hk
    | cons b ks =>
      simp only [List.cons_append, List.cons.injEq] at hk
      obtain ⟨rfl, rfl⟩ := hk
      simp only [List.mem_cons, not_or] at hn
      exact Or.inr ⟨Ne.symm hn.1, ks, rfl, hn.2⟩
  · rintro (⟨rfl, rfl⟩ | ⟨ha, ks, rfl, hn⟩)
    · exact ⟨[], rfl, by simp⟩
    · refine ⟨a :: ks, rfl, ?_⟩
      simp only [List.mem_cons, not_or]
      exact ⟨Ne.symm ha, hn⟩

/-- Dropping a prefix that carries no terminator leaves a terminated key. -/
theorem Terminated.append_right {p k : List Nibble} (h : Terminated (p ++ k)) (hp : 16 ∉ p) :
    Terminated k := by
  induction p with
  | nil => simpa using h
  | cons a p ih =>
    simp only [List.mem_cons, not_or] at hp
    rcases terminated_cons.mp h with ⟨ha, -⟩ | ⟨-, hk⟩
    · exact absurd ha.symm hp.1
    · exact ih hk hp.2

theorem Terminated.mem {k : List Nibble} (h : Terminated k) : 16 ∈ k := by
  obtain ⟨ks, rfl, -⟩ := h
  simp

theorem Terminated.not_mem_of_append {p k : List Nibble} (h : Terminated (p ++ k)) (hk : k ≠ []) :
    16 ∉ p := by
  induction p with
  | nil => simp
  | cons a p ih =>
    rcases terminated_cons.mp h with ⟨-, hpk⟩ | ⟨ha, hpk⟩
    · exact absurd (List.append_eq_nil_iff.mp hpk).2 hk
    · simp only [List.mem_cons, not_or]
      exact ⟨Ne.symm ha, ih hpk⟩

/-- Two terminated keys, one a prefix of the other, are equal. -/
theorem Terminated.eq_of_prefix {a b : List Nibble} (ha : Terminated a) (hb : Terminated b)
    (h : a <+: b) : a = b := by
  obtain ⟨t, rfl⟩ := h
  by_cases ht : t = []
  · simp [ht]
  · exact absurd ha.mem (hb.not_mem_of_append ht)

theorem keybytesToHex_terminated (str : Bytes) : Terminated (keybytesToHex str) := by
  refine ⟨_, rfl, ?_⟩
  simp only [List.mem_flatMap, List.mem_cons, List.not_mem_nil, or_false, not_exists, not_and]
  intro b _ h
  rcases h with h | h
  · have := congrArg Fin.val h
    simp only [hiNibble_val] at this
    have := b.toNat_lt
    omega
  · have := congrArg Fin.val h
    simp only [loNibble_val] at this
    omega

theorem hiNibble_loNibble_inj {a b : UInt8} (hh : hiNibble a = hiNibble b)
    (hl : loNibble a = loNibble b) : a = b := by
  have h1 := congrArg Fin.val hh
  have h2 := congrArg Fin.val hl
  simp only [hiNibble_val, loNibble_val] at h1 h2
  apply UInt8.toNat_inj.mp
  omega

/-- Distinct keys have distinct hex encodings. -/
theorem keybytesToHex_injective : Function.Injective keybytesToHex := by
  intro a b h
  simp only [keybytesToHex, List.append_cancel_right_eq] at h
  induction a generalizing b with
  | nil =>
    cases b with
    | nil => rfl
    | cons y ys => simp at h
  | cons x xs ih =>
    cases b with
    | nil => simp at h
    | cons y ys =>
      simp only [List.flatMap_cons, List.cons_append, List.nil_append, List.cons.injEq] at h
      obtain ⟨h1, h2, h3⟩ := h
      rw [hiNibble_loNibble_inj h1 h2, ih h3]

/-! ### Round trips

The three encodings are inverse where the Go comments say they are. All of it rests on one
fact about a byte: `decodeNibbles` packs two nibbles as `hi <<< 4 ||| lo`, and `hiNibble` and
`loNibble` split that byte back into them. `compactToHex` undoes `hexToCompact` on every key a
node can carry, nibbles below 16 with or without the terminator at the end: it reads the flag
byte back through its high nibble, whose low bit says odd and whose next bit says terminated. -/

theorem toNat_packNibbles {a b : Nat} (ha : a < 16) (hb : b < 16) :
    ((a.toUInt8 <<< 4) ||| b.toUInt8).toNat = a * 16 + b := by
  have hb' : b < 2 ^ 4 := hb
  rw [UInt8.toNat_or, UInt8.toNat_shiftLeft]
  simp only [Nat.toUInt8, UInt8.toNat_ofNat']
  rw [Nat.mod_eq_of_lt (show a < 2 ^ 8 by omega), Nat.mod_eq_of_lt (show b < 2 ^ 8 by omega)]
  rw [show (4 : UInt8).toNat % 8 = 4 from rfl, Nat.mod_eq_of_lt (by rw [Nat.shiftLeft_eq]; omega),
    ← Nat.shiftLeft_add_eq_or_of_lt hb', Nat.shiftLeft_eq]

theorem val_lt_of_ne_terminator {a : Nibble} (h : a ≠ 16) : a.val < 16 := by
  have hv : a.val ≠ 16 := fun e => h (Fin.ext e)
  have := a.isLt
  omega

/-- The byte `decodeNibbles` packs two nibbles into splits back into them. -/
theorem nibbles_pack (a b : Nibble) (ha : a ≠ 16) (hb : b ≠ 16) :
    hiNibble ((a.val.toUInt8 <<< 4) ||| b.val.toUInt8) = a ∧
      loNibble ((a.val.toUInt8 <<< 4) ||| b.val.toUInt8) = b := by
  have hab := toNat_packNibbles (val_lt_of_ne_terminator ha) (val_lt_of_ne_terminator hb)
  have hb' := val_lt_of_ne_terminator hb
  constructor <;> apply Fin.ext <;> simp only [hiNibble_val, loNibble_val, hab] <;> omega

/-- Every byte is the packing of its own two nibbles. -/
theorem pack_hiNibble_loNibble (b : UInt8) :
    ((hiNibble b).val.toUInt8 <<< 4) ||| (loNibble b).val.toUInt8 = b := by
  have hb := b.toNat_lt
  apply UInt8.toNat_inj.mp
  rw [toNat_packNibbles (by simp only [hiNibble_val]; omega) (by simp only [loNibble_val]; omega)]
  simp only [hiNibble_val, loNibble_val]
  omega

theorem length_flatMap_nibbles (k : Bytes) :
    (k.flatMap fun b => [hiNibble b, loNibble b]).length = 2 * k.length := by
  induction k with
  | nil => rfl
  | cons b k ih => simp [ih]; omega

theorem decodeNibbles_flatMap (k : Bytes) :
    decodeNibbles (k.flatMap fun b => [hiNibble b, loNibble b]) = k := by
  induction k with
  | nil => rfl
  | cons b k ih =>
    simp only [List.flatMap_cons, List.cons_append, List.nil_append, decodeNibbles,
      pack_hiNibble_loNibble, ih]

/-- The flag byte of a key of even length. -/
theorem nibbles_flag_even (t : Bool) :
    hiNibble ((if t then 1 else 0 : UInt8) <<< 5) = (if t then 2 else 0) ∧
      loNibble ((if t then 1 else 0 : UInt8) <<< 5) = 0 := by
  cases t <;> decide

/-- The flag byte of a key of odd length, which carries the first nibble. -/
theorem nibbles_flag_odd (t : Bool) (h : Nibble) (h16 : h ≠ 16) :
    hiNibble (((if t then 1 else 0 : UInt8) <<< 5) ||| ((1 : UInt8) <<< 4) ||| h.val.toUInt8) =
        (if t then 3 else 1) ∧
      loNibble (((if t then 1 else 0 : UInt8) <<< 5) ||| ((1 : UInt8) <<< 4) ||| h.val.toUInt8) = h := by
  revert h
  cases t <;> decide +kernel

theorem flatMap_decodeNibbles : ∀ ks : List Nibble, 16 ∉ ks → ks.length % 2 = 0 →
    (decodeNibbles ks).flatMap (fun b => [hiNibble b, loNibble b]) = ks
  | [], _, _ => rfl
  | [_], _, h => by simp at h
  | a :: b :: rest, h16, h => by
    simp only [List.mem_cons, not_or] at h16
    obtain ⟨hhi, hlo⟩ := nibbles_pack a b (Ne.symm h16.1) (Ne.symm h16.2.1)
    have ih := flatMap_decodeNibbles rest h16.2.2 (by simp at h; omega)
    simp only [decodeNibbles, List.flatMap_cons, hhi, hlo, ih, List.cons_append, List.nil_append]

theorem hasTerm_of_not_mem {ks : List Nibble} (h16 : 16 ∉ ks) : hasTerm ks = false := by
  simp only [hasTerm, beq_eq_false_iff_ne, ne_eq]
  intro h
  exact h16 (List.mem_of_getLast? h)

theorem compactToHex_hexToCompact_of_term (t : Bool) {ks : List Nibble} (h16 : 16 ∉ ks) :
    compactToHex (hexToCompact (if t then ks ++ [16] else ks)) = if t then ks ++ [16] else ks := by
  have ht : hasTerm (if t then ks ++ [16] else ks) = t := by
    cases t
    · exact hasTerm_of_not_mem h16
    · simp [hasTerm]
  have hd : (if hasTerm (if t then ks ++ [16] else ks) then (if t then ks ++ [16] else ks).dropLast
      else if t then ks ++ [16] else ks) = ks := by
    rw [ht]
    cases t <;> simp
  unfold hexToCompact
  simp only [hd]
  rw [ht]
  split
  · -- odd length: the flag byte carries the first nibble
    rename_i h rest hodd
    simp only [List.mem_cons, not_or] at h16
    obtain ⟨hhi, hlo⟩ := nibbles_flag_odd t h (Ne.symm h16.1)
    have hrest := flatMap_decodeNibbles rest h16.2 (by simp at hodd; omega)
    simp only [compactToHex, keybytesToHex, List.flatMap_cons, hhi, hlo, hrest]
    cases t <;> simp [List.dropLast_cons_of_ne_nil]
  · rename_i ks _ _ hne
    have heven : ks.length % 2 = 0 := by
      rcases ks with _ | ⟨h, rest⟩
      · rfl
      · by_contra hc
        exact hne h rest (by omega) rfl
    obtain ⟨hhi, hlo⟩ := nibbles_flag_even t
    have hks := flatMap_decodeNibbles ks h16 heven
    simp only [compactToHex, keybytesToHex, List.flatMap_cons, hhi, hlo, hks]
    cases t <;> simp [List.dropLast_cons_of_ne_nil]

theorem compactToHex_hexToCompact {k : List Nibble} (hk : Terminated k ∨ 16 ∉ k) :
    compactToHex (hexToCompact k) = k := by
  rcases hk with ⟨ks, rfl, h16⟩ | h16
  · exact compactToHex_hexToCompact_of_term true h16
  · exact compactToHex_hexToCompact_of_term false h16

theorem hasTerm_append_terminator (h : List Nibble) : hasTerm (h ++ [16]) = true := by
  simp [hasTerm]

theorem hexToKeybytes_keybytesToHex (k : Bytes) : hexToKeybytes (keybytesToHex k) = some k := by
  simp only [hexToKeybytes, keybytesToHex, hasTerm_append_terminator, ↓reduceIte,
    List.dropLast_concat, length_flatMap_nibbles, Nat.mul_mod_right, ne_eq, not_true_eq_false,
    decodeNibbles_flatMap]

theorem hexToKeybytes_of_even {h : List Nibble} (hn : 16 ∉ h) (he : h.length % 2 = 0) :
    hexToKeybytes h = some (decodeNibbles h) := by
  simp [hexToKeybytes, hasTerm_of_not_mem hn, he]

theorem keybytesToHex_decodeNibbles {h : List Nibble} (hn : 16 ∉ h) (he : h.length % 2 = 0) :
    keybytesToHex (decodeNibbles h) = h ++ [16] := by
  rw [keybytesToHex, flatMap_decodeNibbles h hn he]

/-- The key encodings of the trie are mutually inverse: byte keys survive HEX, nibble keys
with or without the terminator survive COMPACT, and an even unterminated nibble key
survives KEYBYTES (and gets the terminator back). -/
theorem trie_key_encodings_inverse :
    (∀ k : Bytes, hexToKeybytes (keybytesToHex k) = some k) ∧
    (∀ ns : List Nibble, 16 ∉ ns →
      compactToHex (hexToCompact ns) = ns ∧
        compactToHex (hexToCompact (ns ++ [16])) = ns ++ [16]) ∧
    (∀ h : List Nibble, 16 ∉ h → h.length % 2 = 0 →
      (hexToKeybytes h).map keybytesToHex = some (h ++ [16])) := by
  refine ⟨hexToKeybytes_keybytesToHex, fun ns hn => ?_, fun h hn he => ?_⟩
  · exact ⟨compactToHex_hexToCompact (.inr hn), compactToHex_hexToCompact (.inl ⟨ns, rfl, hn⟩)⟩
  · rw [hexToKeybytes_of_even hn he, Option.map_some, keybytesToHex_decodeNibbles hn he]

end Ccmchain.Trie
