import Ccmchain.Core.TxSortedMap
import Ccmchain.Common.Math

/-!
# Per-account transaction lists (`core/tx_list.go`)

`txList` wraps a `txSortedMap` with two caps: `costcap`, the highest `Cost` it accepted, and
`gascap`, the highest `Gas`. `Add` only raises them and `Filter` lowers them to its limits;
neither recomputes them, and `Filter` trusts them to skip its scan when both limits are at
least the caps. `Valid` says the caps bound every transaction, and every operation keeps it, so
the skip never hides a transaction over a limit.

A strict list (an account's pending transactions) must stay gap-free: `Filter` and `Remove` then
also drop every transaction above the lowest nonce they removed, and what is left is a prefix of
the sorted list.
-/

namespace Ccmchain.Core

open Ccmchain.Types Ccmchain.Common

/-- `txList`. -/
structure TxList where
  strict : Bool
  txs : TxSortedMap
  costcap : Int
  gascap : UInt64

/-- `newTxList`. -/
def newTxList (strict : Bool) : TxList := ⟨strict, newTxSortedMap, 0, 0⟩

/-- `Filter`'s predicate: a cost over the cost limit or a gas limit over the gas limit. -/
def overLimits (costLimit : Int) (gasLimit : UInt64) (tx : TxData) : Bool :=
  decide (costLimit < tx.Cost) || decide (gasLimit < tx.Gas)

/-- The loop of strict `Filter` that finds the lowest removed nonce, from `math.MaxUint64`. -/
def lowestNonce (removed : List TxData) : UInt64 :=
  removed.foldl (fun lowest tx => if tx.Nonce < lowest then tx.Nonce else lowest) MaxUint64

namespace TxList

/-- `Overlaps`. -/
def Overlaps (l : TxList) (tx : TxData) : Bool := (l.txs.Get tx.Nonce).isSome

/-- The accepting end of `Add`: store the transaction and raise the caps to it. -/
def accept (l : TxList) (tx : TxData) : TxList :=
  { l with
    txs := l.txs.Put tx
    costcap := if l.costcap < tx.Cost then tx.Cost else l.costcap
    gascap := if l.gascap < tx.Gas then tx.Gas else l.gascap }

/-- `Add`: a replacement must pay more than the old price and at least the threshold,
`priceBump` percent above it (`100 + int64(priceBump)` is `int64` arithmetic). -/
def Add (l : TxList) (tx : TxData) (priceBump : UInt64) : TxList × Bool × Option TxData :=
  match l.txs.Get tx.Nonce with
  | some old =>
    let threshold := old.GasPrice * (100 + priceBump.toInt64).toInt / 100
    if tx.GasPrice ≤ old.GasPrice ∨ tx.GasPrice < threshold then (l, false, none)
    else (l.accept tx, true, some old)
  | none => (l.accept tx, true, none)

/-- `Forward`. -/
def Forward (l : TxList) (threshold : UInt64) : TxList × List TxData :=
  let r := l.txs.Forward threshold
  ({ l with txs := r.1 }, r.2)

/-- `Filter`: the removed transactions, then (strict lists only) the ones invalidated above the
lowest removed nonce. -/
def Filter (l : TxList) (costLimit : Int) (gasLimit : UInt64) :
    TxList × List TxData × List TxData :=
  if l.costcap ≤ costLimit ∧ l.gascap ≤ gasLimit then (l, [], [])
  else
    let r := l.txs.Filter (overLimits costLimit gasLimit)
    if l.strict ∧ 0 < r.2.length then
      let lowest := lowestNonce r.2
      let i := r.1.Filter fun tx => decide (lowest < tx.Nonce)
      ({ l with txs := i.1, costcap := costLimit, gascap := gasLimit }, r.2, i.2)
    else ({ l with txs := r.1, costcap := costLimit, gascap := gasLimit }, r.2, [])

/-- `Cap`; `none` is the panic of a negative threshold. -/
def Cap (l : TxList) (threshold : Int) : Option (TxList × List TxData) :=
  (l.txs.Cap threshold).map fun r => ({ l with txs := r.1 }, r.2)

/-- `Remove`: whether the nonce was present, and in a strict list what it invalidated. -/
def Remove (l : TxList) (tx : TxData) : TxList × Bool × List TxData :=
  let nonce := tx.Nonce
  let r := l.txs.Remove nonce
  if !r.2 then ({ l with txs := r.1 }, false, [])
  else if l.strict then
    let i := r.1.Filter fun tx => decide (nonce < tx.Nonce)
    ({ l with txs := i.1 }, true, i.2)
  else ({ l with txs := r.1 }, true, [])

/-- `Ready`. -/
def Ready (l : TxList) (start : UInt64) : TxList × List TxData :=
  let r := l.txs.Ready start
  ({ l with txs := r.1 }, r.2)

/-- `Len`. -/
def Len (l : TxList) : Nat := l.txs.Len

/-- `Empty`. -/
def Empty (l : TxList) : Bool := l.Len == 0

/-- `Flatten`. -/
def Flatten (l : TxList) : TxList × List TxData :=
  let r := l.txs.Flatten
  ({ l with txs := r.1 }, r.2)

end TxList

/-! ## The caps bound the list -/

/-- Both caps bound every transaction in the map. -/
def CapsBound (costcap : Int) (gascap : UInt64) (m : TxSortedMap) : Prop :=
  ∀ tx ∈ sortedTxs m.items, tx.Cost ≤ costcap ∧ tx.Gas ≤ gascap

/-- A `txList`'s map is valid and its caps bound it. -/
structure TxList.Valid (l : TxList) : Prop where
  txs : l.txs.Valid
  caps : CapsBound l.costcap l.gascap l.txs

section Caps

variable {c : Int} {g : UInt64} {m m' : TxSortedMap}

theorem CapsBound.mono (h : CapsBound c g m) (hsub : sortedTxs m'.items ⊆ sortedTxs m.items) :
    CapsBound c g m' := fun tx htx => h tx (hsub htx)

theorem capsBound_of_not_over (h : ∀ tx ∈ sortedTxs m.items, overLimits c g tx = false) :
    CapsBound c g m := fun tx htx => by
  have hnot := h tx htx
  simp only [overLimits, Bool.or_eq_false_iff, decide_eq_false_iff_not, not_lt] at hnot
  exact hnot

/-- Neither cap is over the limits: no transaction is. -/
theorem CapsBound.not_over {c' : Int} {g' : UInt64} (h : CapsBound c g m) (hc : c ≤ c')
    (hg : g ≤ g') : ∀ tx ∈ sortedTxs m.items, overLimits c' g' tx = false := fun tx htx => by
  obtain ⟨hcost, hgas⟩ := h tx htx
  simp only [overLimits, Bool.or_eq_false_iff, decide_eq_false_iff_not, not_lt]
  exact ⟨le_trans hcost hc, le_trans hgas hg⟩

end Caps

theorem mem_sortedTxs_put {m : TxSortedMap} {tx tx' : TxData}
    (h : tx' ∈ sortedTxs (m.Put tx).items) : tx' = tx ∨ tx' ∈ sortedTxs m.items := by
  rw [mem_sortedTxs] at h ⊢
  simp only [TxSortedMap.Put, txsOf, AList.entries_insert, List.map_cons, List.mem_cons] at h
  rcases h with h | h
  · exact .inl h
  · exact .inr (((List.kerase_sublist _ _).map _).subset h)

/-! ## Lowest nonces and prefixes -/

theorem foldl_lowest (l : List TxData) : ∀ a : UInt64,
    let r := l.foldl (fun lowest tx => if tx.Nonce < lowest then tx.Nonce else lowest) a
    r ≤ a ∧ (∀ tx ∈ l, r ≤ tx.Nonce) ∧ (r = a ∨ ∃ tx ∈ l, tx.Nonce = r) := by
  induction l with
  | nil => intro a; simp
  | cons x l ih =>
    intro a
    obtain ⟨h1, h2, h3⟩ := ih (if x.Nonce < a then x.Nonce else a)
    -- one round keeps the smaller of the two
    have hb : (if x.Nonce < a then x.Nonce else a) ≤ a ∧ (if x.Nonce < a then x.Nonce else a) ≤ x.Nonce ∧
        ((if x.Nonce < a then x.Nonce else a) = a ∨ (if x.Nonce < a then x.Nonce else a) = x.Nonce) := by
      split_ifs with hx
      · exact ⟨le_of_lt hx, le_refl _, .inr rfl⟩
      · exact ⟨le_refl _, not_lt.1 hx, .inl rfl⟩
    refine ⟨le_trans h1 hb.1, fun tx htx => ?_, ?_⟩
    · rcases List.mem_cons.1 htx with rfl | htx
      · exact le_trans h1 hb.2.1
      · exact h2 tx htx
    · rcases h3 with h3 | ⟨tx, htx, heq⟩
      · rcases hb.2.2 with hba | hbx
        · exact .inl (h3.trans hba)
        · exact .inr ⟨x, List.mem_cons_self, (h3.trans hbx).symm⟩
      · exact .inr ⟨tx, List.mem_cons_of_mem _ htx, heq⟩

/-- The lowest nonce of a non-empty list is one of its nonces and at most each of them. -/
theorem lowestNonce_spec {removed : List TxData} (hne : removed ≠ []) :
    (∃ tx ∈ removed, tx.Nonce = lowestNonce removed) ∧
      ∀ tx ∈ removed, lowestNonce removed ≤ tx.Nonce := by
  obtain ⟨-, hle, hmem⟩ := foldl_lowest removed MaxUint64
  refine ⟨?_, hle⟩
  rcases hmem with heq | hex
  · -- the start value was never undercut, so every nonce is `MaxUint64`
    obtain ⟨x, hx⟩ := List.exists_mem_of_ne_nil _ hne
    refine ⟨x, hx, le_antisymm ?_ (hle x hx)⟩
    rw [lowestNonce, heq, UInt64.le_iff_toNat_le, toNat_maxUint64]
    have := x.Nonce.toNat_lt
    omega
  · exact hex

/-- On a list sorted by nonce, a predicate closed downwards in the nonce keeps a prefix. -/
theorem filter_eq_takeWhile {l : List TxData} (hs : SortedByNonce l) {p : TxData → Bool}
    (hp : ∀ a b, a.Nonce < b.Nonce → p b = true → p a = true) : l.filter p = l.takeWhile p := by
  induction l with
  | nil => rfl
  | cons a l ih =>
    rw [SortedByNonce, List.pairwise_cons] at hs
    by_cases ha : p a = true
    · simp [ha, ih hs.2]
    · have hl : l.filter p = [] :=
        List.filter_eq_nil_iff.2 fun b hb hpb => ha (hp a b (hs.1 b hb) hpb)
      simp [ha, hl]

/-- The nonces of a list count up by one. -/
def Contiguous (txs : List TxData) : Prop :=
  ∃ a, txs.map (·.Nonce.toNat) = List.range' a txs.length

theorem Contiguous.of_prefix {l l' : List TxData} (h : Contiguous l) (hp : l' <+: l) :
    Contiguous l' := by
  obtain ⟨a, ha⟩ := h
  have htake : l' = l.take l'.length := List.prefix_iff_eq_take.1 hp
  refine ⟨a, ?_⟩
  calc l'.map (·.Nonce.toNat)
      = (l.take l'.length).map (·.Nonce.toNat) := by rw [← htake]
    _ = (l.map (·.Nonce.toNat)).take l'.length := List.map_take
    _ = List.range' a l'.length := by rw [ha, List.take_range'_of_length_ge hp.length_le]

theorem le_ite_lt {α : Type} [LinearOrder α] (a b : α) :
    a ≤ (if a < b then b else a) ∧ b ≤ (if a < b then b else a) := by
  split_ifs with h
  · exact ⟨le_of_lt h, le_refl b⟩
  · exact ⟨le_refl a, not_lt.1 h⟩

/-! ## What strict filtering keeps -/

section Strict

variable {m : TxSortedMap}

/-- Two transactions of a valid map with one nonce are one transaction. -/
theorem eq_of_nonce_eq (hv : m.Valid) {a b : TxData} (ha : a ∈ sortedTxs m.items)
    (hb : b ∈ sortedTxs m.items) (h : a.Nonce = b.Nonce) : a = b := by
  have h1 := hv.indexes.keyed.lookup_nonce (mem_sortedTxs.1 ha)
  have h2 := hv.indexes.keyed.lookup_nonce (mem_sortedTxs.1 hb)
  rw [h, h2] at h1
  exact (Option.some.inj h1).symm

/-- Above the lowest removed nonce means above some removed nonce. -/
theorem lowest_lt_iff {R : List TxData} (hne : R ≠ []) (n : UInt64) :
    decide (lowestNonce R < n) = R.any fun x => decide (x.Nonce < n) := by
  obtain ⟨⟨x0, hx0, hlow⟩, hle⟩ := lowestNonce_spec hne
  rw [Bool.eq_iff_iff, decide_eq_true_iff, List.any_eq_true]
  constructor
  · intro h
    exact ⟨x0, hx0, by rw [hlow]; simpa using h⟩
  · rintro ⟨x, hx, hlt⟩
    exact lt_of_le_of_lt (hle x hx) (by simpa using hlt)

/-- A transaction survives both filters of a strict `Filter` exactly when it lies below every
removed nonce. -/
theorem kept_iff (hv : m.Valid) {f : TxData → Bool} {R : List TxData}
    (hR : List.Perm R ((sortedTxs m.items).filter f)) (hne : R ≠ []) {tx : TxData}
    (htx : tx ∈ sortedTxs m.items) :
    (!f tx && !decide (lowestNonce R < tx.Nonce)) = R.all fun x => decide (tx.Nonce < x.Nonce) := by
  obtain ⟨⟨x0, hx0, hlow⟩, hle⟩ := lowestNonce_spec hne
  have hmemR : ∀ x, x ∈ R ↔ x ∈ sortedTxs m.items ∧ f x = true := fun x => by
    rw [hR.mem_iff, List.mem_filter]
  rw [Bool.eq_iff_iff, List.all_eq_true]
  simp only [Bool.and_eq_true, Bool.not_eq_true', decide_eq_false_iff_not, not_lt,
    decide_eq_true_eq]
  constructor
  · rintro ⟨hf, hbelow⟩ x hx
    obtain ⟨hxS, hfx⟩ := (hmemR x).1 hx
    refine lt_of_le_of_ne (le_trans hbelow (hle x hx)) fun heq => ?_
    rw [eq_of_nonce_eq hv htx hxS heq, hfx] at hf
    cases hf
  · intro hall
    refine ⟨?_, ?_⟩
    · -- a removed transaction would lie below itself
      cases hf : f tx
      · rfl
      · exact absurd (hall tx ((hmemR tx).2 ⟨htx, hf⟩)) (lt_irrefl _)
    · rw [← hlow]
      exact le_of_lt (hall x0 hx0)

end Strict

/-! ## What each operation keeps -/

namespace TxList

variable {l : TxList}

theorem valid_accept (hv : l.Valid) (tx : TxData) : (l.accept tx).Valid := by
  refine ⟨TxSortedMap.valid_put hv.txs tx, fun t ht => ?_⟩
  have hc := le_ite_lt l.costcap tx.Cost
  have hg := le_ite_lt l.gascap tx.Gas
  rcases mem_sortedTxs_put ht with rfl | ht
  · exact ⟨hc.2, hg.2⟩
  · obtain ⟨h1, h2⟩ := hv.caps t ht
    exact ⟨le_trans h1 hc.1, le_trans h2 hg.1⟩

theorem valid_add (hv : l.Valid) (tx : TxData) (priceBump : UInt64) :
    (l.Add tx priceBump).1.Valid := by
  unfold Add
  split
  · dsimp only
    split_ifs
    · exact hv
    · exact valid_accept hv tx
  · exact valid_accept hv tx

theorem valid_forward (hv : l.Valid) (t : UInt64) : (l.Forward t).1.Valid := by
  obtain ⟨hv', -, hview⟩ := TxSortedMap.forward_spec hv.txs t
  have hsub : sortedTxs (l.txs.Forward t).1.items ⊆ sortedTxs l.txs.items := by
    rw [hview]
    exact List.filter_sublist.subset
  exact ⟨hv', hv.caps.mono hsub⟩

/-- `Filter` removes exactly the transactions over a limit, the skip included, and a strict
list also loses every transaction above a removed one and keeps those below all of them. -/
theorem filter_spec (hv : l.Valid) (c : Int) (g : UInt64) :
    (l.Filter c g).1.Valid ∧
      List.Perm (l.Filter c g).2.1 ((sortedTxs l.txs.items).filter (overLimits c g)) ∧
      (l.strict = true →
        List.Perm (l.Filter c g).2.2 ((sortedTxs l.txs.items).filter fun tx =>
          !overLimits c g tx && (l.Filter c g).2.1.any fun x => decide (x.Nonce < tx.Nonce)) ∧
        sortedTxs (l.Filter c g).1.txs.items = (sortedTxs l.txs.items).filter fun tx =>
          (l.Filter c g).2.1.all fun x => decide (tx.Nonce < x.Nonce)) := by
  unfold Filter
  by_cases hshort : l.costcap ≤ c ∧ l.gascap ≤ g
  · -- the caps are within the limits, so no transaction is over them
    rw [if_pos hshort]
    have hnone : (sortedTxs l.txs.items).filter (overLimits c g) = [] :=
      List.filter_eq_nil_iff.2 fun tx htx => by
        simp [hv.caps.not_over hshort.1 hshort.2 tx htx]
    exact ⟨hv, by rw [hnone], fun _ => ⟨by simp, by simp⟩⟩
  · rw [if_neg hshort]
    obtain ⟨hv1, hrem, hview⟩ := TxSortedMap.filter_spec hv.txs (overLimits c g)
    have hcaps : CapsBound c g (l.txs.Filter (overLimits c g)).1 :=
      capsBound_of_not_over fun tx htx => by
        rw [hview, List.mem_filter] at htx
        simpa using htx.2
    dsimp only
    split_ifs with hst
    · -- strict: everything above the lowest removed nonce goes as well
      have hne : (l.txs.Filter (overLimits c g)).2 ≠ [] := List.ne_nil_of_length_pos hst.2
      obtain ⟨hv2, hinv, hview2⟩ := TxSortedMap.filter_spec hv1
        fun tx => decide (lowestNonce (l.txs.Filter (overLimits c g)).2 < tx.Nonce)
      refine ⟨⟨hv2, hcaps.mono ?_⟩, hrem, fun _ => ⟨?_, ?_⟩⟩
      · rw [hview2]
        exact List.filter_sublist.subset
      · refine hinv.trans (List.Perm.of_eq ?_)
        rw [hview, List.filter_filter]
        apply List.filter_congr
        intro tx _
        rw [lowest_lt_iff hne, Bool.and_comm]
      · rw [hview2, hview, List.filter_filter]
        apply List.filter_congr
        intro tx htx
        rw [Bool.and_comm]
        exact kept_iff hv.txs hrem hne htx
    · refine ⟨⟨hv1, hcaps⟩, hrem, fun hs => ?_⟩
      -- strict but nothing was removed
      have hlen : ¬ 0 < (l.txs.Filter (overLimits c g)).2.length := fun h => hst ⟨hs, h⟩
      have hnil : (l.txs.Filter (overLimits c g)).2 = [] :=
        List.eq_nil_of_length_eq_zero (by omega)
      rw [hnil] at hrem ⊢
      have hS := hrem.symm.eq_nil
      refine ⟨by simp, ?_⟩
      rw [hview]
      simp only [List.all_nil, List.filter_true]
      exact List.filter_eq_self.2 fun tx htx => by
        simpa using List.filter_eq_nil_iff.1 hS tx htx

theorem valid_cap (hv : l.Valid) {k : Int} {l' : TxList} {drops : List TxData}
    (h : l.Cap k = some (l', drops)) : l'.Valid := by
  obtain ⟨r, hr, heq⟩ := Option.map_eq_some_iff.1 h
  simp only [Prod.mk.injEq] at heq
  obtain ⟨rfl, rfl⟩ := heq
  by_cases hk : 0 ≤ k
  · obtain ⟨m', drops', hcap, hv', -, hview⟩ := TxSortedMap.cap_spec hv.txs hk
    rw [hcap] at hr
    cases hr
    have hsub : sortedTxs m'.items ⊆ sortedTxs l.txs.items := by
      rw [hview]
      exact List.take_subset _ _
    exact ⟨hv', hv.caps.mono hsub⟩
  · rw [TxSortedMap.cap_of_neg _ (by omega)] at hr
    cases hr

theorem len_eq (l : TxList) : l.Len = (sortedTxs l.txs.items).length := by
  rw [length_sortedTxs]
  simp [Len, TxSortedMap.Len, AList.keys, List.keys]

/-- `Cap k` with `0 ≤ k` keeps the `k` lowest nonces and returns the rest, highest first. -/
theorem cap_spec (hv : l.Valid) {k : Int} (hk : 0 ≤ k) :
    ∃ l', l.Cap k = some (l', ((sortedTxs l.txs.items).drop k.toNat).reverse) ∧
      sortedTxs l'.txs.items = (sortedTxs l.txs.items).take k.toNat := by
  obtain ⟨m', drops, hcap, -, rfl, hview⟩ := TxSortedMap.cap_spec hv.txs hk
  exact ⟨{ l with txs := m' }, by simp [Cap, hcap], hview⟩

theorem cap_of_neg (l : TxList) {k : Int} (hk : k < 0) : l.Cap k = none := by
  simp [Cap, TxSortedMap.cap_of_neg _ hk]

/-- Splitting at a nonce `n`: below `n` is neither above it nor `n` itself. -/
theorem not_lt_and_ne (a n : UInt64) : (!decide (n < a) && decide (a ≠ n)) = decide (a < n) := by
  rcases lt_trichotomy a n with h | rfl | h
  · simp [h, not_lt_of_gt h, ne_of_lt h]
  · simp
  · simp [h, not_lt_of_gt h]

theorem lt_and_ne (a n : UInt64) : (decide (n < a) && decide (a ≠ n)) = decide (n < a) := by
  by_cases h : n < a
  · simp [h, ne_of_gt h]
  · simp [h]

theorem remove_of_absent {tx : TxData} (h : (l.txs.Remove tx.Nonce).2 = false) :
    l.Remove tx = ({ l with txs := (l.txs.Remove tx.Nonce).1 }, false, []) := by
  simp [Remove, h]

theorem remove_of_lax {tx : TxData} (h : (l.txs.Remove tx.Nonce).2 = true)
    (hs : l.strict = false) : l.Remove tx = ({ l with txs := (l.txs.Remove tx.Nonce).1 }, true, []) := by
  simp [Remove, h, hs]

theorem remove_of_strict {tx : TxData} (h : (l.txs.Remove tx.Nonce).2 = true)
    (hs : l.strict = true) :
    l.Remove tx = ({ l with txs := ((l.txs.Remove tx.Nonce).1.Filter
        fun t => decide (tx.Nonce < t.Nonce)).1 }, true,
      ((l.txs.Remove tx.Nonce).1.Filter fun t => decide (tx.Nonce < t.Nonce)).2) := by
  simp [Remove, h, hs]

/-- `Remove` reports whether the nonce was there; a strict list also loses everything above it
and keeps exactly what lies below. -/
theorem remove_spec (hv : l.Valid) (tx : TxData) :
    (l.Remove tx).1.Valid ∧ (l.Remove tx).2.1 = (l.txs.items.lookup tx.Nonce).isSome ∧
      ((l.Remove tx).2.1 = false → (l.Remove tx).2.2 = [] ∧
        sortedTxs (l.Remove tx).1.txs.items = sortedTxs l.txs.items) ∧
      (l.strict = true → (l.Remove tx).2.1 = true →
        List.Perm (l.Remove tx).2.2
          ((sortedTxs l.txs.items).filter fun t => decide (tx.Nonce < t.Nonce)) ∧
        sortedTxs (l.Remove tx).1.txs.items =
          (sortedTxs l.txs.items).filter fun t => decide (t.Nonce < tx.Nonce)) := by
  obtain ⟨hv1, hfound, hview⟩ := TxSortedMap.remove_spec hv.txs tx.Nonce
  have hcaps1 : CapsBound l.costcap l.gascap (l.txs.Remove tx.Nonce).1 :=
    hv.caps.mono (by rw [hview]; exact List.filter_sublist.subset)
  cases hr : (l.txs.Remove tx.Nonce).2 with
  | false =>
    -- an absent nonce: nothing is removed
    rw [hr] at hfound
    have hsame : (sortedTxs l.txs.items).filter (fun x => decide (x.Nonce ≠ tx.Nonce)) =
        sortedTxs l.txs.items := List.filter_eq_self.2 fun t ht => by
      have hl := hv.txs.indexes.keyed.lookup_nonce (mem_sortedTxs.1 ht)
      simp only [ne_eq, decide_eq_true_eq]
      intro he
      rw [he] at hl
      rw [hl] at hfound
      cases hfound
    rw [remove_of_absent hr]
    exact ⟨⟨hv1, hcaps1⟩, hfound, fun _ => ⟨rfl, hview.trans hsame⟩, fun _ h => by cases h⟩
  | true =>
    rw [hr] at hfound
    cases hs : l.strict with
    | false =>
      rw [remove_of_lax hr hs]
      exact ⟨⟨hv1, hcaps1⟩, hfound, fun h => (by cases h), fun h => (by cases h)⟩
    | true =>
      -- strict: everything above the removed nonce goes as well
      rw [remove_of_strict hr hs]
      obtain ⟨hv2, hinv, hview2⟩ := TxSortedMap.filter_spec hv1
        fun t => decide (tx.Nonce < t.Nonce)
      have hsub : sortedTxs ((l.txs.Remove tx.Nonce).1.Filter
          fun t => decide (tx.Nonce < t.Nonce)).1.items ⊆ sortedTxs (l.txs.Remove tx.Nonce).1.items := by
        rw [hview2]
        exact List.filter_sublist.subset
      refine ⟨⟨hv2, hcaps1.mono hsub⟩, hfound, fun h => (by cases h), fun _ _ => ⟨?_, ?_⟩⟩
      · refine hinv.trans (List.Perm.of_eq ?_)
        rw [hview, List.filter_filter]
        exact List.filter_congr fun t _ => lt_and_ne t.Nonce tx.Nonce
      · rw [hview2, hview, List.filter_filter]
        exact List.filter_congr fun t _ => not_lt_and_ne t.Nonce tx.Nonce

theorem valid_ready (hv : l.Valid) (start : UInt64) : (l.Ready start).1.Valid :=
  ⟨(TxSortedMap.ready_spec hv.txs start).1, hv.caps.mono (TxSortedMap.ready_subset hv.txs start)⟩

theorem valid_flatten (hv : l.Valid) : l.Flatten.1.Valid := by
  refine ⟨(TxSortedMap.flatten_spec hv.txs).1, hv.caps.mono ?_⟩
  show sortedTxs l.txs.Flatten.1.items ⊆ _
  rw [TxSortedMap.flatten_items]
  exact List.Subset.refl _

/-- A strict `Filter` leaves a prefix of the sorted list. -/
theorem filter_prefix (hv : l.Valid) (hs : l.strict = true) (c : Int) (g : UInt64) :
    sortedTxs (l.Filter c g).1.txs.items <+: sortedTxs l.txs.items := by
  rw [((filter_spec hv c g).2.2 hs).2, filter_eq_takeWhile hv.txs.indexes.keyed.sortedTxs_sorted]
  · exact List.takeWhile_prefix _
  · intro a b hab hb
    simp only [List.all_eq_true, decide_eq_true_eq] at hb ⊢
    exact fun x hx => lt_trans hab (hb x hx)

/-- A strict `Remove` leaves a prefix of the sorted list. -/
theorem remove_prefix (hv : l.Valid) (hs : l.strict = true) (tx : TxData) :
    sortedTxs (l.Remove tx).1.txs.items <+: sortedTxs l.txs.items := by
  obtain ⟨-, -, habsent, hpresent⟩ := remove_spec hv tx
  cases hr : (l.Remove tx).2.1
  · rw [(habsent hr).2]
  · rw [(hpresent hs hr).2, filter_eq_takeWhile hv.txs.indexes.keyed.sortedTxs_sorted]
    · exact List.takeWhile_prefix _
    · intro a b hab hb
      simp only [decide_eq_true_eq] at hb ⊢
      exact lt_trans hab hb

end TxList

/-! ## Runs -/

/-- The operations that change a `txList`. -/
inductive ListOp where
  | add (tx : TxData) (priceBump : UInt64)
  | forward (threshold : UInt64)
  | filter (costLimit : Int) (gasLimit : UInt64)
  | cap (threshold : Int)
  | remove (tx : TxData)
  | ready (start : UInt64)
  | flatten

/-- One operation; `none` is a panic. -/
def ListOp.apply (l : TxList) : ListOp → Option TxList
  | .add tx priceBump => some (l.Add tx priceBump).1
  | .forward t => some (l.Forward t).1
  | .filter c g => some (l.Filter c g).1
  | .cap k => (l.Cap k).map (·.1)
  | .remove tx => some (l.Remove tx).1
  | .ready s => some (l.Ready s).1
  | .flatten => some l.Flatten.1

/-- A run of operations. -/
def runListOps (l : TxList) : List ListOp → Option TxList
  | [] => some l
  | op :: ops => (op.apply l).bind fun l' => runListOps l' ops

namespace TxList

variable {l l' : TxList}

theorem valid_newTxList (strict : Bool) : (newTxList strict).Valid :=
  ⟨TxSortedMap.valid_newTxSortedMap, fun tx htx => by
    simp [newTxList, newTxSortedMap, sortedTxs, sortByNonce, txsOf] at htx⟩

theorem Valid.apply (hv : l.Valid) {op : ListOp} (h : op.apply l = some l') : l'.Valid := by
  cases op with
  | add tx priceBump => cases h; exact valid_add hv tx priceBump
  | forward t => cases h; exact valid_forward hv t
  | filter c g => cases h; exact (filter_spec hv c g).1
  | cap k =>
    obtain ⟨r, hr, rfl⟩ := Option.map_eq_some_iff.1 h
    exact valid_cap hv hr
  | remove tx => cases h; exact (remove_spec hv tx).1
  | ready s => cases h; exact valid_ready hv s
  | flatten => cases h; exact valid_flatten hv

theorem valid_runListOps : ∀ (ops : List ListOp) {l l' : TxList}, l.Valid →
    runListOps l ops = some l' → l'.Valid
  | [], _, _, hv, h => by cases h; exact hv
  | op :: ops, l, _, hv, h => by
    obtain ⟨l'', h1, h2⟩ := Option.bind_eq_some_iff.1 h
    exact valid_runListOps ops (hv.apply h1) h2

end TxList

/-- The caps bound every transaction, so `Filter` removes exactly the transactions over a limit;
in a strict list `Filter` and `Remove` also return every transaction above a removed nonce and
keep a prefix of the sorted list, contiguous when the list was. -/
structure FilterExact (l : TxList) : Prop where
  costcap_ge : ∀ tx ∈ txsOf l.txs.items, tx.Cost ≤ l.costcap
  gascap_ge : ∀ tx ∈ txsOf l.txs.items, tx.Gas ≤ l.gascap
  filter_removed : ∀ c g,
    List.Perm (l.Filter c g).2.1 ((sortedTxs l.txs.items).filter (overLimits c g))
  strict_filter : l.strict = true → ∀ c g,
    List.Perm (l.Filter c g).2.2 ((sortedTxs l.txs.items).filter fun tx =>
      !overLimits c g tx && (l.Filter c g).2.1.any fun x => decide (x.Nonce < tx.Nonce)) ∧
    sortedTxs (l.Filter c g).1.txs.items = (sortedTxs l.txs.items).filter fun tx =>
      (l.Filter c g).2.1.all fun x => decide (tx.Nonce < x.Nonce)
  strict_remove : l.strict = true → ∀ tx, (l.Remove tx).2.1 = true →
    List.Perm (l.Remove tx).2.2
      ((sortedTxs l.txs.items).filter fun t => decide (tx.Nonce < t.Nonce)) ∧
    sortedTxs (l.Remove tx).1.txs.items =
      (sortedTxs l.txs.items).filter fun t => decide (t.Nonce < tx.Nonce)
  strict_prefix : l.strict = true →
    (∀ c g, sortedTxs (l.Filter c g).1.txs.items <+: sortedTxs l.txs.items) ∧
    ∀ tx, sortedTxs (l.Remove tx).1.txs.items <+: sortedTxs l.txs.items
  strict_contiguous : l.strict = true → Contiguous (sortedTxs l.txs.items) →
    (∀ c g, Contiguous (sortedTxs (l.Filter c g).1.txs.items)) ∧
    ∀ tx, Contiguous (sortedTxs (l.Remove tx).1.txs.items)

theorem TxList.Valid.filterExact {l : TxList} (hv : l.Valid) : FilterExact l where
  costcap_ge tx htx := (hv.caps tx (mem_sortedTxs.2 htx)).1
  gascap_ge tx htx := (hv.caps tx (mem_sortedTxs.2 htx)).2
  filter_removed c g := (TxList.filter_spec hv c g).2.1
  strict_filter hs c g := (TxList.filter_spec hv c g).2.2 hs
  strict_remove hs tx := (TxList.remove_spec hv tx).2.2.2 hs
  strict_prefix hs := ⟨TxList.filter_prefix hv hs, TxList.remove_prefix hv hs⟩
  strict_contiguous hs hc := ⟨fun c g => hc.of_prefix (TxList.filter_prefix hv hs c g),
    fun tx => hc.of_prefix (TxList.remove_prefix hv hs tx)⟩

theorem txList_filter_exact (strict : Bool) (ops : List ListOp) {l : TxList}
    (h : runListOps (newTxList strict) ops = some l) : FilterExact l :=
  (TxList.valid_runListOps ops (TxList.valid_newTxList strict) h).filterExact

/-- A strict list takes a transaction and then has its limits lowered below its cost. -/
theorem txList_filter_exact_add_filter : ∃ l, runListOps (newTxList true)
    [.add ⟨0, 1, 21000, none, 5, [], 27, 1, 1⟩ 10, .filter 0 21000] = some l ∧ FilterExact l :=
  ⟨_, rfl, txList_filter_exact true
    [.add ⟨0, 1, 21000, none, 5, [], 27, 1, 1⟩ 10, .filter 0 21000] rfl⟩

end Ccmchain.Core
