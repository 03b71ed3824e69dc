import Ccmchain.Lib.Heap
import Ccmchain.Core.Transaction

/-!
# The nonce-sorted transaction map (`core/tx_list.go`)

`txSortedMap` keeps one account's transactions in three views: the map `items` from nonce to
transaction, the min-heap `index` of its nonces (`nonceHeap` under `container/heap`, here
`MinHeap`), and `cache`, the transactions sorted by nonce, which `Flatten` fills and every
change either patches (`Forward` cuts its front, `Cap` its back) or drops.

The abstract view is `sortedTxs`, the items sorted by nonce. `Valid` says that the three views
agree; every operation keeps it, so it holds after every run from `newTxSortedMap`, and each
operation's effect is exact on the sorted view.

Go's map is an `AList` whose `entries` order stands for the iteration order; what depends on
that order (the order of `Filter`'s result) is stated up to permutation. A Go map read of a
missing nonce gives `nil`; the loops here append `(items.lookup n).toList`, and `Valid` shows
that every nonce they read is present.
-/

namespace Ccmchain.Core

open Ccmchain.Types

/-- `uint64` compared as `nonceHeap.Less` and `TxByNonce.Less` compare it. -/
instance (priority := low) uint64LinearOrder : LinearOrder UInt64 where
  le_refl := UInt64.le_refl
  le_trans := fun _ _ _ => UInt64.le_trans
  lt_iff_le_not_ge := fun a b => by
    rw [UInt64.lt_iff_toNat_lt, UInt64.le_iff_toNat_le, UInt64.le_iff_toNat_le]; omega
  le_antisymm := fun _ _ => UInt64.le_antisymm
  le_total := UInt64.le_total
  toDecidableLE := inferInstance
  toDecidableLT := inferInstance
  toDecidableEq := inferInstance

/-- `map[uint64]*types.Transaction`. -/
abbrev TxItems := AList (fun _ : UInt64 => TxData)

/-- `txSortedMap`. -/
structure TxSortedMap where
  items : TxItems
  index : List UInt64
  cache : Option (List TxData)

/-- `newTxSortedMap`. -/
def newTxSortedMap : TxSortedMap := ⟨∅, [], none⟩

/-- The transactions of a map, in its iteration order. -/
def txsOf (items : TxItems) : List TxData := items.entries.map (·.2)

/-- `sort.Sort(types.TxByNonce(txs))`. The nonces it sorts are distinct, so every sorting
algorithm gives this order. -/
def sortByNonce (txs : List TxData) : List TxData := txs.mergeSort fun a b => a.Nonce ≤ b.Nonce

namespace TxSortedMap

/-- `Get`. -/
def Get (m : TxSortedMap) (nonce : UInt64) : Option TxData := m.items.lookup nonce

/-- `Len`. -/
def Len (m : TxSortedMap) : Nat := m.items.entries.length

/-- `Put`: a new nonce goes on the heap, a replaced one keeps its place. -/
def Put (m : TxSortedMap) (tx : TxData) : TxSortedMap :=
  let nonce := tx.Nonce
  { items := m.items.insert nonce tx
    index := if (m.items.lookup nonce).isNone then MinHeap.push m.index nonce else m.index
    cache := none }

/-- The loop of `Forward`: pop the heap while its least nonce is below the threshold. -/
def forwardLoop (threshold : UInt64) (index : List UInt64) (items : TxItems)
    (removed : List TxData) : List UInt64 × TxItems × List TxData :=
  if 0 < index.length ∧ MinHeap.val index 0 < threshold then
    match _hp : MinHeap.pop index with
    | some (nonce, index') =>
      forwardLoop threshold index' (items.erase nonce) (removed ++ (items.lookup nonce).toList)
    | none => (index, items, removed)
  else (index, items, removed)
termination_by index.length
decreasing_by have := MinHeap.length_of_pop _hp; omega

/-- `Forward`. -/
def Forward (m : TxSortedMap) (threshold : UInt64) : TxSortedMap × List TxData :=
  let r := forwardLoop threshold m.index m.items []
  ({ items := r.2.1, index := r.1, cache := m.cache.map (·.drop r.2.2.length) }, r.2.2)

/-- One round of `Filter`'s range over the map. -/
def filterStep (filter : TxData → Bool) (acc : TxItems × List TxData)
    (e : (_ : UInt64) × TxData) : TxItems × List TxData :=
  if filter e.2 then (acc.1.erase e.1, acc.2 ++ [e.2]) else acc

/-- `Filter`: when anything was removed the heap is rebuilt from the remaining nonces and the
cache dropped. -/
def Filter (m : TxSortedMap) (filter : TxData → Bool) : TxSortedMap × List TxData :=
  let r := m.items.entries.foldl (filterStep filter) (m.items, [])
  if 0 < r.2.length then ({ items := r.1, index := MinHeap.init r.1.keys, cache := none }, r.2)
  else ({ m with items := r.1 }, r.2)

/-- The loop of `Cap`, `for size := len(m.items); size > threshold; size--`, over the sorted
index. -/
def capLoop (index : List UInt64) (threshold : Nat) :
    Nat → TxItems → List TxData → TxItems × List TxData
  | 0, items, drops => (items, drops)
  | size + 1, items, drops =>
    if threshold < size + 1 then
      let nonce := MinHeap.val index size
      capLoop index threshold size (items.erase nonce) (drops ++ (items.lookup nonce).toList)
    else (items, drops)

/-- `Cap`. A negative threshold runs the loop down to `index[-1]`, a panic (`none`). -/
def Cap (m : TxSortedMap) (threshold : Int) : Option (TxSortedMap × List TxData) :=
  if (m.Len : Int) ≤ threshold then some (m, [])
  else if threshold < 0 then none
  else
    let index := m.index.mergeSort
    let r := capLoop index threshold.toNat m.Len m.items []
    some ({ items := r.1, index := MinHeap.init (index.take threshold.toNat),
            cache := m.cache.map fun c => c.take (c.length - r.2.length) }, r.2)

/-- `Remove`: a linear search of the heap, then `heap.Remove` at the position found. -/
def Remove (m : TxSortedMap) (nonce : UInt64) : TxSortedMap × Bool :=
  if (m.items.lookup nonce).isNone then (m, false)
  else
    let i := m.index.idxOf nonce
    let index :=
      if i < m.index.length then ((MinHeap.remove m.index i).map (·.2)).getD m.index
      else m.index
    ({ items := m.items.erase nonce, index, cache := none }, true)

/-- The loop of `Ready`: pop the heap while its least nonce is the next one expected. -/
def readyLoop (next : UInt64) (index : List UInt64) (items : TxItems)
    (ready : List TxData) : List UInt64 × TxItems × List TxData :=
  if 0 < index.length ∧ MinHeap.val index 0 = next then
    match _hp : MinHeap.pop index with
    | some (_, index') =>
      readyLoop (next + 1) index' (items.erase next) (ready ++ (items.lookup next).toList)
    | none => (index, items, ready)
  else (index, items, ready)
termination_by index.length
decreasing_by have := MinHeap.length_of_pop _hp; omega

/-- `Ready`: the run starts at the least nonce, which may lie below `start`. -/
def Ready (m : TxSortedMap) (start : UInt64) : TxSortedMap × List TxData :=
  if m.index.length = 0 ∨ start < MinHeap.val m.index 0 then (m, [])
  else
    let r := readyLoop (MinHeap.val m.index 0) m.index m.items []
    ({ items := r.2.1, index := r.1, cache := none }, r.2.2)

/-- `Flatten`: sort once and cache the order. -/
def Flatten (m : TxSortedMap) : TxSortedMap × List TxData :=
  match m.cache with
  | some c => (m, c)
  | none =>
    let c := sortByNonce (txsOf m.items)
    ({ m with cache := some c }, c)

end TxSortedMap

/-! ## The sorted view -/

/-- Every transaction sits under its own nonce, as `Put` files it. -/
def Keyed (items : TxItems) : Prop := ∀ n tx, items.lookup n = some tx → tx.Nonce = n

/-- Strictly increasing nonces. -/
def SortedByNonce (txs : List TxData) : Prop := txs.Pairwise fun a b => a.Nonce < b.Nonce

/-- The items sorted by nonce, as `Flatten` computes them. -/
def sortedTxs (items : TxItems) : List TxData := sortByNonce (txsOf items)

section View

variable {items : TxItems} {n : UInt64} {tx : TxData}

theorem sortedTxs_perm (items : TxItems) : List.Perm (sortedTxs items) (txsOf items) :=
  List.mergeSort_perm _ _

theorem mem_sortedTxs : tx ∈ sortedTxs items ↔ tx ∈ txsOf items := (sortedTxs_perm items).mem_iff

theorem length_sortedTxs (items : TxItems) : (sortedTxs items).length = items.keys.length := by
  simp [sortedTxs, sortByNonce, txsOf, AList.keys, List.keys]

theorem mem_keys_of_lookup (h : items.lookup n = some tx) : n ∈ items.keys :=
  AList.mem_keys.1 (AList.lookup_isSome.1 (by simp [h]))

theorem Keyed.lookup_nonce (hk : Keyed items) (h : tx ∈ txsOf items) :
    items.lookup tx.Nonce = some tx := by
  obtain ⟨e, he, rfl⟩ := List.mem_map.1 h
  have hl : items.lookup e.1 = some e.2 := AList.mem_lookup_iff.2 he
  rw [hk _ _ hl]
  exact hl

theorem Keyed.map_nonce (hk : Keyed items) : (txsOf items).map TxData.Nonce = items.keys := by
  rw [txsOf, List.map_map, AList.keys, List.keys]
  apply List.map_congr_left
  intro e he
  exact hk _ _ (AList.mem_lookup_iff.2 he)

theorem Keyed.erase (hk : Keyed items) (n : UInt64) : Keyed (items.erase n) := by
  intro k t h
  by_cases hkn : k = n
  · subst hkn
    rw [AList.lookup_erase] at h
    cases h
  · rw [AList.lookup_erase_ne hkn] at h
    exact hk k t h

theorem Keyed.insert (hk : Keyed items) (tx : TxData) : Keyed (items.insert tx.Nonce tx) := by
  intro k t h
  by_cases hkn : k = tx.Nonce
  · subst hkn
    rw [AList.lookup_insert, Option.some_inj] at h
    rw [← h]
  · rw [AList.lookup_insert_ne hkn] at h
    exact hk k t h

theorem Keyed.of_sublist (hk : Keyed items) {items' : TxItems}
    (hs : items'.entries.Sublist items.entries) : Keyed items' := fun k t h =>
  hk k t (AList.mem_lookup_iff.2 (hs.subset (AList.mem_lookup_iff.1 h)))

theorem Keyed.sortedTxs_sorted (hk : Keyed items) : SortedByNonce (sortedTxs items) := by
  have hle : (sortedTxs items).Pairwise fun a b => decide (a.Nonce ≤ b.Nonce) = true :=
    List.pairwise_mergeSort (fun a b c hab hbc => by simp at *; exact le_trans hab hbc)
      (fun a b => by simpa using le_total a.Nonce b.Nonce) _
  have hnd : ((sortedTxs items).map TxData.Nonce).Nodup :=
    ((sortedTxs_perm items).map _).nodup_iff.2 (hk.map_nonce ▸ items.keys_nodup)
  exact (hle.and (List.pairwise_map.1 hnd)).imp fun ⟨h1, h2⟩ =>
    lt_of_le_of_ne (by simpa using h1) h2

/-- Nonces are distinct, so a sorted permutation of the items is `sortedTxs`. -/
theorem Keyed.eq_sortedTxs (hk : Keyed items) {l : List TxData} (hs : SortedByNonce l)
    (hp : List.Perm l (txsOf items)) : l = sortedTxs items :=
  List.Perm.eq_of_pairwise (fun _ _ _ _ hab hba => absurd hab (lt_asymm hba)) hs
    hk.sortedTxs_sorted (hp.trans (sortedTxs_perm items).symm)

theorem txsOf_perm_erase (h : items.lookup n = some tx) :
    List.Perm (txsOf items) (tx :: txsOf (items.erase n)) := by
  obtain ⟨b, l₁, l₂, -, he, hke⟩ := List.exists_of_kerase (mem_keys_of_lookup h)
  have hb : items.lookup n = some b := AList.mem_lookup_iff.2 (by rw [he]; simp)
  obtain rfl : tx = b := Option.some.inj (h.symm.trans hb)
  have herase : (items.erase n).entries = l₁ ++ l₂ := hke
  rw [txsOf, txsOf, herase, he]
  simp only [List.map_append, List.map_cons]
  exact List.perm_middle

/-- Erasing the least nonce takes the head off the sorted view. -/
theorem Keyed.sortedTxs_eq_cons (hk : Keyed items) (h : items.lookup n = some tx)
    (hmin : ∀ k ∈ items.keys, n ≤ k) : sortedTxs items = tx :: sortedTxs (items.erase n) := by
  have hke := hk.erase n
  symm
  apply hk.eq_sortedTxs
  · refine List.Pairwise.cons (fun b hb => ?_) hke.sortedTxs_sorted
    have hb' := hke.lookup_nonce (mem_sortedTxs.1 hb)
    have hne : b.Nonce ≠ n := fun he => by
      rw [he, AList.lookup_erase] at hb'
      cases hb'
    rw [AList.lookup_erase_ne hne] at hb'
    rw [hk _ _ h]
    exact lt_of_le_of_ne (hmin _ (mem_keys_of_lookup hb')) (Ne.symm hne)
  · exact ((sortedTxs_perm _).cons tx).trans (txsOf_perm_erase h).symm

/-- Erasing any nonce filters it out of the sorted view. -/
theorem Keyed.sortedTxs_erase (hk : Keyed items) (h : items.lookup n = some tx) :
    sortedTxs (items.erase n) = (sortedTxs items).filter (·.Nonce ≠ n) := by
  have hke := hk.erase n
  have hne : ∀ b ∈ txsOf (items.erase n), b.Nonce ≠ n := fun b hb he => by
    have hb' := hke.lookup_nonce hb
    rw [he, AList.lookup_erase] at hb'
    cases hb'
  symm
  apply hke.eq_sortedTxs (hk.sortedTxs_sorted.sublist List.filter_sublist)
  refine (((sortedTxs_perm _).trans (txsOf_perm_erase h)).filter _).trans ?_
  rw [List.filter_cons_of_neg (by simp [hk _ _ h]), List.filter_eq_self.2 (by simpa using hne)]

/-- Keeping the entries whose transaction passes `p` filters the sorted view by `p`. -/
theorem Keyed.sortedTxs_of_entries_filter (hk : Keyed items) {items' : TxItems}
    (p : TxData → Bool) (he : items'.entries = items.entries.filter fun e => p e.2) :
    sortedTxs items' = (sortedTxs items).filter p := by
  have hk' : Keyed items' := hk.of_sublist (he ▸ List.filter_sublist)
  symm
  apply hk'.eq_sortedTxs (hk.sortedTxs_sorted.sublist List.filter_sublist)
  have htxs : txsOf items' = (txsOf items).filter p := by
    rw [txsOf, txsOf, he, List.filter_map]
    rfl
  rw [htxs]
  exact (sortedTxs_perm items).filter p

end View

/-! ## The heap indexes the map -/

/-- The heap `index` holds the nonces of `items`, each once. -/
structure Indexes (index : List UInt64) (items : TxItems) : Prop where
  keyed : Keyed items
  perm : List.Perm index items.keys
  heap : MinHeap.IsHeap index

/-- The three views of a `txSortedMap` agree. -/
structure TxSortedMap.Valid (m : TxSortedMap) : Prop where
  indexes : Indexes m.index m.items
  cache_eq : ∀ c, m.cache = some c → c = sortedTxs m.items

section Indexes

variable {index : List UInt64} {items : TxItems} {tx : TxData}

theorem Indexes.root_le (hI : Indexes index items) (htx : tx ∈ sortedTxs items) :
    MinHeap.val index 0 ≤ tx.Nonce :=
  MinHeap.root_le_of_mem hI.heap
    (hI.perm.mem_iff.2 (mem_keys_of_lookup (hI.keyed.lookup_nonce (mem_sortedTxs.1 htx))))

theorem Indexes.sortedTxs_eq_nil (hI : Indexes index items) (h : index.length = 0) :
    sortedTxs items = [] :=
  List.eq_nil_of_length_eq_zero (by rw [length_sortedTxs, ← hI.perm.length_eq, h])

/-- `heap.Pop` takes the least nonce, whose transaction heads the sorted view. -/
theorem Indexes.pop (hI : Indexes index items) (hne : 0 < index.length) :
    ∃ index' tx, MinHeap.pop index = some (MinHeap.val index 0, index') ∧
      items.lookup (MinHeap.val index 0) = some tx ∧
      Indexes index' (items.erase (MinHeap.val index 0)) ∧
      sortedTxs items = tx :: sortedTxs (items.erase (MinHeap.val index 0)) := by
  obtain ⟨index', hpop, hheap, hperm⟩ := MinHeap.pop_spec hI.heap (List.ne_nil_of_length_pos hne)
  have hkey : MinHeap.val index 0 ∈ items.keys := hI.perm.subset (MinHeap.val_mem hne)
  obtain ⟨tx, htx⟩ := Option.isSome_iff_exists.1 (AList.lookup_isSome.2 (AList.mem_keys.2 hkey))
  refine ⟨index', tx, hpop, htx, ⟨hI.keyed.erase _, ?_, hheap⟩,
    hI.keyed.sortedTxs_eq_cons htx fun k hk => MinHeap.root_le_of_mem hI.heap (hI.perm.mem_iff.2 hk)⟩
  have herase := hperm.erase (MinHeap.val index 0)
  rw [List.erase_cons_head] at herase
  rw [AList.keys_erase]
  exact herase.trans (hI.perm.erase _)

/-- Sorting the heap gives the nonces of the sorted view. -/
theorem Indexes.mergeSort_eq (hI : Indexes index items) :
    index.mergeSort = (sortedTxs items).map TxData.Nonce := by
  have hsorted : index.mergeSort.Pairwise fun a b => decide (a ≤ b) = true :=
    List.pairwise_mergeSort (fun _ _ _ hab hbc => by simp at *; exact le_trans hab hbc)
      (fun a b => by simpa using le_total a b) index
  apply List.Perm.eq_of_pairwise
    (fun a b (_ : a ∈ _) (_ : b ∈ _) (hab : a ≤ b) (hba : b ≤ a) => le_antisymm hab hba)
  · simpa using hsorted
  · exact List.pairwise_map.2 (hI.keyed.sortedTxs_sorted.imp le_of_lt)
  · refine (List.mergeSort_perm _ _).trans (hI.perm.trans ?_)
    rw [← hI.keyed.map_nonce]
    exact ((sortedTxs_perm items).map _).symm

end Indexes

/-! ## Sorted lists -/

section SortedList

variable {l : List TxData}

theorem takeWhile_nonce_lt (hs : SortedByNonce l) (t : UInt64) :
    l.takeWhile (·.Nonce < t) = l.filter (·.Nonce < t) := by
  induction l with
  | nil => rfl
  | cons a l ih =>
    rw [SortedByNonce, List.pairwise_cons] at hs
    by_cases ha : a.Nonce < t
    · simp [ha, ih hs.2]
    · have hl : l.filter (·.Nonce < t) = [] :=
        List.filter_eq_nil_iff.2 fun b hb hbt => ha (lt_trans (hs.1 b hb) (by simpa using hbt))
      simp [ha, hl]

theorem dropWhile_nonce_lt (hs : SortedByNonce l) (t : UInt64) :
    l.dropWhile (·.Nonce < t) = l.filter (t ≤ ·.Nonce) := by
  induction l with
  | nil => rfl
  | cons a l ih =>
    rw [SortedByNonce, List.pairwise_cons] at hs
    by_cases ha : a.Nonce < t
    · simp [ha, ih hs.2, not_le.2 ha]
    · have hl : l.filter (t ≤ ·.Nonce) = l := List.filter_eq_self.2 fun b hb => by
        simpa using le_trans (not_lt.1 ha) (le_of_lt (hs.1 b hb))
      simp [ha, not_lt.1 ha, hl]

theorem drop_length_takeWhile {α : Type} (p : α → Bool) (l : List α) :
    l.drop (l.takeWhile p).length = l.dropWhile p :=
  calc l.drop (l.takeWhile p).length
      = (l.takeWhile p ++ l.dropWhile p).drop (l.takeWhile p).length := by
        rw [List.takeWhile_append_dropWhile]
    _ = l.dropWhile p := List.drop_left

end SortedList

namespace TxSortedMap

theorem forwardLoop_spec (t : UInt64) (index : List UInt64) (items : TxItems)
    (removed : List TxData) : Indexes index items →
    let r := forwardLoop t index items removed
    Indexes r.1 r.2.1 ∧ r.2.2 = removed ++ (sortedTxs items).takeWhile (·.Nonce < t) ∧
      sortedTxs r.2.1 = (sortedTxs items).dropWhile (·.Nonce < t) := by
  fun_induction forwardLoop t index items removed with
  | case1 index items removed hc nonce index' hp ih =>
    intro hI
    obtain ⟨index'', tx, hpop, hl, hI', hs⟩ := hI.pop hc.1
    rw [hp, Option.some_inj, Prod.mk.injEq] at hpop
    obtain ⟨rfl, rfl⟩ := hpop
    have htx : tx.Nonce < t := by rw [hI.keyed _ _ hl]; exact hc.2
    obtain ⟨hI'', hrem, hview⟩ := ih hI'
    refine ⟨hI'', ?_, ?_⟩
    · rw [hrem, hl, hs, List.takeWhile_cons_of_pos (by simpa using htx)]
      simp
    · rw [hview, hs, List.dropWhile_cons_of_pos (by simpa using htx)]
  | case2 index items removed hc hp =>
    intro hI
    obtain ⟨_, _, hpop, -⟩ := hI.pop hc.1
    rw [hp] at hpop
    cases hpop
  | case3 index items removed hc =>
    intro hI
    dsimp only
    refine ⟨hI, ?_⟩
    -- the least nonce is not below the threshold, so no nonce is
    rcases hS : sortedTxs items with _ | ⟨a, l⟩
    · simp
    · have ha : a ∈ sortedTxs items := by rw [hS]; exact List.mem_cons_self
      have hlen : 0 < index.length := Nat.pos_of_ne_zero fun h0 => by
        rw [hI.sortedTxs_eq_nil h0] at ha
        cases ha
      have hge : ¬ a.Nonce < t := fun hlt => hc ⟨hlen, lt_of_le_of_lt (hI.root_le ha) hlt⟩
      simp [hge]

/-- `Cap`'s loop over the sorted nonces of `S`: from `size` down to `k` it drops the top of
`S.take size`, highest first. -/
theorem capLoop_spec {S : List TxData} (k : Nat) :
    ∀ (size : Nat) (items : TxItems) (drops : List TxData), Keyed items →
      sortedTxs items = S.take size → size ≤ S.length → k ≤ size →
      Keyed (capLoop (S.map TxData.Nonce) k size items drops).1 ∧
      sortedTxs (capLoop (S.map TxData.Nonce) k size items drops).1 = S.take k ∧
      (capLoop (S.map TxData.Nonce) k size items drops).2 =
        drops ++ ((S.take size).drop k).reverse
  | 0, items, drops, hk, hs, _, hkz => by
    obtain rfl : k = 0 := by omega
    simp [capLoop, hk, hs]
  | size + 1, items, drops, hk, hs, hsz, hks => by
    by_cases hlt : k < size + 1
    · have htake : S.take (size + 1) = S.take size ++ [S[size]] :=
        List.take_succ_eq_append_getElem (by omega)
      have hsorted : SortedByNonce (S.take size ++ [S[size]]) := by
        rw [← htake, ← hs]
        exact hk.sortedTxs_sorted
      have hl : items.lookup S[size].Nonce = some S[size] :=
        hk.lookup_nonce (mem_sortedTxs.1 (by
          rw [hs, htake]
          exact List.mem_append_right _ (List.mem_singleton_self _)))
      -- the dropped transaction is the last of the sorted view
      have hview : sortedTxs (items.erase S[size].Nonce) = S.take size := by
        have hbelow := (List.pairwise_append.1 hsorted).2.2
        rw [hk.sortedTxs_erase hl, hs, htake, List.filter_append,
          List.filter_eq_self.2 fun a ha => by
            simpa using ne_of_lt (hbelow a ha _ (List.mem_singleton_self _))]
        simp
      have hget : MinHeap.val (S.map TxData.Nonce) size = S[size].Nonce := by
        rw [MinHeap.val, List.getD_eq_getElem _ _ (by simp; omega), List.getElem_map]
      obtain ⟨h1, h2, h3⟩ :=
        capLoop_spec k size _ (drops ++ [S[size]]) (hk.erase _) hview (by omega) (by omega)
      rw [capLoop, if_pos hlt]
      dsimp only
      rw [hget, hl, Option.toList_some]
      refine ⟨h1, h2, ?_⟩
      rw [h3, htake, List.drop_append_of_le_length (by simp; omega)]
      simp
    · obtain rfl : k = size + 1 := by omega
      rw [capLoop, if_neg hlt]
      simp [hk, hs]

/-- A nonce below some other nonce can be incremented without wrapping. -/
theorem toNat_add_one_of_lt {a b : UInt64} (h : a < b) : (a + 1).toNat = a.toNat + 1 := by
  have hb := b.toNat_lt_size
  rw [UInt64.lt_iff_toNat_lt] at h
  rw [UInt64.toNat_add, UInt64.toNat_one]
  exact Nat.mod_eq_of_lt (by simp only [UInt64.size] at hb; omega)

/-- `Ready`'s loop from the next expected nonce takes the longest prefix of the sorted view whose
nonces count up from `next`. -/
theorem readyLoop_spec (next : UInt64) (index : List UInt64) (items : TxItems)
    (ready : List TxData) : Indexes index items →
    (∀ tx ∈ sortedTxs items, next.toNat ≤ tx.Nonce.toNat) →
    let r := readyLoop next index items ready
    Indexes r.1 r.2.1 ∧ ∃ k, r.2.2 = ready ++ (sortedTxs items).take k ∧
      sortedTxs r.2.1 = (sortedTxs items).drop k ∧
      ((sortedTxs items).take k).map (·.Nonce.toNat) = List.range' next.toNat k ∧
      ∀ tx ∈ (sortedTxs items).drop k, tx.Nonce.toNat ≠ next.toNat + k := by
  fun_induction readyLoop next index items ready with
  | case1 next index items ready hc _ index' hp ih =>
    intro hI _
    obtain ⟨index'', tx, hpop, hl, hI', hs⟩ := hI.pop hc.1
    rw [hp, Option.some_inj, Prod.mk.injEq] at hpop
    obtain ⟨-, rfl⟩ := hpop
    rw [hc.2] at hl hI' hs
    have htx : tx.Nonce = next := hI.keyed _ _ hl
    have habove : ∀ b ∈ sortedTxs (items.erase next), next < b.Nonce := fun b hb => by
      have hsorted := hI.keyed.sortedTxs_sorted
      rw [hs, SortedByNonce, List.pairwise_cons] at hsorted
      rw [← htx]
      exact hsorted.1 b hb
    rcases hL : sortedTxs (items.erase next) with _ | ⟨b, L⟩
    · -- nothing is left above `next`: the run ends with it
      obtain ⟨hI'', k, hready, hview, -, -⟩ := ih hI' (by simp [hL])
      refine ⟨hI'', 1, ?_, ?_, ?_, ?_⟩
      · rw [hready, hl, hs, hL]
        simp
      · rw [hview, hs, hL]
        simp
      · rw [hs]
        simp [htx]
      · rw [hs, hL]
        simp
    · -- `b` lies above `next`, so `next + 1` does not wrap
      have hnext : (next + 1).toNat = next.toNat + 1 :=
        toNat_add_one_of_lt (habove b (by rw [hL]; exact List.mem_cons_self))
      have hge : ∀ c ∈ sortedTxs (items.erase next), (next + 1).toNat ≤ c.Nonce.toNat :=
        fun c hc => by
          have := UInt64.lt_iff_toNat_lt.1 (habove c hc)
          omega
      obtain ⟨hI'', k, hready, hview, hrun, hmax⟩ := ih hI' hge
      refine ⟨hI'', k + 1, ?_, ?_, ?_, ?_⟩
      · rw [hready, hl, hs]
        simp
      · rw [hview, hs, List.drop_succ_cons]
      · rw [hs, List.take_succ_cons, List.map_cons, hrun, hnext, htx, List.range'_succ]
      · intro c hc
        rw [hs, List.drop_succ_cons] at hc
        have := hmax c hc
        omega
  | case2 next index items ready hc hp =>
    intro hI _
    obtain ⟨_, _, hpop, -⟩ := hI.pop hc.1
    rw [hp] at hpop
    cases hpop
  | case3 next index items ready hc =>
    intro hI hge
    refine ⟨hI, 0, by simp, by simp, by simp, fun b hb heq => ?_⟩
    -- a nonce equal to `next` would be the least one, which the loop did not find
    rw [List.drop_zero] at hb
    have hlen : 0 < index.length := Nat.pos_of_ne_zero fun h0 => by
      rw [hI.sortedTxs_eq_nil h0] at hb
      cases hb
    obtain ⟨_, tx0, -, hl0, -, hs0⟩ := hI.pop hlen
    have h0 := hge tx0 (by rw [hs0]; exact List.mem_cons_self)
    have h1 := UInt64.le_iff_toNat_le.1 (hI.root_le hb)
    rw [hI.keyed _ _ hl0] at h0
    exact hc ⟨hlen, UInt64.toNat_inj.1 (by omega)⟩

section Ops

variable {m : TxSortedMap}

theorem valid_put (hv : m.Valid) (tx : TxData) : (m.Put tx).Valid := by
  have hI := hv.indexes
  refine ⟨⟨hI.keyed.insert tx, ?_, ?_⟩, fun c hc => by cases hc⟩
  · simp only [Put, AList.keys_insert]
    split_ifs with hnew
    · -- a new nonce is pushed
      have hnot : tx.Nonce ∉ m.items.keys := fun hm =>
        AList.lookup_eq_none.1 (Option.isNone_iff_eq_none.1 hnew) (AList.mem_keys.2 hm)
      rw [List.erase_of_not_mem hnot]
      exact ((MinHeap.push_spec hI.heap _).2.trans (List.perm_append_singleton _ _)).trans
        (hI.perm.cons _)
    · -- a replaced nonce is already on the heap
      have hmem : tx.Nonce ∈ m.items.keys :=
        AList.mem_keys.1 (AList.lookup_isSome.1 (Option.isSome_iff_ne_none.2 (by simpa using hnew)))
      exact hI.perm.trans (List.perm_cons_erase hmem)
  · simp only [Put]
    split_ifs
    · exact (MinHeap.push_spec hI.heap _).1
    · exact hI.heap

theorem forward_spec (hv : m.Valid) (t : UInt64) :
    (m.Forward t).1.Valid ∧ (m.Forward t).2 = (sortedTxs m.items).filter (·.Nonce < t) ∧
      sortedTxs (m.Forward t).1.items = (sortedTxs m.items).filter (t ≤ ·.Nonce) := by
  obtain ⟨hI, hrem, hview⟩ := forwardLoop_spec t m.index m.items [] hv.indexes
  have hs := hv.indexes.keyed.sortedTxs_sorted
  rw [List.nil_append] at hrem
  refine ⟨⟨hI, fun c hc => ?_⟩, by rw [← takeWhile_nonce_lt hs]; exact hrem,
    by rw [← dropWhile_nonce_lt hs]; exact hview⟩
  -- the cached order loses exactly its front
  simp only [Forward, Option.map_eq_some_iff] at hc
  obtain ⟨c0, hc0, rfl⟩ := hc
  rw [hv.cache_eq c0 hc0, hrem, drop_length_takeWhile]
  exact hview.symm

/-- `Filter`'s range, entry by entry: the map keeps exactly the entries that fail the filter, in
their order, and the result collects the others. -/
theorem foldl_filterStep (f : TxData → Bool) :
    ∀ (l kept : List ((_ : UInt64) × TxData)) (items : TxItems) (rem : List TxData),
      items.entries = kept ++ l →
      (l.foldl (filterStep f) (items, rem)).1.entries = kept ++ l.filter (fun e => !f e.2) ∧
      (l.foldl (filterStep f) (items, rem)).2 = rem ++ (l.filter fun e => f e.2).map (·.2)
  | [], kept, items, rem, he => by simp [he]
  | e :: l, kept, items, rem, he => by
    by_cases hf : f e.2
    · have hnd : (kept.keys ++ e.1 :: l.keys).Nodup := by
        have := items.nodupKeys
        rw [he] at this
        simpa [List.NodupKeys] using this
      have hek : e.1 ∉ kept.keys := fun hm =>
        (List.nodup_append.1 hnd).2.2 _ hm _ List.mem_cons_self rfl
      have he' : (items.erase e.1).entries = kept ++ l := by
        change items.entries.kerase e.1 = _
        rw [he, List.kerase_append_right hek, List.kerase_cons_eq rfl]
      obtain ⟨h1, h2⟩ := foldl_filterStep f l kept (items.erase e.1) (rem ++ [e.2]) he'
      simp only [List.foldl_cons, filterStep, if_pos hf]
      exact ⟨by rw [h1]; simp [hf], by rw [h2]; simp [hf]⟩
    · have he' : items.entries = (kept ++ [e]) ++ l := by rw [he]; simp
      obtain ⟨h1, h2⟩ := foldl_filterStep f l (kept ++ [e]) items rem he'
      simp only [List.foldl_cons, filterStep, if_neg hf]
      exact ⟨by rw [h1]; simp [hf], by rw [h2]; simp [hf]⟩

theorem filter_spec (hv : m.Valid) (f : TxData → Bool) :
    (m.Filter f).1.Valid ∧ List.Perm (m.Filter f).2 ((sortedTxs m.items).filter f) ∧
      sortedTxs (m.Filter f).1.items = (sortedTxs m.items).filter (fun tx => !f tx) := by
  have hk := hv.indexes.keyed
  obtain ⟨h1, h2⟩ := foldl_filterStep f m.items.entries [] m.items [] rfl
  rw [List.nil_append] at h1 h2
  have hview := hk.sortedTxs_of_entries_filter (fun tx => !f tx) h1
  have hrem : (m.items.entries.foldl (filterStep f) (m.items, [])).2 = (txsOf m.items).filter f := by
    rw [h2, txsOf, List.filter_map]
    rfl
  have hperm := hrem ▸ ((sortedTxs_perm m.items).filter f).symm
  unfold Filter
  dsimp only
  split_ifs with hpos
  · -- something was removed: the heap is rebuilt from the remaining nonces
    have hk' := hk.of_sublist (h1 ▸ List.filter_sublist)
    exact ⟨⟨⟨hk', (MinHeap.init_spec _).2, (MinHeap.init_spec _).1⟩, fun c hc => by cases hc⟩,
      hperm, hview⟩
  · -- nothing was removed: every entry passes, so the map is the same
    have hnone : m.items.entries.filter (fun e => f e.2) = [] := by
      have hlen : (m.items.entries.foldl (filterStep f) (m.items, [])).2 = [] :=
        List.eq_nil_of_length_eq_zero (by omega)
      rw [h2] at hlen
      simpa using hlen
    have hsame : (m.items.entries.foldl (filterStep f) (m.items, [])).1 = m.items := by
      apply AList.ext
      rw [h1, List.filter_eq_self]
      intro e he
      simpa using List.filter_eq_nil_iff.1 hnone e he
    refine ⟨?_, hperm, hview⟩
    rw [hsame]
    exact hv

theorem cap_of_neg (m : TxSortedMap) {k : Int} (hk : k < 0) : m.Cap k = none := by
  have hlen : ¬ (m.Len : Int) ≤ k := by omega
  simp [Cap, hlen, hk]

theorem cap_spec (hv : m.Valid) {k : Int} (hk : 0 ≤ k) :
    ∃ m' drops, m.Cap k = some (m', drops) ∧ m'.Valid ∧
      drops = ((sortedTxs m.items).drop k.toNat).reverse ∧
      sortedTxs m'.items = (sortedTxs m.items).take k.toNat := by
  have hI := hv.indexes
  have hlen : m.Len = (sortedTxs m.items).length := by
    rw [length_sortedTxs]
    simp [Len, AList.keys, List.keys]
  unfold Cap
  by_cases hle : (m.Len : Int) ≤ k
  · -- under the limit nothing changes
    rw [if_pos hle]
    refine ⟨m, [], rfl, hv, ?_, ?_⟩
    · rw [List.drop_eq_nil_of_le (by omega)]
      rfl
    · rw [List.take_of_length_le (by omega)]
  · rw [if_neg hle, if_neg (not_lt.2 hk)]
    obtain ⟨h1, h2, h3⟩ := capLoop_spec (S := sortedTxs m.items) k.toNat m.Len m.items []
      hI.keyed (by rw [hlen, List.take_length]) (by omega) (by omega)
    dsimp only
    rw [hI.mergeSort_eq]
    refine ⟨_, _, rfl, ⟨⟨h1, ?_, (MinHeap.init_spec _).1⟩, fun c hc => ?_⟩, ?_, h2⟩
    · -- the rebuilt heap holds the nonces of what is left
      refine (MinHeap.init_spec _).2.trans ?_
      rw [← List.map_take, ← h2, ← h1.map_nonce]
      exact (sortedTxs_perm _).map _
    · -- the cached order loses exactly its back
      simp only [Option.map_eq_some_iff] at hc
      obtain ⟨c0, hc0, rfl⟩ := hc
      rw [hv.cache_eq c0 hc0, h3, h2, hlen, List.take_length]
      simp only [List.nil_append, List.length_reverse, List.length_drop]
      congr 1
      omega
    · rw [h3, hlen, List.take_length, List.nil_append]

theorem remove_spec (hv : m.Valid) (nonce : UInt64) :
    (m.Remove nonce).1.Valid ∧ (m.Remove nonce).2 = (m.items.lookup nonce).isSome ∧
      sortedTxs (m.Remove nonce).1.items = (sortedTxs m.items).filter (·.Nonce ≠ nonce) := by
  have hI := hv.indexes
  unfold Remove
  cases hl : m.items.lookup nonce with
  | none =>
    -- an absent nonce changes nothing
    refine ⟨hv, rfl, (List.filter_eq_self.2 fun tx htx => ?_).symm⟩
    have hin := hI.keyed.lookup_nonce (mem_sortedTxs.1 htx)
    simp only [ne_eq, decide_eq_true_eq]
    intro he
    rw [he, hl] at hin
    cases hin
  | some tx =>
    have hmem : nonce ∈ m.index := hI.perm.mem_iff.2 (mem_keys_of_lookup hl)
    have hi : m.index.idxOf nonce < m.index.length := List.idxOf_lt_length_of_mem hmem
    obtain ⟨t, hrem, hheap, hperm⟩ := MinHeap.remove_spec hI.heap hi
    have hval : MinHeap.val m.index (m.index.idxOf nonce) = nonce := by
      rw [MinHeap.val, List.getD_eq_getElem _ _ hi, List.getElem_idxOf]
    rw [hval] at hrem hperm
    have herase := hperm.erase nonce
    rw [List.erase_cons_head] at herase
    simp only [Option.isNone_some, Bool.false_eq_true, if_false, if_pos hi, hrem, Option.map_some,
      Option.getD_some, Option.isSome_some]
    refine ⟨⟨⟨hI.keyed.erase nonce, ?_, hheap⟩, fun c hc => by cases hc⟩, trivial,
      hI.keyed.sortedTxs_erase hl⟩
    rw [AList.keys_erase]
    exact herase.trans (hI.perm.erase _)

theorem ready_spec (hv : m.Valid) (start : UInt64) :
    (m.Ready start).1.Valid ∧ ((∀ tx ∈ txsOf m.items, start ≤ tx.Nonce) → ∃ k,
      (m.Ready start).2 = (sortedTxs m.items).take k ∧
      sortedTxs (m.Ready start).1.items = (sortedTxs m.items).drop k ∧
      (m.Ready start).2.map (·.Nonce.toNat) = List.range' start.toNat k ∧
      ∀ tx ∈ txsOf (m.Ready start).1.items, tx.Nonce.toNat ≠ start.toNat + k) := by
  have hI := hv.indexes
  unfold Ready
  by_cases hshort : m.index.length = 0 ∨ start < MinHeap.val m.index 0
  · rw [if_pos hshort]
    refine ⟨hv, fun _ => ⟨0, by simp, by simp, by simp, fun tx htx heq => ?_⟩⟩
    -- no heap, or a least nonce above `start`: `start` itself is absent
    rcases hshort with h0 | hlt
    · have hnil := hI.sortedTxs_eq_nil h0
      rw [← mem_sortedTxs, hnil] at htx
      cases htx
    · have hle := UInt64.le_iff_toNat_le.1 (hI.root_le (mem_sortedTxs.2 htx))
      rw [UInt64.lt_iff_toNat_lt] at hlt
      omega
  · rw [if_neg hshort]
    obtain ⟨hlen, hge⟩ := not_or.1 hshort
    obtain ⟨hI', k, hready, hview, hrun, hmax⟩ := readyLoop_spec (MinHeap.val m.index 0)
      m.index m.items [] hI fun tx htx => UInt64.le_iff_toNat_le.1 (hI.root_le htx)
    refine ⟨⟨hI', fun c hc => by cases hc⟩, fun hbelow => ?_⟩
    -- with nothing below `start`, the least nonce is `start`
    obtain ⟨_, tx0, -, hl0, -, hs0⟩ := hI.pop (Nat.pos_of_ne_zero hlen)
    have hmin : start ≤ MinHeap.val m.index 0 := by
      rw [← hI.keyed _ _ hl0]
      exact hbelow tx0 (mem_sortedTxs.1 (by rw [hs0]; exact List.mem_cons_self))
    have hstart : MinHeap.val m.index 0 = start := le_antisymm (not_lt.1 hge) hmin
    rw [hstart] at hrun hmax
    rw [List.nil_append] at hready
    refine ⟨k, hready, hview, by rw [hready]; exact hrun, fun tx htx => hmax tx ?_⟩
    rw [← hview]
    exact mem_sortedTxs.2 htx

theorem flatten_spec (hv : m.Valid) : m.Flatten.1.Valid ∧ m.Flatten.2 = sortedTxs m.items := by
  unfold Flatten
  cases hc : m.cache with
  | some c => exact ⟨hv, hv.cache_eq c hc⟩
  | none => exact ⟨⟨hv.indexes, fun c hc' => by cases hc'; rfl⟩, rfl⟩

theorem flatten_items (m : TxSortedMap) : m.Flatten.1.items = m.items := by
  unfold Flatten
  split <;> rfl

/-- Whatever its start, `Ready` leaves a part of the sorted view. -/
theorem ready_subset (hv : m.Valid) (start : UInt64) :
    sortedTxs (m.Ready start).1.items ⊆ sortedTxs m.items := by
  unfold Ready
  split_ifs
  · exact List.Subset.refl _
  · obtain ⟨-, k, -, hview, -⟩ := readyLoop_spec (MinHeap.val m.index 0) m.index m.items []
      hv.indexes fun tx htx => UInt64.le_iff_toNat_le.1 (hv.indexes.root_le htx)
    dsimp only
    rw [hview]
    exact List.drop_subset _ _

end Ops

end TxSortedMap

/-! ## Runs -/

/-- The operations that change a `txSortedMap`. -/
inductive SortedMapOp where
  | put (tx : TxData)
  | forward (threshold : UInt64)
  | filter (f : TxData → Bool)
  | cap (threshold : Int)
  | remove (nonce : UInt64)
  | ready (start : UInt64)
  | flatten

/-- One operation; `none` is a panic. -/
def SortedMapOp.apply (m : TxSortedMap) : SortedMapOp → Option TxSortedMap
  | .put tx => some (m.Put tx)
  | .forward t => some (m.Forward t).1
  | .filter f => some (m.Filter f).1
  | .cap k => (m.Cap k).map (·.1)
  | .remove n => some (m.Remove n).1
  | .ready s => some (m.Ready s).1
  | .flatten => some m.Flatten.1

/-- A run of operations. -/
def runOps (m : TxSortedMap) : List SortedMapOp → Option TxSortedMap
  | [] => some m
  | op :: ops => (op.apply m).bind fun m' => runOps m' ops

namespace TxSortedMap

variable {m m' : TxSortedMap}

theorem valid_newTxSortedMap : newTxSortedMap.Valid where
  indexes := ⟨fun _ _ h => by simp [newTxSortedMap] at h, List.Perm.refl _,
    fun _ _ h => absurd h (by simp [newTxSortedMap])⟩
  cache_eq _ h := by cases h

theorem Valid.apply (hv : m.Valid) {op : SortedMapOp} (h : op.apply m = some m') : m'.Valid := by
  cases op with
  | put tx => cases h; exact valid_put hv tx
  | forward t => cases h; exact (forward_spec hv t).1
  | filter f => cases h; exact (filter_spec hv f).1
  | cap k =>
    obtain ⟨r, hr, rfl⟩ := Option.map_eq_some_iff.1 h
    by_cases hk : 0 ≤ k
    · obtain ⟨m'', drops, hcap, hv', -⟩ := cap_spec hv hk
      rw [hcap] at hr
      cases hr
      exact hv'
    · rw [cap_of_neg m (by omega)] at hr
      cases hr
  | remove n => cases h; exact (remove_spec hv n).1
  | ready s => cases h; exact (ready_spec hv s).1
  | flatten => cases h; exact (flatten_spec hv).1

theorem valid_runOps : ∀ (ops : List SortedMapOp) {m m' : TxSortedMap}, m.Valid →
    runOps m ops = some m' → m'.Valid
  | [], _, _, hv, h => by cases h; exact hv
  | op :: ops, m, _, hv, h => by
    obtain ⟨m'', h1, h2⟩ := Option.bind_eq_some_iff.1 h
    exact valid_runOps ops (hv.apply h1) h2

end TxSortedMap

/-- The views of a `txSortedMap` agree, and each operation is exact on the sorted view: the heap
holds the map's nonces each once in heap order, a cache is the items sorted by nonce, `Flatten`
returns them in strictly increasing nonce order, `Forward t` removes exactly the nonces below `t`,
`Cap k` drops the highest nonces down to `k` of them, and `Ready s`, with no nonce below `s`,
returns the longest run of consecutive nonces from `s`. -/
structure ViewsAgree (m : TxSortedMap) : Prop where
  keyed : ∀ n tx, m.items.lookup n = some tx → tx.Nonce = n
  index_perm : List.Perm m.index m.items.keys
  index_nodup : m.index.Nodup
  index_heap : MinHeap.IsHeap m.index
  cache_eq : ∀ c, m.cache = some c → c = sortedTxs m.items
  flatten_sorted : SortedByNonce m.Flatten.2 ∧ List.Perm m.Flatten.2 (txsOf m.items)
  forward_exact : ∀ t, (m.Forward t).2 = (sortedTxs m.items).filter (·.Nonce < t) ∧
    sortedTxs (m.Forward t).1.items = (sortedTxs m.items).filter (t ≤ ·.Nonce)
  cap_exact : ∀ k : Int, 0 ≤ k → ∃ m' drops, m.Cap k = some (m', drops) ∧
    drops = ((sortedTxs m.items).drop k.toNat).reverse ∧
    sortedTxs m'.items = (sortedTxs m.items).take k.toNat
  ready_exact : ∀ s, (∀ tx ∈ txsOf m.items, s ≤ tx.Nonce) → ∃ r,
    (m.Ready s).2 = (sortedTxs m.items).take r ∧
    sortedTxs (m.Ready s).1.items = (sortedTxs m.items).drop r ∧
    (m.Ready s).2.map (·.Nonce.toNat) = List.range' s.toNat r ∧
    ∀ tx ∈ txsOf (m.Ready s).1.items, tx.Nonce.toNat ≠ s.toNat + r

theorem TxSortedMap.Valid.viewsAgree {m : TxSortedMap} (hv : m.Valid) : ViewsAgree m where
  keyed := hv.indexes.keyed
  index_perm := hv.indexes.perm
  index_nodup := hv.indexes.perm.nodup_iff.2 m.items.keys_nodup
  index_heap := hv.indexes.heap
  cache_eq := hv.cache_eq
  flatten_sorted := by
    rw [(TxSortedMap.flatten_spec hv).2]
    exact ⟨hv.indexes.keyed.sortedTxs_sorted, sortedTxs_perm _⟩
  forward_exact t := (TxSortedMap.forward_spec hv t).2
  cap_exact _ hk := by
    obtain ⟨m', drops, hcap, -, hdrops, hview⟩ := TxSortedMap.cap_spec hv hk
    exact ⟨m', drops, hcap, hdrops, hview⟩
  ready_exact s := (TxSortedMap.ready_spec hv s).2

theorem txSortedMap_views_agree (ops : List SortedMapOp) {m : TxSortedMap}
    (h : runOps newTxSortedMap ops = some m) : ViewsAgree m :=
  (TxSortedMap.valid_runOps ops TxSortedMap.valid_newTxSortedMap h).viewsAgree

/-- Two transactions put out of nonce order, then flattened. -/
theorem txSortedMap_views_agree_put_flatten : ∃ m, runOps newTxSortedMap
    [.put ⟨2, 1, 21000, none, 0, [], 27, 1, 1⟩, .put ⟨1, 1, 21000, none, 0, [], 27, 1, 1⟩,
      .flatten] = some m ∧ ViewsAgree m :=
  ⟨_, rfl, txSortedMap_views_agree [.put ⟨2, 1, 21000, none, 0, [], 27, 1, 1⟩,
    .put ⟨1, 1, 21000, none, 0, [], 27, 1, 1⟩, .flatten] rfl⟩

end Ccmchain.Core
