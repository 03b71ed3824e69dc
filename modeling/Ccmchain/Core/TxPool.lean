import Ccmchain.Core.TxList
import Ccmchain.Lib.AListSum

/-!
# Truncating the pending pool (`core/tx_pool.go`, `core/tx_noncer.go`)

`truncatePending` brings the number of pending transactions down to `GlobalSlots` by cutting
the lists of the accounts with more than `AccountSlots` of them, the largest first: each account
it takes from the priority queue is an offender, and the offenders before it are cut one
transaction at a time, all together, until they are down to its length. If the pool is still
over the limit when the queue is empty, all offenders are cut together down to `AccountSlots`.
Every cut is `Cap(Len() - 1)`, which drops the highest nonce, and moves the account's pending
nonce down to it with `txNoncer.setIfLower`.

The pool holds what `truncatePending` reads and writes: the two slot limits of its config, the
local accounts, the pending lists and the nonce tracker. Each pending list carries the invariant
every `txList` keeps (`TxList.Valid`). The lookup `all`, the price heap `priced`, the metrics
and the log, which the function only writes, are left out. A missing list is Go's `nil`, whose
`Len()` panics; a panic is `none`.

`spammers` is a `prque` that pops the greatest priority first. The loops are written over the
order in which it pops (`truncateWith`), and the results hold for every order it may pop in:
each account over `AccountSlots` that is not local, once, by non-increasing length
(`SpamOrder`). `truncatePending` pops them in the order of a stable sort.

The argument has two parts. `Trims p p'` says that `p'` cuts some lists of `p` back to a nonce
prefix and lowers each such account's pending nonce by the nonces cut; it is transitive, and
each round of the loops gives one. `SpamInv`, the invariant of the first loop, keeps the
offenders at one common length while the pool is over the limit, which makes every `Cap` take
exactly one transaction and stops the second loop at `AccountSlots`. The count is a `uint64`:
the final limit holds while the pool holds fewer than `2^64` transactions.
-/

namespace Ccmchain.Core

open Ccmchain.Types Ccmchain.Common

/-! ## The model -/

/-- The fields of `TxPoolConfig` that `truncatePending` reads. -/
structure TxPoolConfig where
  AccountSlots : UInt64
  GlobalSlots : UInt64

/-- `txNoncer`: the nonces set so far, over `fallback`, the nonces of the state it copied. -/
structure TxNoncer where
  fallback : Address → UInt64
  nonces : AList (fun _ : Address => UInt64)

namespace TxNoncer

/-- The first step of `get` and `setIfLower`: an account not yet known reads the state. -/
def load (txn : TxNoncer) (addr : Address) : TxNoncer :=
  if txn.nonces.lookup addr = none then
    { txn with nonces := txn.nonces.insert addr (txn.fallback addr) }
  else txn

/-- `get`. -/
def get (txn : TxNoncer) (addr : Address) : TxNoncer × UInt64 :=
  let txn := txn.load addr
  (txn, (txn.nonces.lookup addr).getD 0)

/-- `setIfLower`. -/
def setIfLower (txn : TxNoncer) (addr : Address) (nonce : UInt64) : TxNoncer :=
  let txn := txn.load addr
  if (txn.nonces.lookup addr).getD 0 ≤ nonce then txn
  else { txn with nonces := txn.nonces.insert addr nonce }

end TxNoncer

/-- A pending list: a `txList` with the invariant every `txList` keeps. -/
abbrev PendingList := {l : TxList // l.Valid}

/-- The part of `TxPool` that `truncatePending` reads and writes. -/
structure TxPool where
  config : TxPoolConfig
  pendingNonces : TxNoncer
  locals : List Address
  pending : AList (fun _ : Address => PendingList)

namespace TxPool

/-- The first loop of `truncatePending`, which counts the pending transactions in a `uint64`. -/
def pendingCount (pool : TxPool) : UInt64 :=
  pool.pending.entries.foldl (fun pending e => pending + UInt64.ofNat e.2.1.Len) 0

/-- One round of the inner loops of `truncatePending` for `addr`: `Cap(Len() - 1)` on its
list, which the map keeps behind a pointer, `setIfLower` with each dropped nonce, and
`pending--`. -/
def capOne (pool : TxPool) (pending : UInt64) (addr : Address) : Option (TxPool × UInt64) :=
  match pool.pending.lookup addr with
  | none => none
  | some list =>
    match h : list.1.Cap ((list.1.Len : Int) - 1) with
    | none => none
    | some (list', caps) =>
      some ({ pool with
          pending := pool.pending.insert addr ⟨list', TxList.valid_cap list.2 h⟩
          pendingNonces := caps.foldl (fun txn tx => txn.setIfLower addr tx.Nonce)
            pool.pendingNonces },
        pending - 1)

/-- The inner `for` loop of `truncatePending`: one round for each of `addrs`. -/
def capAll (pool : TxPool) (pending : UInt64) : List Address → Option (TxPool × UInt64)
  | [] => some (pool, pending)
  | addr :: addrs => (pool.capOne pending addr).bind fun r => r.1.capAll r.2 addrs

/-- The length of an account's pending list, `0` for none. -/
def lenOf (pool : TxPool) (addr : Address) : Nat := ((pool.pending.lookup addr).map (·.1.Len)).getD 0

/-- The number of pending transactions. -/
def total (pool : TxPool) : Nat := pool.pending.sum fun _ l => l.1.Len

end TxPool

/-! ## The nonce tracker -/

/-- What `setIfLower` with each of `dropped` leaves of `nonce`: the lowest of them all. -/
def lowerTo (nonce : UInt64) (dropped : List TxData) : UInt64 :=
  dropped.foldl (fun m tx => if m ≤ tx.Nonce then m else tx.Nonce) nonce

theorem lowerTo_append (nonce : UInt64) (xs ys : List TxData) :
    lowerTo nonce (xs ++ ys) = lowerTo (lowerTo nonce xs) ys := by
  simp [lowerTo]

theorem lowerTo_perm (nonce : UInt64) {xs ys : List TxData} (h : List.Perm xs ys) :
    lowerTo nonce xs = lowerTo nonce ys := by
  refine h.foldl_eq' (fun x _ y _ m => ?_) nonce
  simp only [UInt64.le_iff_toNat_le]
  split_ifs <;> first | rfl | (apply UInt64.toNat_inj.1; omega)

theorem lowerTo_of_le {nonce : UInt64} {dropped : List TxData}
    (h : ∀ tx ∈ dropped, nonce ≤ tx.Nonce) : lowerTo nonce dropped = nonce := by
  induction dropped with
  | nil => rfl
  | cons tx rest ih =>
    simp only [lowerTo, List.foldl_cons, if_pos (h tx List.mem_cons_self)]
    exact ih fun x hx => h x (List.mem_cons_of_mem _ hx)

/-- Over nonce-sorted transactions, the lowest is the first. -/
theorem lowerTo_cons_of_sorted (nonce : UInt64) {tx : TxData} {rest : List TxData}
    (hs : SortedByNonce (tx :: rest)) :
    lowerTo nonce (tx :: rest) = if nonce ≤ tx.Nonce then nonce else tx.Nonce := by
  rw [SortedByNonce, List.pairwise_cons] at hs
  show lowerTo (if nonce ≤ tx.Nonce then nonce else tx.Nonce) rest = _
  apply lowerTo_of_le
  intro x hx
  have hlt := hs.1 x hx
  split_ifs with hle
  · exact UInt64.le_of_lt (UInt64.lt_of_le_of_lt hle hlt)
  · exact UInt64.le_of_lt hlt

namespace TxNoncer

variable {txn : TxNoncer} {a b : Address} {n : UInt64}

@[simp] theorem fallback_load : (txn.load a).fallback = txn.fallback := by
  unfold load
  split <;> rfl

theorem lookup_load : (txn.load a).nonces.lookup b =
    if b = a then some ((txn.nonces.lookup a).getD (txn.fallback a)) else txn.nonces.lookup b := by
  unfold load
  by_cases hb : b = a
  · subst hb
    cases h : txn.nonces.lookup b <;> simp [h]
  · split <;> simp [AList.lookup_insert_ne hb]

theorem get_snd : (txn.get a).2 = (txn.nonces.lookup a).getD (txn.fallback a) := by
  simp [get, lookup_load]

theorem get_load : ((txn.load a).get b).2 = (txn.get b).2 := by
  rw [get_snd, get_snd, fallback_load, lookup_load]
  split_ifs with hb
  · subst hb
    rfl
  · rfl

theorem get_insert (t : TxNoncer) :
    (({ t with nonces := t.nonces.insert a n } : TxNoncer).get b).2 =
      if b = a then n else (t.get b).2 := by
  rw [get_snd, get_snd]
  by_cases hb : b = a
  · subst hb
    simp
  · simp [hb, AList.lookup_insert_ne hb]

theorem setIfLower_eq : txn.setIfLower a n =
    if (txn.get a).2 ≤ n then txn.load a
    else { txn.load a with nonces := (txn.load a).nonces.insert a n } := rfl

theorem get_setIfLower : ((txn.setIfLower a n).get b).2 =
    if b = a then (if (txn.get a).2 ≤ n then (txn.get a).2 else n) else (txn.get b).2 := by
  rw [setIfLower_eq]
  by_cases hb : b = a
  · subst hb
    rw [if_pos rfl]
    split_ifs
    · exact get_load
    · rw [get_insert, if_pos rfl]
  · rw [if_neg hb]
    split_ifs
    · exact get_load
    · rw [get_insert, if_neg hb, get_load]

/-- `setIfLower` with each nonce of `dropped`, all for one account. -/
theorem get_foldl_setIfLower (dropped : List TxData) (txn : TxNoncer) :
    ((dropped.foldl (fun t tx => t.setIfLower a tx.Nonce) txn).get b).2 =
      if b = a then lowerTo (txn.get a).2 dropped else (txn.get b).2 := by
  induction dropped generalizing txn with
  | nil =>
    split_ifs with hb
    · subst hb
      rfl
    · rfl
  | cons tx rest ih =>
    rw [List.foldl_cons, ih]
    by_cases hb : b = a
    · subst hb
      simp [get_setIfLower, lowerTo]
    · simp [hb, get_setIfLower]

end TxNoncer

/-! ## Cutting lists -/

namespace TxPool

variable {p p' p'' : TxPool} {n n' : UInt64} {a b : Address} {l : PendingList}

theorem lenOf_of_lookup (h : p.pending.lookup a = some l) : p.lenOf a = l.1.Len := by
  simp [lenOf, h]

theorem exists_of_lenOf_pos (h : 0 < p.lenOf a) :
    ∃ l, p.pending.lookup a = some l ∧ 0 < l.1.Len := by
  unfold lenOf at h
  cases hl : p.pending.lookup a with
  | none => simp [hl] at h
  | some l => exact ⟨l, rfl, by simpa [hl] using h⟩

/-- `p'` is `p` with some lists cut back to a nonce prefix: each account cut has its pending
nonce lowered by the nonces cut, and every other account is as it was. -/
structure Trims (p p' : TxPool) : Prop where
  config : p'.config = p.config
  locals : p'.locals = p.locals
  absent : ∀ a, p.pending.lookup a = none →
    p'.pending.lookup a = none ∧ (p'.pendingNonces.get a).2 = (p.pendingNonces.get a).2
  present : ∀ a l, p.pending.lookup a = some l → ∃ l', p'.pending.lookup a = some l' ∧
    (l'.1.Len = l.1.Len → l' = l) ∧
    sortedTxs l'.1.txs.items = (sortedTxs l.1.txs.items).take l'.1.Len ∧
    (p'.pendingNonces.get a).2 =
      lowerTo (p.pendingNonces.get a).2 ((sortedTxs l.1.txs.items).drop l'.1.Len)

theorem Trims.refl (p : TxPool) : Trims p p where
  config := rfl
  locals := rfl
  absent _ h := ⟨h, rfl⟩
  present _ l h := ⟨l, h, fun _ => rfl, by rw [TxList.len_eq, List.take_length],
    by rw [TxList.len_eq, List.drop_length]; rfl⟩

/-- A cut of a cut is a cut: the prefixes nest, and lowering is the same in any order. -/
theorem Trims.trans (h₁ : Trims p p') (h₂ : Trims p' p'') : Trims p p'' where
  config := h₂.config.trans h₁.config
  locals := h₂.locals.trans h₁.locals
  absent a h := by
    obtain ⟨h', hn'⟩ := h₁.absent a h
    obtain ⟨h'', hn''⟩ := h₂.absent a h'
    exact ⟨h'', hn''.trans hn'⟩
  present a l h := by
    obtain ⟨l', h', heq', hview', hnonce'⟩ := h₁.present a l h
    obtain ⟨l'', h'', heq'', hview'', hnonce''⟩ := h₂.present a l' h'
    have hlen : (sortedTxs l.1.txs.items).length = l.1.Len := (TxList.len_eq _).symm
    have hle' : l'.1.Len ≤ l.1.Len := by
      have := congrArg List.length hview'
      rw [← TxList.len_eq, List.length_take] at this
      omega
    have hle'' : l''.1.Len ≤ l'.1.Len := by
      have := congrArg List.length hview''
      rw [← TxList.len_eq, List.length_take, ← TxList.len_eq] at this
      omega
    refine ⟨l'', h'', fun hL => (heq'' (by omega)).trans (heq' (by omega)), ?_, ?_⟩
    · rw [hview'', hview', List.take_take, Nat.min_eq_left hle'']
    · have hsplit : (sortedTxs l.1.txs.items).drop l''.1.Len =
          ((sortedTxs l.1.txs.items).take l'.1.Len).drop l''.1.Len ++
            (sortedTxs l.1.txs.items).drop l'.1.Len := by
        conv_lhs => rw [← List.take_append_drop l'.1.Len (sortedTxs l.1.txs.items)]
        rw [List.drop_append_of_le_length (by simp; omega)]
      rw [hnonce'', hnonce', hview', ← lowerTo_append, hsplit]
      exact lowerTo_perm _ List.perm_append_comm

theorem Trims.isSome (h : Trims p p') (ha : (p.pending.lookup a).isSome) :
    (p'.pending.lookup a).isSome := by
  obtain ⟨l, hl⟩ := Option.isSome_iff_exists.1 ha
  obtain ⟨l', hl', -⟩ := h.present a l hl
  simp [hl']

/-- What one round can do: it needs a list of at least one transaction, cuts it by one, lowers
the pending nonce by the nonce cut, and counts one less. -/
theorem capOne_eq_some (h : p.capOne n a = some (p', n')) :
    ∃ l l', p.pending.lookup a = some l ∧ 0 < l.1.Len ∧
      sortedTxs l'.1.txs.items = (sortedTxs l.1.txs.items).take (l.1.Len - 1) ∧
      p' = { p with
        pending := p.pending.insert a l'
        pendingNonces := ((sortedTxs l.1.txs.items).drop (l.1.Len - 1)).reverse.foldl
          (fun txn tx => txn.setIfLower a tx.Nonce) p.pendingNonces } ∧
      n' = n - 1 := by
  unfold capOne at h
  split at h
  · cases h
  · rename_i l hl
    split at h
    · cases h
    · rename_i list' caps hc
      have hpos : 0 < l.1.Len := by
        by_contra h0
        rw [TxList.cap_of_neg _ (by omega)] at hc
        cases hc
      have hk : ((l.1.Len : Int) - 1).toNat = l.1.Len - 1 := by omega
      obtain ⟨l'', hcap, hview⟩ := TxList.cap_spec l.2 (k := (l.1.Len : Int) - 1) (by omega)
      rw [hcap, hk] at hc
      simp only [Option.some.injEq, Prod.mk.injEq] at hc
      obtain ⟨rfl, rfl⟩ := hc
      cases h
      exact ⟨l, _, hl, hpos, by rw [hview, hk], rfl, rfl⟩

theorem capOne_isSome (hl : p.pending.lookup a = some l) (hpos : 0 < l.1.Len) :
    ∃ r, p.capOne n a = some r := by
  obtain ⟨l', hcap, -⟩ := TxList.cap_spec l.2 (k := (l.1.Len : Int) - 1) (by omega)
  unfold capOne
  split
  · rename_i hnone
    rw [hl] at hnone
    cases hnone
  · rename_i l₀ hl₀
    rw [hl] at hl₀
    cases hl₀
    split
    · rename_i hc
      rw [hcap] at hc
      cases hc
    · exact ⟨_, rfl⟩

/-- One round trims the pool, at `a` only, by one transaction. -/
theorem capOne_spec (h : p.capOne n a = some (p', n')) :
    n' = n - 1 ∧ Trims p p' ∧ (∀ b, b ≠ a → p'.pending.lookup b = p.pending.lookup b) ∧
      p'.lenOf a + 1 = p.lenOf a ∧ p'.total + 1 = p.total := by
  obtain ⟨l, l', hl, hpos, hview, rfl, rfl⟩ := capOne_eq_some h
  have hlen' : l'.1.Len = l.1.Len - 1 := by
    rw [TxList.len_eq, hview, List.length_take, ← TxList.len_eq]
    omega
  refine ⟨rfl, ⟨rfl, rfl, ?_, ?_⟩, ?_, ?_, ?_⟩
  · intro b hb
    have hba : b ≠ a := by
      rintro rfl
      rw [hl] at hb
      cases hb
    exact ⟨by simp [AList.lookup_insert_ne hba, hb],
      by simp only [TxNoncer.get_foldl_setIfLower, if_neg hba]⟩
  · intro b lb hb
    by_cases hba : b = a
    · subst hba
      rw [hl] at hb
      cases hb
      refine ⟨l', by simp, fun h => by omega, by rw [hview, hlen'], ?_⟩
      simp only [TxNoncer.get_foldl_setIfLower, hlen']
      exact lowerTo_perm _ (List.reverse_perm _)
    · refine ⟨lb, by simp [AList.lookup_insert_ne hba, hb], fun _ => rfl, ?_, ?_⟩
      · rw [TxList.len_eq lb.1, List.take_length]
      · rw [TxList.len_eq lb.1, List.drop_length]
        simp only [TxNoncer.get_foldl_setIfLower, if_neg hba]
        rfl
  · intro b hba
    simp [AList.lookup_insert_ne hba]
  · rw [lenOf_of_lookup (by simp : AList.lookup a (p.pending.insert a l') = some l'),
      lenOf_of_lookup hl]
    omega
  · unfold total
    rw [AList.sum_insert, AList.sum_eq_add_sum_erase hl]
    omega

theorem len_le_total (h : p.pending.lookup a = some l) : l.1.Len ≤ p.total := by
  have := AList.sum_eq_add_sum_erase (f := fun _ l => l.1.Len) h
  unfold total
  omega

theorem lenOf_eq_of_lookup_eq (h : p'.pending.lookup b = p.pending.lookup b) :
    p'.lenOf b = p.lenOf b := by
  simp [lenOf, h]

/-- What the inner loop can do: each account of `addrs` is cut once for each time it occurs. -/
theorem capAll_spec : ∀ {addrs : List Address} {p p' : TxPool} {n n' : UInt64},
    p.capAll n addrs = some (p', n') →
    n' = n - UInt64.ofNat addrs.length ∧ Trims p p' ∧
      (∀ b, b ∉ addrs → p'.pending.lookup b = p.pending.lookup b) ∧
      (∀ b, p'.lenOf b + addrs.count b = p.lenOf b) ∧ p'.total + addrs.length = p.total
  | [], p, _, _, _, h => by
    cases h
    exact ⟨by simp, Trims.refl p, fun _ _ => rfl, fun _ => by simp, by simp⟩
  | a :: addrs, p, p', n, n', h => by
    obtain ⟨⟨p₁, n₁⟩, h₁, h₂⟩ := Option.bind_eq_some_iff.1 h
    dsimp only at h₂
    obtain ⟨hn₁, htr₁, hfr₁, hlen₁, htot₁⟩ := capOne_spec h₁
    obtain ⟨hn₂, htr₂, hfr₂, hlen₂, htot₂⟩ := capAll_spec h₂
    refine ⟨?_, htr₁.trans htr₂, fun b hb => ?_, fun b => ?_, ?_⟩
    · rw [hn₂, hn₁, List.length_cons, UInt64.ofNat_add]
      grind
    · rw [List.mem_cons, not_or] at hb
      rw [hfr₂ b hb.2, hfr₁ b hb.1]
    · have h₂b := hlen₂ b
      by_cases hba : b = a
      · subst hba
        rw [List.count_cons_self]
        omega
      · rw [List.count_cons_of_ne (Ne.symm hba), ← lenOf_eq_of_lookup_eq (hfr₁ b hba)]
        exact h₂b
    · rw [List.length_cons]
      omega

theorem capAll_isSome : ∀ {addrs : List Address} {p : TxPool} {n : UInt64}, addrs.Nodup →
    (∀ a ∈ addrs, 0 < p.lenOf a) → ∃ r, p.capAll n addrs = some r
  | [], _, _, _, _ => ⟨_, rfl⟩
  | a :: addrs, p, n, hnd, hpos => by
    obtain ⟨l, hl, hl0⟩ := exists_of_lenOf_pos (hpos a List.mem_cons_self)
    obtain ⟨⟨p₁, n₁⟩, h₁⟩ := capOne_isSome (n := n) hl hl0
    obtain ⟨-, -, hfr₁, -, -⟩ := capOne_spec h₁
    rw [List.nodup_cons] at hnd
    have hpos₁ : ∀ b ∈ addrs, 0 < p₁.lenOf b := fun b hb => by
      rw [lenOf_eq_of_lookup_eq (hfr₁ b fun h => hnd.1 (h ▸ hb))]
      exact hpos b (List.mem_cons_of_mem _ hb)
    obtain ⟨r, hr⟩ := capAll_isSome (n := n₁) hnd.2 hpos₁
    exact ⟨r, by simp [capAll, h₁, hr]⟩

theorem capAll_lenOf_lt {addrs : List Address} (h : p.capAll n addrs = some (p', n'))
    (ha : a ∈ addrs) : p'.lenOf a < p.lenOf a := by
  have hlen := (capAll_spec h).2.2.2.1 a
  have hcount := List.count_pos_iff.2 ha
  omega

/-- The two trimming loops of `truncatePending`: while the pool is over `GlobalSlots` and the
last of `offenders` holds more than `bound` transactions, one round for each of `offenders`.
The first loop runs it over the offenders before the newest, with the newest one's length as
the bound; the second over all offenders, with `AccountSlots`. -/
def trimLoop (pool : TxPool) (pending : UInt64) (offenders : List Address) (bound : Nat) :
    Option (TxPool × UInt64) :=
  if pool.config.GlobalSlots < pending then
    match _hl : offenders.getLast? with
    | none => none
    | some last =>
      match pool.pending.lookup last with
      | none => none
      | some list =>
        if bound < list.1.Len then
          match _hc : pool.capAll pending offenders with
          | none => none
          | some (pool', pending') => pool'.trimLoop pending' offenders bound
        else some (pool, pending)
  else some (pool, pending)
termination_by (offenders.getLast?.map pool.lenOf).getD 0
decreasing_by
  rw [_hl]
  exact capAll_lenOf_lt _hc (List.mem_of_getLast? _hl)

section TrimLoop

variable {offenders : List Address} {bound : Nat}

theorem trimLoop_of_not_lt (hG : ¬ p.config.GlobalSlots < n) :
    p.trimLoop n offenders bound = some (p, n) := by
  rw [trimLoop, if_neg hG]

theorem trimLoop_of_le {last : Address} (hlast : offenders.getLast? = some last)
    (hl : p.pending.lookup last = some l) (hb : ¬ bound < l.1.Len) :
    p.trimLoop n offenders bound = some (p, n) := by
  rw [trimLoop]
  split_ifs with hG
  · split
    · rename_i h
      rw [hlast] at h
      cases h
    · rename_i last' h
      rw [hlast] at h
      cases h
      simp [hl, hb]
  · rfl

theorem trimLoop_of_capAll {last : Address} (hG : p.config.GlobalSlots < n)
    (hlast : offenders.getLast? = some last) (hl : p.pending.lookup last = some l)
    (hb : bound < l.1.Len) (hc : p.capAll n offenders = some (p', n')) :
    p.trimLoop n offenders bound = p'.trimLoop n' offenders bound := by
  rw [trimLoop, if_pos hG]
  split
  · rename_i h
    rw [hlast] at h
    cases h
  · rename_i last' h
    rw [hlast] at h
    cases h
    simp only [hl, if_pos hb]
    split
    · rename_i h
      rw [hc] at h
      cases h
    · rename_i h
      rw [hc] at h
      cases h
      rfl

/-- The trimming loop, from offenders that all have one length `K`: it returns with the
offenders again all of one length `K'`, no longer than `K` and cut no lower than `bound`, once
the pool is within `GlobalSlots` or the offenders are down to `bound`. -/
theorem trimLoop_spec (bound : Nat) (hnd : offenders.Nodup) (hne : offenders ≠ []) :
    ∀ (K : Nat) {p : TxPool} {n : UInt64}, (∀ a ∈ offenders, (p.pending.lookup a).isSome) →
      (∀ a ∈ offenders, p.lenOf a = K) → n = UInt64.ofNat p.total →
      ∃ p' n' K', p.trimLoop n offenders bound = some (p', n') ∧ Trims p p' ∧
        (∀ b, b ∉ offenders → p'.pending.lookup b = p.pending.lookup b) ∧
        p'.total ≤ p.total ∧ n' = UInt64.ofNat p'.total ∧ (∀ a ∈ offenders, p'.lenOf a = K') ∧ K' ≤ K ∧
        min K bound ≤ K' ∧ (n' ≤ p.config.GlobalSlots ∨ K' ≤ bound) := by
  have hlast := List.getLast?_eq_some_getLast hne
  have hmem := List.getLast_mem hne
  -- one step of the loop cuts every offender by one, so the induction is on their length
  intro K
  induction K with
  | zero =>
    intro p n hkeys heq hn
    obtain ⟨l, hl⟩ := Option.isSome_iff_exists.1 (hkeys _ hmem)
    have hl0 : l.1.Len = 0 := by rw [← lenOf_of_lookup hl, heq _ hmem]
    refine ⟨p, n, 0, ?_, Trims.refl p, fun _ _ => rfl, le_refl _, hn, heq, le_refl 0, by simp,
      by simp⟩
    by_cases hG : p.config.GlobalSlots < n
    · exact trimLoop_of_le hlast hl (by omega)
    · exact trimLoop_of_not_lt hG
  | succ K ih =>
    intro p n hkeys heq hn
    obtain ⟨l, hl⟩ := Option.isSome_iff_exists.1 (hkeys _ hmem)
    have hlK : l.1.Len = K + 1 := by rw [← lenOf_of_lookup hl, heq _ hmem]
    by_cases hG : p.config.GlobalSlots < n
    · by_cases hb : bound < K + 1
      · obtain ⟨⟨p₁, n₁⟩, hc⟩ :=
          capAll_isSome (n := n) hnd fun a ha => by rw [heq a ha]; omega
        obtain ⟨hn₁, htr₁, hfr₁, hlen₁, htot₁⟩ := capAll_spec hc
        have heq₁ : ∀ a ∈ offenders, p₁.lenOf a = K := fun a ha => by
          have := hlen₁ a
          rw [List.count_eq_one_of_mem hnd ha, heq a ha] at this
          omega
        have hkeys₁ : ∀ a ∈ offenders, (p₁.pending.lookup a).isSome := fun a ha =>
          htr₁.isSome (hkeys a ha)
        have hn₁' : n₁ = UInt64.ofNat p₁.total := by
          rw [hn₁, hn, ← htot₁, UInt64.ofNat_add, UInt64.add_sub_cancel]
        obtain ⟨p', n', K', hloop, htr', hfr', htot', hn', heq', hK', hmin', hexit'⟩ :=
          ih hkeys₁ heq₁ hn₁'
        refine ⟨p', n', K', ?_, htr₁.trans htr', fun b hb => (hfr' b hb).trans (hfr₁ b hb),
          by omega, hn', heq', by omega, by omega, ?_⟩
        · rw [trimLoop_of_capAll hG hlast hl (by omega) hc, hloop]
        · rwa [htr₁.config] at hexit'
      · refine ⟨p, n, K + 1, trimLoop_of_le hlast hl (by omega), Trims.refl p, fun _ _ => rfl,
          le_refl _, hn, heq, le_refl _, by omega, Or.inr (by omega)⟩
    · refine ⟨p, n, K + 1, trimLoop_of_not_lt hG, Trims.refl p, fun _ _ => rfl, le_refl _, hn,
        heq, le_refl _, by omega, Or.inl (UInt64.not_lt.1 hG)⟩

end TrimLoop

/-- The first loop of `truncatePending`, over the accounts in the order `spammers` pops them:
each joins the offenders, and the offenders before it are trimmed down to its length. -/
def spamLoop (pool : TxPool) (pending : UInt64) (offenders : List Address) :
    List Address → Option (TxPool × UInt64 × List Address)
  | [] => some (pool, pending, offenders)
  | offender :: spammers =>
    if pool.config.GlobalSlots < pending then
      if 1 < (offenders ++ [offender]).length then
        match pool.pending.lookup offender with
        | none => none
        | some list =>
          (pool.trimLoop pending offenders list.1.Len).bind fun (pool', pending') =>
            pool'.spamLoop pending' (offenders ++ [offender]) spammers
      else pool.spamLoop pending (offenders ++ [offender]) spammers
    else some (pool, pending, offenders)

/-- `truncatePending`, with `spammers` popping the accounts in the order `order`. -/
def truncateWith (pool : TxPool) (order : List Address) : Option TxPool :=
  let pending := pool.pendingCount
  if pending ≤ pool.config.GlobalSlots then some pool
  else
    (pool.spamLoop pending [] order).bind fun (pool', pending', offenders) =>
      if pool'.config.GlobalSlots < pending' ∧ 0 < offenders.length then
        (pool'.trimLoop pending' offenders pool'.config.AccountSlots.toNat).map (·.1)
      else some pool'

/-- The accounts `spammers` is filled with, in the map's order: those not local with more than
`AccountSlots` transactions, each with its length as its priority. -/
def spammers (pool : TxPool) : List (Address × Nat) :=
  (pool.pending.entries.filter fun e =>
    !pool.locals.contains e.1 && decide (pool.config.AccountSlots.toNat < e.2.1.Len)).map
    fun e => (e.1, e.2.1.Len)

/-- An order `spammers` pops in: the greatest priority first, a tie in the map's order. -/
def spamOrder (pool : TxPool) : List Address :=
  (pool.spammers.mergeSort fun x y => decide (y.2 ≤ x.2)).map (·.1)

/-- `truncatePending`. -/
def truncatePending (pool : TxPool) : Option TxPool := pool.truncateWith pool.spamOrder

/-! ## The offenders' lengths -/

/-- The orders `spammers` may pop in: each account over `AccountSlots` that is not local, once,
by non-increasing length. -/
structure SpamOrder (pool : TxPool) (order : List Address) : Prop where
  nodup : order.Nodup
  mem : ∀ a, a ∈ order ↔ a ∉ pool.locals ∧ pool.config.AccountSlots.toNat < pool.lenOf a
  sorted : order.Pairwise fun a b => pool.lenOf b ≤ pool.lenOf a

/-- The first loop with `offenders` taken and `spammers` left in the queue: the count is exact
modulo `2^64`, every account involved is over `AccountSlots`, and while the pool is over
`GlobalSlots` the offenders share one length, which no account still queued exceeds. -/
structure SpamInv (p : TxPool) (n : UInt64) (offenders spammers : List Address) : Prop where
  count : n = UInt64.ofNat p.total
  nodup : (offenders ++ spammers).Nodup
  above : ∀ a ∈ offenders ++ spammers, p.config.AccountSlots.toNat < p.lenOf a
  sorted : spammers.Pairwise fun a b => p.lenOf b ≤ p.lenOf a
  level : p.config.GlobalSlots < n → offenders ≠ [] →
    ∃ L, (∀ a ∈ offenders, p.lenOf a = L) ∧ ∀ s ∈ spammers, p.lenOf s ≤ L

section SpamLoop

variable {offenders spammers : List Address} {o : Address}

theorem spamLoop_of_not_lt (hG : ¬ p.config.GlobalSlots < n) :
    p.spamLoop n offenders (o :: spammers) = some (p, n, offenders) := by
  simp [spamLoop, hG]

theorem spamLoop_first (hG : p.config.GlobalSlots < n) :
    p.spamLoop n [] (o :: spammers) = p.spamLoop n [o] spammers := by
  simp [spamLoop, hG]

theorem spamLoop_of_trimLoop (hG : p.config.GlobalSlots < n) (hne : offenders ≠ [])
    (hl : p.pending.lookup o = some l) (ht : p.trimLoop n offenders l.1.Len = some (p', n')) :
    p.spamLoop n offenders (o :: spammers) = p'.spamLoop n' (offenders ++ [o]) spammers := by
  simp [spamLoop, hG, hne, hl, ht]

/-- One account taken from the queue keeps the invariant. -/
theorem SpamInv.step (hinv : SpamInv p n offenders (o :: spammers))
    (hG : p.config.GlobalSlots < n) :
    ∃ p₁ n₁, p.spamLoop n offenders (o :: spammers) = p₁.spamLoop n₁ (offenders ++ [o]) spammers ∧
      Trims p p₁ ∧ (∀ b, b ∉ offenders → p₁.pending.lookup b = p.pending.lookup b) ∧
      p₁.total ≤ p.total ∧ SpamInv p₁ n₁ (offenders ++ [o]) spammers := by
  have hnd : (offenders ++ [o] ++ spammers).Nodup := by simpa using hinv.nodup
  have hsorted := List.pairwise_cons.1 hinv.sorted
  have hover_o := hinv.above o (by simp)
  by_cases hne : offenders = []
  · subst hne
    -- the first offender has nothing to be levelled against
    refine ⟨p, n, spamLoop_first hG, Trims.refl p, fun _ _ => rfl, le_refl _, hinv.count, hnd,
      fun a ha => hinv.above a (by simpa using ha), hsorted.2, fun _ _ => ⟨p.lenOf o, ?_, hsorted.1⟩⟩
    simp
  · obtain ⟨lo, hlo, -⟩ := exists_of_lenOf_pos (a := o) (p := p) (by omega)
    obtain ⟨L, hL, hLs⟩ := hinv.level hG hne
    have hoL : p.lenOf o ≤ L := hLs o List.mem_cons_self
    have hndo : offenders.Nodup := (List.nodup_append.1 hinv.nodup).1
    have hkeys : ∀ a ∈ offenders, (p.pending.lookup a).isSome := fun a ha => by
      obtain ⟨l, hl, -⟩ := exists_of_lenOf_pos (a := a) (p := p)
        (by have := hinv.above a (List.mem_append_left _ ha); omega)
      simp [hl]
    obtain ⟨p₁, n₁, K', ht, htr, hfr, htot, hn₁, hK', -, hmin, hexit⟩ :=
      trimLoop_spec lo.1.Len hndo hne L hkeys hL hinv.count
    have hdisj : ∀ b ∈ o :: spammers, b ∉ offenders := fun b hb hb' =>
      List.disjoint_of_nodup_append hinv.nodup hb' hb
    have hsame : ∀ b ∈ o :: spammers, p₁.lenOf b = p.lenOf b := fun b hb =>
      lenOf_eq_of_lookup_eq (hfr b (hdisj b hb))
    have hlen_o : lo.1.Len = p.lenOf o := (lenOf_of_lookup hlo).symm
    refine ⟨p₁, n₁, spamLoop_of_trimLoop hG hne hlo ht, htr, hfr, htot, hn₁, hnd, ?_,
      hsorted.2.imp_of_mem fun ha hb hab => by rwa [hsame _ (List.mem_cons_of_mem _ ha),
        hsame _ (List.mem_cons_of_mem _ hb)], ?_⟩
    · intro a ha
      rw [htr.config]
      rw [List.append_assoc, List.mem_append] at ha
      rcases ha with ha | ha
      · rw [hK' a ha]
        have := hinv.above o (by simp)
        omega
      · rw [hsame a (by simpa using ha)]
        exact hinv.above a (List.mem_append_right _ (by simpa using ha))
    · -- still over the limit: the loop stopped at the new offender's length
      intro hG₁ _
      rw [htr.config] at hG₁
      have hK : K' = p.lenOf o := by
        rcases hexit with h | h
        · exact absurd hG₁ (UInt64.not_lt.2 h)
        · omega
      refine ⟨p.lenOf o, fun a ha => ?_, fun s hs => ?_⟩
      · rcases List.mem_append.1 ha with ha | ha
        · rw [hK' a ha, hK]
        · rw [List.mem_singleton.1 ha, hsame o List.mem_cons_self]
      · rw [hsame s (List.mem_cons_of_mem _ hs)]
        exact hsorted.1 s hs

/-- The first loop ends with the queue empty or the pool within `GlobalSlots`. -/
theorem SpamInv.run : ∀ {spammers offenders : List Address} {p : TxPool} {n : UInt64},
    SpamInv p n offenders spammers →
    ∃ p' n' offenders' rest, p.spamLoop n offenders spammers = some (p', n', offenders') ∧
      offenders' ++ rest = offenders ++ spammers ∧ Trims p p' ∧
      (∀ b, b ∉ offenders ++ spammers → p'.pending.lookup b = p.pending.lookup b) ∧
      p'.total ≤ p.total ∧ SpamInv p' n' offenders' rest ∧
      (n' ≤ p.config.GlobalSlots ∨ rest = [])
  | [], offenders, p, n, hinv =>
    ⟨p, n, offenders, [], rfl, rfl, Trims.refl p, fun _ _ => rfl, le_refl _, hinv, Or.inr rfl⟩
  | o :: spammers, offenders, p, n, hinv => by
    by_cases hG : p.config.GlobalSlots < n
    · obtain ⟨p₁, n₁, heq, htr₁, hfr₁, htot₁, hinv₁⟩ := hinv.step hG
      obtain ⟨p', n', offenders', rest, hrun, hsplit, htr', hfr', htot', hinv', hexit⟩ :=
        SpamInv.run hinv₁
      refine ⟨p', n', offenders', rest, heq.trans hrun, by simpa using hsplit, htr₁.trans htr',
        fun b hb => ?_, htot'.trans htot₁, hinv', ?_⟩
      · rw [hfr' b (by simpa using hb), hfr₁ b fun h => hb (List.mem_append_left _ h)]
      · rwa [htr₁.config] at hexit
    · exact ⟨p, n, offenders, o :: spammers, spamLoop_of_not_lt hG, rfl, Trims.refl p,
        fun _ _ => rfl, le_refl _, hinv, Or.inl (UInt64.not_lt.1 hG)⟩

end SpamLoop

theorem foldl_add_ofNat {β : Type} (f : β → Nat) (init : UInt64) (xs : List β) :
    xs.foldl (fun acc x => acc + UInt64.ofNat (f x)) init = init + UInt64.ofNat (xs.map f).sum := by
  induction xs generalizing init with
  | nil => simp
  | cons x xs ih =>
    rw [List.foldl_cons, ih, List.map_cons, List.sum_cons, UInt64.ofNat_add, UInt64.add_assoc]

/-- The first loop of `truncatePending` counts modulo `2^64`. -/
theorem pendingCount_eq (pool : TxPool) : pool.pendingCount = UInt64.ofNat pool.total := by
  have h := foldl_add_ofNat (fun e : (_ : Address) × PendingList => e.2.1.Len) 0
    pool.pending.entries
  rw [UInt64.zero_add] at h
  exact h

/-- Below `2^64` the count is exact. -/
theorem total_le_of_ofNat_le {q : TxPool} {k : UInt64} (htot : q.total < 2 ^ 64)
    (h : UInt64.ofNat q.total ≤ k) : q.total ≤ k.toNat := by
  rw [UInt64.le_iff_toNat_le, UInt64.toNat_ofNat_of_lt' htot] at h
  exact h

/-- `truncatePending` with any order the queue may pop in: it trims only the queued accounts,
none of them below `AccountSlots`, and while the count is exact it leaves the pool within
`GlobalSlots` or every queued account at `AccountSlots` at most. -/
theorem truncateWith_spec {pool : TxPool} {order : List Address} (hord : SpamOrder pool order) :
    ∃ pool', pool.truncateWith order = some pool' ∧ Trims pool pool' ∧
      (∀ b, b ∉ order → pool'.pending.lookup b = pool.pending.lookup b) ∧
      (∀ a ∈ order, pool.config.AccountSlots.toNat ≤ pool'.lenOf a) ∧
      (pool.total < 2 ^ 64 → pool'.total ≤ pool.config.GlobalSlots.toNat ∨
        ∀ a ∈ order, pool'.lenOf a ≤ pool.config.AccountSlots.toNat) := by
  have hcount := pendingCount_eq pool
  unfold truncateWith
  by_cases h0 : pool.pendingCount ≤ pool.config.GlobalSlots
  · refine ⟨pool, by simp [h0], Trims.refl pool, fun _ _ => rfl,
      fun a ha => ((hord.mem a).1 ha).2.le, fun htot => Or.inl ?_⟩
    rw [hcount] at h0
    exact total_le_of_ofNat_le htot h0
  · have hinv : SpamInv pool pool.pendingCount [] order :=
      ⟨hcount, by simpa using hord.nodup, fun a ha => ((hord.mem a).1 (by simpa using ha)).2,
        hord.sorted, fun _ h => absurd rfl h⟩
    obtain ⟨p₁, n₁, off₁, rest, hrun, hsplit, htr₁, hfr₁, htot₁, hinv₁, hexit₁⟩ := hinv.run
    rw [List.nil_append] at hsplit hfr₁
    have hcfg := htr₁.config
    by_cases h2 : p₁.config.GlobalSlots < n₁ ∧ 0 < off₁.length
    · -- the queue ran out with the pool still over the limit: the second loop runs
      have hrest : rest = [] := hexit₁.resolve_left (UInt64.not_le.2 (hcfg ▸ h2.1))
      subst hrest
      rw [List.append_nil] at hsplit
      subst hsplit
      have hne : off₁ ≠ [] := List.ne_nil_of_length_pos h2.2
      obtain ⟨L, hL, -⟩ := hinv₁.level h2.1 hne
      have hkeys : ∀ a ∈ off₁, (p₁.pending.lookup a).isSome := fun a ha => by
        obtain ⟨l, hl, -⟩ := exists_of_lenOf_pos (a := a) (p := p₁)
          (by have := hinv₁.above a (by simpa using ha); omega)
        simp [hl]
      have hAL : p₁.config.AccountSlots.toNat < L := by
        have := hinv₁.above _ (List.mem_append_left [] (List.getLast_mem hne))
        rwa [hL _ (List.getLast_mem hne)] at this
      obtain ⟨p₂, n₂, K', ht, htr₂, hfr₂, htot₂, hn₂, hK', -, hmin, hexit⟩ :=
        trimLoop_spec p₁.config.AccountSlots.toNat hord.nodup hne L hkeys hL
          hinv₁.count
      rw [hcfg] at hAL hmin hexit
      refine ⟨p₂, by simp [h0, hrun, h2, ht], htr₁.trans htr₂,
        fun b hb => (hfr₂ b hb).trans (hfr₁ b hb), fun a ha => ?_, fun htot => ?_⟩
      · rw [hK' a ha]
        omega
      · rcases hexit with h | h
        · exact Or.inl (total_le_of_ofNat_le (lt_of_le_of_lt (htot₂.trans htot₁) htot) (hn₂ ▸ h))
        · exact Or.inr fun a ha => by rw [hK' a ha]; exact h
    · refine ⟨p₁, by simp [h0, hrun, h2], htr₁, hfr₁, fun a ha => ?_, fun htot => ?_⟩
      · rw [← hcfg]
        exact (hinv₁.above a (by rw [hsplit]; exact ha)).le
      · have hfits := lt_of_le_of_lt htot₁ htot
        rcases hexit₁ with h | h
        · exact Or.inl (total_le_of_ofNat_le hfits (hinv₁.count ▸ h))
        · -- the queue is empty, so if the pool is still over the limit nobody was queued
          subst h
          rw [List.append_nil] at hsplit
          subst hsplit
          by_cases hG : p₁.config.GlobalSlots < n₁
          · have hlen : ¬ 0 < off₁.length := fun hl => h2 ⟨hG, hl⟩
            have hnil : off₁ = [] := List.eq_nil_of_length_eq_zero (by omega)
            exact Or.inr fun a ha => by simp [hnil] at ha
          · rw [hcfg] at hG
            exact Or.inl (total_le_of_ofNat_le hfits (hinv₁.count ▸ UInt64.not_lt.1 hG))

theorem mem_spammers {pool : TxPool} {x : Address × Nat} :
    x ∈ pool.spammers ↔
      x.1 ∉ pool.locals ∧ pool.config.AccountSlots.toNat < pool.lenOf x.1 ∧ x.2 = pool.lenOf x.1 := by
  unfold spammers
  rw [List.mem_map]
  constructor
  · rintro ⟨e, he, rfl⟩
    rw [List.mem_filter] at he
    have hl : pool.pending.lookup e.1 = some e.2 := AList.mem_lookup_iff.2 he.1
    simp only [Bool.and_eq_true, Bool.not_eq_true', decide_eq_true_eq] at he
    rw [lenOf_of_lookup hl]
    exact ⟨by simpa using he.2.1, he.2.2, rfl⟩
  · rintro ⟨hloc, hAS, hx⟩
    obtain ⟨l, hl, -⟩ := exists_of_lenOf_pos (a := x.1) (p := pool) (by omega)
    rw [lenOf_of_lookup hl] at hAS hx
    refine ⟨⟨x.1, l⟩, List.mem_filter.2 ⟨AList.mem_lookup_iff.1 hl, ?_⟩, Prod.ext rfl hx.symm⟩
    simp [hloc, hAS]

/-- The stable sort is one of the orders the queue may pop in. -/
theorem spamOrder_spec (pool : TxPool) : SpamOrder pool pool.spamOrder where
  nodup := by
    have hS : (pool.spammers.map (·.1)).Nodup := by
      unfold spammers
      rw [List.map_map]
      exact (List.filter_sublist.map Sigma.fst).nodup pool.pending.keys_nodup
    exact ((List.mergeSort_perm _ _).map _).nodup_iff.2 hS
  mem a := by
    rw [spamOrder, List.mem_map]
    constructor
    · rintro ⟨x, hx, rfl⟩
      obtain ⟨hloc, hAS, -⟩ := mem_spammers.1 ((List.mergeSort_perm _ _).mem_iff.1 hx)
      exact ⟨hloc, hAS⟩
    · rintro ⟨hloc, hAS⟩
      exact ⟨(a, pool.lenOf a),
        (List.mergeSort_perm _ _).mem_iff.2 (mem_spammers.2 ⟨hloc, hAS, rfl⟩), rfl⟩
  sorted := by
    have hs : (pool.spammers.mergeSort fun x y => decide (y.2 ≤ x.2)).Pairwise
        fun x y => decide (y.2 ≤ x.2) = true :=
      List.pairwise_mergeSort (fun _ _ _ hab hbc => by simp at *; omega)
        (fun a b => by simp; omega) _
    rw [spamOrder, List.pairwise_map]
    refine hs.imp_of_mem fun hx hy hxy => ?_
    have hx' := (mem_spammers.1 ((List.mergeSort_perm _ _).mem_iff.1 hx)).2.2
    have hy' := (mem_spammers.1 ((List.mergeSort_perm _ _).mem_iff.1 hy)).2.2
    simp only [decide_eq_true_eq] at hxy
    omega

end TxPool

/-! ## What `truncatePending` guarantees -/

open TxPool

/-- What `truncatePending` leaves: the same accounts, the local ones untouched, every list a
nonce prefix of what it was and none cut below `AccountSlots`, each account cut with its pending
nonce lowered to the lowest nonce cut unless it already was lower, and, while the count is
exact, the pool within `GlobalSlots` or no account that is not local over `AccountSlots`. -/
structure PendingTruncated (pool pool' : TxPool) : Prop where
  keys : ∀ a, (pool'.pending.lookup a).isSome = (pool.pending.lookup a).isSome
  locals_kept : ∀ a ∈ pool.locals, pool'.pending.lookup a = pool.pending.lookup a
  lists : ∀ a l, pool.pending.lookup a = some l → ∃ l', pool'.pending.lookup a = some l' ∧
    sortedTxs l'.1.txs.items = (sortedTxs l.1.txs.items).take l'.1.Len ∧
    (l'.1.Len < l.1.Len → pool.config.AccountSlots.toNat ≤ l'.1.Len) ∧
    (l'.1.Len = l.1.Len →
      l' = l ∧ (pool'.pendingNonces.get a).2 = (pool.pendingNonces.get a).2) ∧
    ∀ tx, ((sortedTxs l.1.txs.items).drop l'.1.Len).head? = some tx →
      (pool'.pendingNonces.get a).2 =
        if (pool.pendingNonces.get a).2 ≤ tx.Nonce then (pool.pendingNonces.get a).2
        else tx.Nonce
  nonces_other : ∀ a, pool.pending.lookup a = none →
    (pool'.pendingNonces.get a).2 = (pool.pendingNonces.get a).2
  limit : pool.total < 2 ^ 64 → pool'.total ≤ pool.config.GlobalSlots.toNat ∨
    ∀ a l', a ∉ pool.locals → pool'.pending.lookup a = some l' →
      l'.1.Len ≤ pool.config.AccountSlots.toNat

/-- `truncatePending`, whatever order the queue pops its accounts in. -/
theorem truncatePending_fair (pool : TxPool) (order : List Address) (hord : SpamOrder pool order) :
    ∃ pool', pool.truncateWith order = some pool' ∧ PendingTruncated pool pool' := by
  obtain ⟨pool', h, htr, hfr, habove, hlimit⟩ := truncateWith_spec hord
  refine ⟨pool', h, ⟨fun a => ?_, fun a ha => hfr a fun hm => ((hord.mem a).1 hm).1 ha,
    fun a l hl => ?_, fun a hl => (htr.absent a hl).2, fun htot => ?_⟩⟩
  · cases hl : pool.pending.lookup a with
    | none => rw [(htr.absent a hl).1]
    | some l =>
      obtain ⟨l', hl', -⟩ := htr.present a l hl
      simp [hl']
  · obtain ⟨l', hl', heq, hview, hnonce⟩ := htr.present a l hl
    refine ⟨l', hl', hview, fun hlt => ?_, fun hL => ?_, fun tx htx => ?_⟩
    · -- a list that was cut belongs to a queued account
      have ha : a ∈ order := by
        by_contra hn
        have hsame := hfr a hn
        rw [hl', hl] at hsame
        cases hsame
        omega
      have := habove a ha
      rwa [lenOf_of_lookup hl'] at this
    · obtain rfl := heq hL
      refine ⟨rfl, ?_⟩
      rw [hnonce, TxList.len_eq l'.1, List.drop_length]
      rfl
    · obtain ⟨rest, hdrop⟩ := List.head?_eq_some_iff.1 htx
      have hs : SortedByNonce ((sortedTxs l.1.txs.items).drop l'.1.Len) :=
        l.2.txs.indexes.keyed.sortedTxs_sorted.sublist (List.drop_sublist _ _)
      rw [hnonce, hdrop]
      rw [hdrop] at hs
      exact lowerTo_cons_of_sorted _ hs
  · rcases hlimit htot with h | h
    · exact Or.inl h
    · refine Or.inr fun a l' hloc hl' => ?_
      rw [← lenOf_of_lookup hl']
      by_cases ha : a ∈ order
      · exact h a ha
      · -- an account never queued is as it was, and was not over `AccountSlots`
        have hnot : ¬ pool.config.AccountSlots.toNat < pool.lenOf a := fun hAS =>
          ha ((hord.mem a).2 ⟨hloc, hAS⟩)
        rw [lenOf_eq_of_lookup_eq (hfr a ha)]
        omega

/-- The default limits over a pool with nothing pending, in the order of the stable sort. -/
theorem truncatePending_fair_default :
    ∃ pool', (⟨⟨16, 4096⟩, ⟨fun _ => 0, ∅⟩, [], ∅⟩ : TxPool).truncatePending = some pool' ∧
      PendingTruncated ⟨⟨16, 4096⟩, ⟨fun _ => 0, ∅⟩, [], ∅⟩ pool' :=
  truncatePending_fair _ _ (spamOrder_spec _)

/-- The pending nonce lands on the lowest nonce cut only if the tracker was not already lower.
After `reset` the tracker is a fresh `txNoncer` over the new state: an account whose pending
nonces are `0, 1, 2` reads the state's nonce `0`. With both slot limits `1`, `truncatePending`
cuts nonces `2` and `1` and leaves the pending nonce at `0`, below every nonce it cut. -/
theorem truncatePending_leaves_nonce_below_cut :
    ∃ (pool pool' : TxPool) (a : Address) (l l' : PendingList),
      pool.truncatePending = some pool' ∧ pool.pending.lookup a = some l ∧
      pool'.pending.lookup a = some l' ∧ l'.1.Len < l.1.Len ∧
      ∀ tx ∈ (sortedTxs l.1.txs.items).drop l'.1.Len, (pool'.pendingNonces.get a).2 < tx.Nonce := by
  let tx : UInt64 → TxData := fun nonce => ⟨nonce, 1, 21000, none, 0, [], 27, 1, 1⟩
  let list : TxList := ((((newTxList true).Add (tx 0) 10).1.Add (tx 1) 10).1.Add (tx 2) 10).1
  have hv : list.Valid := TxList.valid_add (TxList.valid_add
    (TxList.valid_add (TxList.valid_newTxList true) _ _) _ _) _ _
  have hlen : list.Len = 3 := by decide
  let pool : TxPool := ⟨⟨1, 1⟩, ⟨fun _ => 0, ∅⟩, [],
    (∅ : AList fun _ : Address => PendingList).insert 0 ⟨list, hv⟩⟩
  have hl : pool.pending.lookup 0 = some ⟨list, hv⟩ := AList.lookup_insert _
  have htotal : pool.total = 3 := by
    show AList.sum _ ((∅ : AList fun _ : Address => PendingList).insert 0 ⟨list, hv⟩) = 3
    rw [AList.sum_insert, hlen]
    rfl
  obtain ⟨pool', h, htr, -, habove, hlimit⟩ := truncateWith_spec (spamOrder_spec pool)
  have ha : (0 : Address) ∈ pool.spamOrder :=
    ((spamOrder_spec pool).mem 0).2 ⟨List.not_mem_nil, by
      rw [lenOf_of_lookup hl, hlen]
      show (1 : UInt64).toNat < 3
      decide⟩
  obtain ⟨l', hl', -, -, hnonce⟩ := htr.present 0 _ hl
  -- the account is queued, so it keeps `AccountSlots = 1`, and the limit leaves it no more
  have hcut : l'.1.Len = 1 := by
    have hge := habove 0 ha
    rw [lenOf_of_lookup hl'] at hge
    change 1 ≤ _ at hge
    rcases hlimit (by rw [htotal]; norm_num) with hG | hA
    · have := len_le_total hl'
      change _ ≤ 1 at hG
      omega
    · have := hA 0 ha
      rw [lenOf_of_lookup hl'] at this
      change _ ≤ 1 at this
      omega
  refine ⟨pool, pool', 0, ⟨list, hv⟩, l', h, hl, hl', by simp only [hlen, hcut]; omega,
    fun t ht => ?_⟩
  have h0 : (pool.pendingNonces.get 0).2 = 0 := by simp [TxNoncer.get_snd, pool]
  rw [hnonce, h0, lowerTo_of_le fun _ _ => UInt64.zero_le]
  -- every nonce cut is above the first, which is at least `0`
  have hs := hv.txs.indexes.keyed.sortedTxs_sorted
  obtain ⟨x, rest, hV⟩ : ∃ x rest, sortedTxs list.txs.items = x :: rest := by
    have hlen' : (sortedTxs list.txs.items).length = 3 := by rw [← TxList.len_eq, hlen]
    cases hc : sortedTxs list.txs.items with
    | nil =>
      rw [hc] at hlen'
      cases hlen'
    | cons x rest => exact ⟨x, rest, rfl⟩
  rw [hV, SortedByNonce, List.pairwise_cons] at hs
  simp only [hcut, hV, List.drop_succ_cons, List.drop_zero] at ht
  exact lt_of_le_of_lt UInt64.zero_le (hs.1 t ht)

end Ccmchain.Core
