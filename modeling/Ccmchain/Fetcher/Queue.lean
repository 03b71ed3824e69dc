import Ccmchain.Fetcher.Steps

/-!
# The import queue's bookkeeping

`enqueue` counts in `queues` the blocks each peer has in `queued`, and refuses a block that would
take its peer past `blockLimit`; `forgetBlock` takes the count down again. Along every run of the
loop (`import_queue_accounting`) the count of each peer is exactly the number of its blocks in
`queued`, lies between 1 and `blockLimit`, and every queued block is in one place only: waiting in
the priority queue, or being imported by a goroutine whose `done` has not arrived. So no block is
imported twice at a time, and none is lost from the queue without its `done`.
-/

namespace Ccmchain.Fetcher

set_option linter.dupNamespace false

open Ccmchain.Common Ccmchain.Prque

variable {P Tx : Type} [DecidableEq P]

/-! ### Lookups after a write -/

section Lookup

variable {α β : Type} [DecidableEq α] {s : AList (fun _ : α => β)} {a k : α} {v : β}

theorem lookup_of_lookup_erase (h : (s.erase a).lookup k = some v) : s.lookup k = some v := by
  by_cases hk : k = a
  · subst hk
    simp at h
  · rwa [AList.lookup_erase_ne hk] at h

theorem lookup_insert_eq_some {b : β} (h : (s.insert a b).lookup k = some v) :
    (k = a ∧ v = b) ∨ s.lookup k = some v := by
  by_cases hk : k = a
  · subst hk
    rw [AList.lookup_insert, Option.some.injEq] at h
    exact .inl ⟨rfl, h.symm⟩
  · rw [AList.lookup_insert_ne hk] at h
    exact .inr h

end Lookup

/-- Every count of the map lies in `(0, limit]`. -/
def Bounded (counts : AList (fun _ : P => Int)) (limit : Int) : Prop :=
  ∀ p n, counts.lookup p = some n → 0 < n ∧ n ≤ limit

/-- A count read as Go reads a map, `0` when absent, is not negative in a bounded map. -/
theorem Bounded.getD_nonneg {counts : AList (fun _ : P => Int)} {limit : Int}
    (hb : Bounded counts limit) (p : P) : 0 ≤ (counts.lookup p).getD 0 := by
  cases h : counts.lookup p with
  | none => simp
  | some n => simpa using (hb p n h).1.le

theorem getD_lookup_insert (counts : AList (fun _ : P => Int)) (p q : P) (v : Int) :
    ((counts.insert p v).lookup q).getD 0 = if q = p then v else (counts.lookup q).getD 0 := by
  by_cases hq : q = p
  · subst hq
    simp
  · simp [hq, AList.lookup_insert_ne hq]

theorem getD_lookup_erase (counts : AList (fun _ : P => Int)) (p q : P) :
    ((counts.erase p).lookup q).getD 0 = if q = p then 0 else (counts.lookup q).getD 0 := by
  by_cases hq : q = p
  · subst hq
    simp
  · simp [hq, AList.lookup_erase_ne hq]

theorem Bounded.insert {counts : AList (fun _ : P => Int)} {limit : Int}
    (hb : Bounded counts limit) {p : P} {v : Int} (h0 : 0 < v) (hv : v ≤ limit) :
    Bounded (counts.insert p v) limit := by
  intro q n hn
  rcases lookup_insert_eq_some hn with ⟨-, rfl⟩ | hn
  · exact ⟨h0, hv⟩
  · exact hb q n hn

/-! ### Counting the queued blocks of a peer -/

/-- The blocks of `peer` in `queued`. -/
def queuedFrom (queued : AList (fun _ : Hash => Inject P Tx)) (peer : P) : Nat :=
  queued.sum fun _ op => if op.origin = peer then 1 else 0

section Counting

variable {queued : AList (fun _ : Hash => Inject P Tx)} {hash : Hash}

theorem queuedFrom_insert (h : queued.lookup hash = none) (op : Inject P Tx) (peer : P) :
    queuedFrom (queued.insert hash op) peer =
      queuedFrom queued peer + if op.origin = peer then 1 else 0 := by
  rw [queuedFrom, AList.sum_insert, AList.sum_erase_of_lookup_eq_none h, queuedFrom, Nat.add_comm]

theorem queuedFrom_erase {op : Inject P Tx} (h : queued.lookup hash = some op) (peer : P) :
    queuedFrom queued peer =
      queuedFrom (queued.erase hash) peer + if op.origin = peer then 1 else 0 := by
  rw [queuedFrom, AList.sum_eq_add_sum_erase h, queuedFrom, Nat.add_comm]

/-- The counts after `forgetBlock` takes the block queued under `hash` away: its peer's count goes
down by one, and is deleted when that leaves zero. -/
theorem counts_forget {queues : AList (fun _ : P => Int)} {op : Inject P Tx}
    (hc : ∀ peer, (queues.lookup peer).getD 0 = queuedFrom queued peer)
    (hb : Bounded queues blockLimit) (hl : queued.lookup hash = some op) :
    (∀ peer, ((if (queues.lookup op.origin).getD 0 - 1 = 0 then queues.erase op.origin
        else queues.insert op.origin ((queues.lookup op.origin).getD 0 - 1)).lookup peer).getD 0 =
        queuedFrom (queued.erase hash) peer) ∧
      Bounded (if (queues.lookup op.origin).getD 0 - 1 = 0 then queues.erase op.origin
        else queues.insert op.origin ((queues.lookup op.origin).getD 0 - 1)) blockLimit := by
  have hrest := fun peer => queuedFrom_erase hl peer
  have hown : (queues.lookup op.origin).getD 0 = queuedFrom (queued.erase hash) op.origin + 1 := by
    rw [hc, hrest]
    simp
  -- the peer's count is positive, so it is stored and at most the limit
  obtain ⟨c, hcl⟩ : ∃ c, queues.lookup op.origin = some c := by
    cases h : queues.lookup op.origin with
    | none => rw [h] at hown; simp at hown; omega
    | some c => exact ⟨c, rfl⟩
  have hcb := hb _ _ hcl
  rw [hcl, Option.getD_some] at hown ⊢
  constructor
  · intro peer
    split_ifs with h0
    · rw [getD_lookup_erase]
      split_ifs with hp
      · subst hp
        omega
      · rw [hc, hrest, if_neg (Ne.symm hp), Nat.add_zero]
    · rw [getD_lookup_insert]
      split_ifs with hp
      · subst hp
        omega
      · rw [hc, hrest, if_neg (Ne.symm hp), Nat.add_zero]
  · intro peer n hn
    split_ifs at hn with h0
    · by_cases hp : peer = op.origin
      · subst hp
        simp at hn
      · exact hb peer n (by rwa [AList.lookup_erase_ne hp] at hn)
    · by_cases hp : peer = op.origin
      · subst hp
        rw [AList.lookup_insert, Option.some.injEq] at hn
        omega
      · exact hb peer n (by rwa [AList.lookup_insert_ne hp] at hn)

end Counting

/-! ### The invariant -/

section Invariant

variable [Inhabited P]

/-- The bookkeeping of the import queue. -/
structure QueueInv (queue : Prque (Inject P Tx)) (queues : AList (fun _ : P => Int))
    (queued : AList (fun _ : Hash => Inject P Tx)) (importing : List Hash) : Prop where
  wf : queue.WellFormed
  counts : ∀ peer, (queues.lookup peer).getD 0 = queuedFrom queued peer
  bounded : Bounded queues blockLimit
  keyed : ∀ hash op, queued.lookup hash = some op → op.block.hash = hash
  held : ∀ x ∈ queue.elems, queued.lookup x.value.block.hash = some x.value
  split : queued.keys.Perm (queue.elems.map (·.value.block.hash) ++ importing)

/-- The bookkeeping holds of the fetcher's queue fields. -/
def Fetcher.QueueOk (f : Fetcher P Tx) : Prop := QueueInv f.queue f.queues f.queued f.importing

variable {queue : Prque (Inject P Tx)} {queues : AList (fun _ : P => Int)}
  {queued : AList (fun _ : Hash => Inject P Tx)} {importing : List Hash}

theorem queueOk_new : (New : Fetcher P Tx).QueueOk where
  wf := Prque.WellFormed.of_new false
  counts _ := by simp [New, queuedFrom, AList.sum]
  bounded _ _ h := by simp [New] at h
  keyed _ _ h := by simp [New] at h
  held _ h := by simp [New, elems_New] at h
  split := by simp [New, elems_New]

namespace QueueInv

/-- No hash is both in the queue and in flight, and none twice. -/
theorem nodup (hq : QueueInv queue queues queued importing) :
    (queue.elems.map (·.value.block.hash) ++ importing).Nodup :=
  hq.split.nodup_iff.mp queued.keys_nodup

/-- `enqueue` queuing a block it did not hold, for a peer under its limit. -/
theorem enqueue (hq : QueueInv queue queues queued importing) {peer : P} {block : Block Tx}
    (hlimit : (queues.lookup peer).getD 0 + 1 ≤ blockLimit) (hmem : block.hash ∉ queued)
    (prio : Int64) :
    QueueInv (queue.Push ⟨peer, block⟩ prio)
      (queues.insert peer ((queues.lookup peer).getD 0 + 1))
      (queued.insert block.hash ⟨peer, block⟩) importing := by
  obtain ⟨hwf, hperm⟩ := hq.wf.push ⟨peer, block⟩ prio
  have hnone : queued.lookup block.hash = none := AList.lookup_eq_none.mpr hmem
  have hnonneg := hq.bounded.getD_nonneg peer
  refine ⟨hwf, fun p => ?_, hq.bounded.insert (by omega) hlimit, fun hash op hl => ?_,
    fun x hx => ?_, ?_⟩
  · -- the peer's count and its queued blocks both grow by one
    rw [getD_lookup_insert, queuedFrom_insert hnone, Nat.cast_add, ← hq.counts p]
    by_cases hp : p = peer
    · subst hp
      simp
    · simp [hp, Ne.symm hp]
  · by_cases hh : hash = block.hash
    · subst hh
      rw [AList.lookup_insert, Option.some.injEq] at hl
      rw [← hl]
    · exact hq.keyed hash op (by rwa [AList.lookup_insert_ne hh] at hl)
  · rcases List.mem_append.mp (hperm.subset hx) with hold | hnew
    · -- an older item's hash is queued already, so it is not the new one
      have hl := hq.held x hold
      have hne : x.value.block.hash ≠ block.hash := fun h => hmem (by
        rw [← h]
        exact AList.lookup_isSome.mp (by rw [hl]; rfl))
      rw [AList.lookup_insert_ne hne, hl]
    · rw [List.mem_singleton.mp hnew]
      exact AList.lookup_insert _
  · rw [AList.keys_insert, List.erase_of_not_mem (AList.mem_keys.not.mp hmem)]
    have hm : ((queue.Push ⟨peer, block⟩ prio).elems.map (·.value.block.hash)).Perm
        (queue.elems.map (·.value.block.hash) ++ [block.hash]) := by
      simpa using hperm.map (·.value.block.hash)
    refine (List.Perm.cons _ hq.split).trans (List.Perm.trans ?_ (hm.append_right importing).symm)
    rw [List.append_assoc, List.singleton_append]
    exact List.perm_middle.symm

/-- `forgetBlock` on a queued block that leaves its place: the queue may lose an item and the
imports in flight a hash, as long as together they lose just this hash. -/
theorem forgetBlock (hq : QueueInv queue queues queued importing) {hash : Hash} {op : Inject P Tx}
    (hl : queued.lookup hash = some op) {queue' : Prque (Inject P Tx)} {importing' : List Hash}
    (hwf : queue'.WellFormed) (hsub : ∀ x ∈ queue'.elems, x ∈ queue.elems)
    (hsplit : (queue.elems.map (·.value.block.hash) ++ importing).Perm
      (hash :: (queue'.elems.map (·.value.block.hash) ++ importing'))) :
    QueueInv queue'
      (if (queues.lookup op.origin).getD 0 - 1 = 0 then queues.erase op.origin
        else queues.insert op.origin ((queues.lookup op.origin).getD 0 - 1))
      (queued.erase hash) importing' := by
  obtain ⟨hcounts, hbounded⟩ := counts_forget hq.counts hq.bounded hl
  have hnd : (hash :: (queue'.elems.map (·.value.block.hash) ++ importing')).Nodup :=
    hsplit.nodup_iff.mp hq.nodup
  refine ⟨hwf, hcounts, hbounded, fun h op' hl' => ?_, fun x hx => ?_, ?_⟩
  · by_cases hh : h = hash
    · subst hh
      simp at hl'
    · exact hq.keyed h op' (by rwa [AList.lookup_erase_ne hh] at hl')
  · -- the hash left is in the new queue, so it is not the one forgotten
    have hne : x.value.block.hash ≠ hash := by
      rintro hx'
      have hmem : hash ∈ queue'.elems.map (·.value.block.hash) ++ importing' :=
        List.mem_append_left _ (List.mem_map.mpr ⟨x, hx, hx'⟩)
      exact (List.nodup_cons.mp hnd).1 hmem
    rw [AList.lookup_erase_ne hne]
    exact hq.held x (hsub x hx)
  · rw [AList.keys_erase]
    have h := (hq.split.erase hash).trans (hsplit.erase hash)
    rwa [List.erase_cons_head] at h

/-- `heap.Pop` on a queue that is not empty: the item taken is one of the queue's, and the
hashes left with those in flight are the old ones without its hash. -/
theorem pop (hq : QueueInv queue queues queued importing) (hne : queue.Empty = false) :
    ∃ x q, queue.PopItem = some (x.value, q) ∧ q.WellFormed ∧ x ∈ queue.elems ∧
      (∀ y ∈ q.elems, y ∈ queue.elems) ∧
      (queue.elems.map (·.value.block.hash) ++ importing).Perm
        (x.value.block.hash :: (q.elems.map (·.value.block.hash) ++ importing)) := by
  have hne' : queue.elems ≠ [] := fun he => by
    rw [← hq.wf.empty_iff] at he
    rw [he] at hne
    cases hne
  obtain ⟨q, hpop, hwf, hperm⟩ := hq.wf.heapPop hne'
  refine ⟨MinHeap.val queue.elems 0, q, by simp [Prque.PopItem, hpop], hwf,
    hperm.subset List.mem_cons_self, fun y hy => hperm.subset (List.mem_cons_of_mem _ hy), ?_⟩
  have hmap := (hperm.map (·.value.block.hash)).symm
  rw [List.map_cons] at hmap
  exact hmap.append_right importing

/-- The import loop pushes the item it took back. -/
theorem pushBack (hq : QueueInv queue queues queued importing) {x : Item (Inject P Tx)}
    {q : Prque (Inject P Tx)} (hwf : q.WellFormed) (hx : x ∈ queue.elems)
    (hsub : ∀ y ∈ q.elems, y ∈ queue.elems)
    (hsplit : (queue.elems.map (·.value.block.hash) ++ importing).Perm
      (x.value.block.hash :: (q.elems.map (·.value.block.hash) ++ importing)))
    (prio : Int64) : QueueInv (q.Push x.value prio) queues queued importing := by
  obtain ⟨hwf', hperm⟩ := hwf.push x.value prio
  refine ⟨hwf', hq.counts, hq.bounded, hq.keyed, fun y hy => ?_, ?_⟩
  · rcases List.mem_append.mp (hperm.subset hy) with hold | hnew
    · exact hq.held y (hsub y hold)
    · rw [List.mem_singleton.mp hnew]
      exact hq.held x hx
  · have hm : ((q.Push x.value prio).elems.map (·.value.block.hash)).Perm
        (q.elems.map (·.value.block.hash) ++ [x.value.block.hash]) := by
      simpa using hperm.map (·.value.block.hash)
    refine hq.split.trans (hsplit.trans (List.Perm.trans ?_ (hm.append_right importing).symm))
    rw [List.append_assoc, List.singleton_append]
    exact List.perm_middle.symm

/-- The import loop starts the import of the item it took. -/
theorem startImport (hq : QueueInv queue queues queued importing) {x : Item (Inject P Tx)}
    {q : Prque (Inject P Tx)} (hwf : q.WellFormed) (hsub : ∀ y ∈ q.elems, y ∈ queue.elems)
    (hsplit : (queue.elems.map (·.value.block.hash) ++ importing).Perm
      (x.value.block.hash :: (q.elems.map (·.value.block.hash) ++ importing))) :
    QueueInv q queues queued (importing ++ [x.value.block.hash]) := by
  refine ⟨hwf, hq.counts, hq.bounded, hq.keyed, fun y hy => hq.held y (hsub y hy), ?_⟩
  rw [← List.append_assoc]
  exact hq.split.trans (hsplit.trans (List.perm_append_singleton _ _).symm)

end QueueInv

/-! ### Every step keeps the bookkeeping -/

namespace Fetcher

variable {f : Fetcher P Tx}

theorem QueueOk.forgetHash (hq : f.QueueOk) (hash : Hash) : (f.forgetHash hash).QueueOk := hq

theorem QueueOk.enqueue (hq : f.QueueOk) (height : UInt64) (peer : P) (block : Block Tx) :
    (enqueue height f peer block).QueueOk := by
  rcases enqueue_cases f height peer block with h | h | ⟨hlimit, hmem, h⟩ <;> rw [h]
  · exact hq
  · exact hq
  · exact QueueInv.enqueue hq hlimit hmem _

theorem QueueOk.enqueueCompleted (hq : f.QueueOk) (height : UInt64) (block : Block Tx) :
    (f.enqueueCompleted height block).QueueOk := by
  rcases enqueueCompleted_cases f height block with h | ⟨peer, h⟩ <;> rw [h]
  · exact hq
  · exact hq.enqueue height peer block

theorem QueueOk.importQueue (hq : f.QueueOk) (height : UInt64) (known : Hash → Bool)
    (fuel : Nat) :
    (importQueue height known fuel f).QueueOk := by
  induction fuel generalizing f with
  | zero => exact hq
  | succ fuel ih =>
    cases he : f.queue.Empty
    · obtain ⟨x, q, hpop, hwf, hx, hsub, hsplit⟩ := QueueInv.pop hq he
      rw [importQueue_succ f he hpop]
      split_ifs
      · -- too high up the chain: pushed back
        exact QueueInv.pushBack hq hwf hx hsub hsplit _
      · -- stale or known: forgotten
        apply ih
        rw [forgetBlock_of_lookup { f with queue := q } (hq.held x hx)]
        exact QueueInv.forgetBlock hq (hq.held x hx) hwf hsub hsplit
      · apply ih
        exact QueueInv.startImport hq hwf hsub hsplit
    · rw [importQueue_of_empty f he]
      exact hq

theorem QueueOk.prelude (hq : f.QueueOk) (env : Env) : (f.prelude env).QueueOk := by
  have hexp : (f.expire env).QueueOk := by
    refine List.foldlRecOn _ _ hq fun g hg hash _ => ?_
    rcases expireStep_cases g env.now hash with h | h <;> rw [h]
    · exact hg
    · exact hg.forgetHash hash
  exact hexp.importQueue _ _ _

/-- A `done` for an import in flight: the block leaves `queued` and the imports in flight. -/
theorem QueueOk.done (hq : f.QueueOk) {hash : Hash} (hin : hash ∈ f.importing) :
    (f.done hash).QueueOk := by
  have hnd := QueueInv.nodup hq
  have hout : hash ∉ f.queue.elems.map (·.value.block.hash) := fun hmem =>
    (List.nodup_append.mp hnd).2.2 _ hmem _ hin rfl
  have hkey : hash ∈ f.queued.keys := hq.split.symm.subset (List.mem_append_right _ hin)
  obtain ⟨op, hl⟩ :=
    Option.isSome_iff_exists.mp (AList.lookup_isSome.mpr (AList.mem_keys.mpr hkey))
  show QueueInv ((f.forgetHash hash).forgetBlock hash).queue ((f.forgetHash hash).forgetBlock hash).queues
    ((f.forgetHash hash).forgetBlock hash).queued (f.importing.erase hash)
  have hsplit : (f.queue.elems.map (·.value.block.hash) ++ f.importing).Perm
      (hash :: (f.queue.elems.map (·.value.block.hash) ++ f.importing.erase hash)) := by
    rw [← List.erase_append_right _ hout]
    exact List.perm_cons_erase (List.mem_append_right _ hin)
  rw [forgetBlock_of_lookup (f.forgetHash hash) hl]
  exact QueueInv.forgetBlock hq hl hq.wf (fun _ hx => hx) hsplit

theorem QueueOk.handle (hq : f.QueueOk) (hs : BodyHashes Tx) (env : Env) (ev : Event P Tx)
    (hen : f.Enabled ev) : (f.handle hs env ev).QueueOk := by
  cases ev with
  | notify peer hash number time =>
    show (f.notify env ⟨hash, number, none, time, peer⟩).QueueOk
    rcases notify_cases f env ⟨hash, number, none, time, peer⟩ with h | ⟨-, -, -, h⟩ <;>
      rw [h] <;>
      exact hq
  | inject peer block => exact hq.enqueue env.height peer block
  | done hash => exact hq.done hen
  | fetchTimer =>
    refine List.foldlRecOn _ _ hq fun g hg hash _ => ?_
    rcases fetchStep_cases g env hash with h | h | ⟨announce, h⟩ <;> rw [h] <;> exact hg
  | completeTimer =>
    refine List.foldlRecOn _ _ hq fun g hg hash _ => ?_
    rcases completeStep_cases g env hash with h | h | ⟨_, _, -, -, h⟩ <;> rw [h] <;> exact hg
  | headerFilter peer headers time =>
    show (f.filterHeaders hs env peer headers time).1.QueueOk
    rw [filterHeaders_fst]
    dsimp only
    refine List.foldlRecOn _ _ ?_ fun g hg block _ => hg.enqueueCompleted env.height block
    -- the header loop and the scheduling of bodies leave the queue alone
    have hsplit :
        (headers.foldl (headerStep hs env peer time) (f, ⟨[], [], []⟩)).1.QueueOk := by
      refine List.foldlRecOn (motive := fun r : Fetcher P Tx × HeaderSplit P Tx => r.1.QueueOk)
        _ _ hq fun r hr header _ => ?_
      obtain ⟨g, split⟩ := r
      rcases headerStep_cases g hs env peer time split header with h | h | ⟨_, -, -, h | h⟩ <;>
        rw [h] <;> exact hr
    refine List.foldlRecOn _ _ hsplit fun g hg r _ => ?_
    rcases scheduleFetched_cases g r with h | ⟨-, h⟩ <;> rw [h] <;> exact hg
  | bodyFilter peer transactions uncles time =>
    show (f.filterBodies hs env peer transactions uncles time).1.QueueOk
    rw [filterBodies_fst]
    have hloop := bodyLoop_keeps (Q := Fetcher.QueueOk) hs env peer time
      (fun g hash hg => QueueOk.forgetHash hg hash) f transactions uncles hq
    exact List.foldlRecOn _ _ hloop fun g hg block _ => hg.enqueueCompleted env.height block

end Fetcher

theorem Reachable.queueOk {hs : BodyHashes Tx} {f : Fetcher P Tx} (hf : Reachable hs f) :
    f.QueueOk := by
  induction hf with
  | new => exact queueOk_new
  | step pre env ev _ _ _ hen ih => exact (ih.prelude pre).handle hs env ev hen

/-- Along every run of the fetcher loop, each peer's count in `queues` is the number of its blocks
in `queued` and lies between 1 and `blockLimit`, and the queued blocks are exactly those waiting
in the priority queue and those being imported, each in one place only. -/
theorem import_queue_accounting {hs : BodyHashes Tx} {f : Fetcher P Tx} (hf : Reachable hs f) :
    (∀ peer, (f.queues.lookup peer).getD 0 = queuedFrom f.queued peer) ∧
      (∀ peer n, f.queues.lookup peer = some n → 0 < n ∧ n ≤ blockLimit) ∧
      f.queued.keys.Perm (f.queue.elems.map (·.value.block.hash) ++ f.importing) ∧
      (f.queue.elems.map (·.value.block.hash) ++ f.importing).Nodup := by
  have hq := hf.queueOk
  exact ⟨hq.counts, hq.bounded, hq.split, QueueInv.nodup hq⟩

theorem import_queue_accounting_new :
    Reachable ⟨fun _ => 0, fun _ => 0⟩ (New : Fetcher Nat Nat) ∧
      (∀ peer, ((New : Fetcher Nat Nat).queues.lookup peer).getD 0 =
        queuedFrom (New : Fetcher Nat Nat).queued peer) ∧
      (∀ peer n, (New : Fetcher Nat Nat).queues.lookup peer = some n → 0 < n ∧ n ≤ blockLimit) ∧
      (New : Fetcher Nat Nat).queued.keys.Perm
        ((New : Fetcher Nat Nat).queue.elems.map (·.value.block.hash) ++
          (New : Fetcher Nat Nat).importing) ∧
      ((New : Fetcher Nat Nat).queue.elems.map (·.value.block.hash) ++
        (New : Fetcher Nat Nat).importing).Nodup :=
  ⟨.new, @import_queue_accounting Nat Nat _ _ ⟨fun _ => 0, fun _ => 0⟩ New .new⟩

end Invariant

end Ccmchain.Fetcher
