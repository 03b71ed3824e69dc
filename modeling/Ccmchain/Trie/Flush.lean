import Ccmchain.Trie.FlushList

/-!
# Flushing the trie node cache, and runs of calls on it

`Cap` writes the oldest nodes of the flush-list to disk until the cache is within its limit,
and `Commit` writes the trie under a root, children first, taking every written node out of the
cache as `cleaner.Put` does. `Cap_spec` says what `Cap` writes and uncaches, from any cache with
a flush-list.

`Reachable` holds of the databases that the calls of a client reach from `NewDatabase`, each call
keeping to what its callers guarantee (`Op.Ok`). `CacheOk.step` is the step lemma: every call
keeps the flush-list and the ranking of the hash graph (`CacheOk`); `CacheOk.of_reachable` is the
run lemma. From it, on every reachable database the flush-list threads exactly the cached
nodes, `Cap` flushes the oldest of them, and `Dereference` never panics.
-/

namespace Ccmchain.Trie.Memory

open Common (Hash)
open EStateM
open Thread (Threads)

/-! ### `Cap` -/

section Cap

variable {db db' : Database} {l s p pending : List Hash} {hd tl : Hash}

/-- The blob `Cap` writes for a cached node. -/
def rlpAt (db : Database) (h : Hash) : Bytes := ((db.dirties.lookup h).map CachedNode.rlp).getD []

/-- The memory `Cap` counts for a cached node. -/
def flushSizeAt (db : Database) (h : Hash) : Int := ((db.dirties.lookup h).map flushSize).getD 0

/-- A key of the flush-list is cached. -/
theorem lookup_of_threads (ht : Threads 0 (nextIn db.dirties) (prevIn db.dirties) hd tl l)
    {a : Hash} (ha : a ∈ l) : ∃ n, db.dirties.lookup a = some n := by
  obtain ⟨b, hb, -⟩ := ht.next_mem ha
  cases hn : db.dirties.lookup a with
  | none => simp [nextIn, hn] at hb
  | some n => exact ⟨n, rfl⟩

/-- The first loop of `Cap`, from a suffix `s` of the flush-list: it writes the first `k` nodes of
`s` with their blobs, for the least `k` at which the size left is within the limit or `s` runs
out, and stops at the node after them. -/
theorem flushOldest_spec (ht : Threads 0 (nextIn db.dirties) (prevIn db.dirties) hd tl l)
    (limit : Int) : ∀ (s : List Hash), s <:+ l → ∀ size : Int, ∃ k ≤ s.length,
      flushOldest db limit size (s.headD 0) =
        .ok ((s.take k).map fun h => (h, rlpAt db h), (s.drop k).headD 0) ∧
      (∀ k' < k, limit < size - ((s.take k').map (flushSizeAt db)).sum) ∧
      (k < s.length → size - ((s.take k).map (flushSizeAt db)).sum ≤ limit)
  | [], _, size => ⟨0, le_refl 0, by rw [flushOldest]; simp, by simp, by simp⟩
  | x :: s, hs, size => by
    have hx : x ∈ l := hs.subset List.mem_cons_self
    have hx0 : x ≠ 0 := fun e => ht.nil_not_mem (e ▸ hx)
    obtain ⟨n, hn⟩ := lookup_of_threads ht hx
    have hnext : n.flushNext = s.headD 0 := by
      obtain ⟨q, rfl⟩ := hs
      have h' := ht.next_eq
      simp only [nextIn, hn, Option.map_some, Option.some.injEq] at h'
      exact h'
    have hsize : flushSizeAt db x = flushSize n := by simp [flushSizeAt, hn]
    have hrlp : rlpAt db x = n.rlp := by simp [rlpAt, hn]
    by_cases hover : size > limit
    · -- the oldest node is written, and the walk goes on from the next one
      obtain ⟨k, hk, hrun, hlt, hle⟩ :=
        flushOldest_spec ht limit s ((List.suffix_cons x s).trans hs) (size - flushSize n)
      refine ⟨k + 1, by simpa using hk, ?_, ?_, ?_⟩
      · rw [flushOldest, if_pos ⟨hover, hx0⟩]
        simp only [List.headD_cons, hn, hnext, hrun, List.take_succ_cons, List.map_cons, hrlp,
          List.drop_succ_cons]
        rfl
      · intro k' hk'
        cases k' with
        | zero => simpa using hover
        | succ k' =>
          have h' := hlt k' (by omega)
          simp only [List.take_succ_cons, List.map_cons, List.sum_cons, hsize]
          omega
      · intro hk'
        have h' := hle (by simpa using hk')
        simp only [List.take_succ_cons, List.map_cons, List.sum_cons, hsize]
        omega
    · refine ⟨0, by simp, ?_, by simp, fun _ => by simpa using hover⟩
      rw [flushOldest, if_neg fun h => hover h.1]
      simp

/-- Taking the oldest node off the cache: the list goes on from the next node. -/
theorem FlushList.pop {x : Hash} {n : CachedNode} (hf : FlushList db (x :: l) [])
    (hn : db.dirties.lookup x = some n) (hd : db'.dirties = db.dirties.erase x)
    (ho : db'.oldest = n.flushNext) (hw : db'.newest = db.newest) : FlushList db' l [] := by
  have ht := hf.threads
  have hx : x ∉ l := (List.nodup_cons.mp ht.nodup).1
  have hx0 : x ≠ 0 := fun e => ht.nil_not_mem (e ▸ List.mem_cons_self)
  have hnext : n.flushNext = l.headD 0 := by
    have ht' : Threads 0 (nextIn db.dirties) (prevIn db.dirties) db.oldest db.newest
        ([] ++ x :: l) := ht
    have h' := ht'.next_eq
    simp only [nextIn, hn, Option.map_some, Option.some.injEq] at h'
    exact h'
  have hne : ∀ a ∈ l, a ≠ x := fun a ha e => hx (e ▸ ha)
  refine ⟨?_, fun a => ?_, by simp, by simp⟩
  · rw [hd, ho, hw, hnext]
    refine ht.pop.congr (fun a ha => ?_) fun a ha => ?_
    · rw [nextIn_erase, Function.update_of_ne (hne a ha)]
    · rw [prevIn_erase, Function.update_of_ne (hne a (List.mem_of_mem_tail ha))]
  · rw [hd, AList.mem_erase, hf.mem_iff]
    simp only [List.mem_cons, List.not_mem_nil, or_false]
    constructor
    · rintro ⟨hne', h0 | rfl | hl⟩
      · exact .inl h0
      · exact absurd rfl hne'
      · exact .inr hl
    · rintro (rfl | hl)
      · exact ⟨fun e => hx0 e.symm, .inl rfl⟩
      · exact ⟨hne a hl, .inr (.inr hl)⟩

/-- The second loop of `Cap`, on a cache whose flush-list is `p ++ s`: with fuel for `p`, it
uncaches the nodes of `p` from the front and stops at the head of `s`. -/
theorem uncache_spec : ∀ (p : List Hash) {db : Database} (fuel : Nat), FlushList db (p ++ s) [] →
    p.length ≤ fuel → ∃ db', uncache (s.headD 0) fuel db = .ok () db' ∧ FlushList db' s [] ∧
      db'.diskdb = db.diskdb ∧ ∀ h, db'.dirties.lookup h = if h ∈ p then none else db.dirties.lookup h
  | [], db, fuel, hf, _ => by
    have ho : db.oldest = s.headD 0 := hf.threads.head_eq
    refine ⟨db, ?_, hf, rfl, fun h => by simp⟩
    cases fuel <;> simp [uncache, ho]
  | x :: p, db, fuel + 1, hf, hlen => by
    have ht := hf.threads
    have ho : db.oldest = x := ht.head_eq
    obtain ⟨n, hn⟩ := lookup_of_threads ht List.mem_cons_self
    -- the node the loop stops at is further down the list, or its end
    have hstop : x ≠ s.headD 0 := by
      cases s with
      | nil => exact fun e => ht.nil_not_mem (e ▸ List.mem_cons_self)
      | cons y s =>
        rintro rfl
        exact (List.nodup_cons.mp ht.nodup).1 (by simp)
    -- one turn: the oldest node leaves the cache
    set db₁ : Database := { db with dirties := db.dirties.erase x, oldest := n.flushNext, dirtiesSize := db.dirtiesSize - (HashLength + n.size.toNat), childrenSize := db.childrenSize - childMapSize n } with hdb₁
    have hf₁ : FlushList db₁ (p ++ s) [] := hf.pop hn rfl rfl rfl
    obtain ⟨db', hrun, hf', hdisk, hlook⟩ := uncache_spec p fuel hf₁ (by simpa using hlen)
    refine ⟨db', ?_, hf', hdisk, fun h => ?_⟩
    · simp only [uncache, get_bind_apply, ho, ite_apply_state, if_pos hstop,
        bind_of_ok (entry_of_lookup hn), set_bind_apply]
      exact hrun
    · rw [hlook h]
      by_cases hx : h = x
      · subst hx
        simp [hdb₁]
      · simp only [List.mem_cons, hx, false_or]
        split_ifs
        · rfl
        · exact AList.lookup_erase_ne hx

/-- The last step of `Cap`: the back-pointer of the new oldest node is cleared. -/
theorem FlushList.clear_head_prev (hf : FlushList db l []) :
    ∃ db', (if db.oldest ≠ 0 then modifyEntry db.oldest fun n => { n with flushPrev := 0 }
      else pure () : DbM Unit) db = .ok () db' ∧ FlushList db' l [] ∧ db'.diskdb = db.diskdb ∧
      (∀ h, h ∈ db'.dirties ↔ h ∈ db.dirties) ∧ ChildsSub db db' := by
  by_cases h0 : db.oldest = 0
  · refine ⟨db, ?_, hf, rfl, fun _ => Iff.rfl, ChildsSub.refl db⟩
    rw [ite_apply_state, if_neg (not_not.mpr h0)]
    rfl
  · have hl : l ≠ [] := fun e => h0 (hf.threads.head_eq_nil_iff.mpr e)
    have hmem : db.oldest ∈ l := by
      rw [hf.threads.head_eq]
      obtain ⟨b, l', rfl⟩ := List.exists_cons_of_ne_nil hl
      exact List.mem_cons_self
    obtain ⟨n, hn⟩ := lookup_of_threads hf.threads hmem
    refine ⟨{ db with dirties := db.dirties.insert db.oldest { n with flushPrev := 0 } }, ?_,
      ⟨?_, fun h => (mem_insert_of_lookup hn).trans (hf.mem_iff h), by simp, by simp⟩, rfl,
      fun _ => mem_insert_of_lookup hn, childsSub_insert hn _ (List.Subset.refl _)⟩
    · rw [ite_apply_state, if_pos h0]
      exact modifyEntry_of_lookup _ hn
    · dsimp only
      rw [nextIn_insert_of_eq hn { n with flushPrev := 0 } rfl, prevIn_insert]
      exact hf.threads.update_head_prev (some 0)

/-- The size `Cap` compares with its limit: `dirtiesSize`, the metadata of every cached node
but the meta-root, and `childrenSize` less the meta-root's children. -/
def capSize (db : Database) : Int :=
  db.dirtiesSize + (db.dirties.entries.length - 1 : Int) * cachedNodeSize + db.childrenSize -
    (((db.dirties.lookup 0).map CachedNode.childCount).getD 0 : Nat) * (HashLength + 2)

/-- The keys of the flush-list are fewer than the cached entries, the meta-root being one more. -/
theorem FlushList.length_lt (hf : FlushList db l []) : l.length < db.dirties.entries.length := by
  have hnd : (0 :: l).Nodup := List.nodup_cons.mpr ⟨hf.threads.nil_not_mem, hf.threads.nodup⟩
  have hsub : 0 :: l ⊆ db.dirties.keys := fun a ha => by
    rw [← AList.mem_keys, hf.mem_iff]
    rcases List.mem_cons.mp ha with rfl | ha
    · exact .inl rfl
    · exact .inr (.inl ha)
  have hle := (hnd.subperm hsub).length_le
  simp only [List.length_cons, AList.keys, List.keys, List.length_map] at hle
  omega

/-- `Cap` on a cache with a well-formed flush-list: it succeeds, writes the oldest `k` nodes of
the list to the disk with their blobs, for the least `k` at which the size it reports is within
the limit (or all of them), uncaches them, and leaves the rest of the list. -/
theorem Cap_spec (hf : FlushList db l []) (limit : Int) : ∃ k ≤ l.length, ∃ db',
    Cap limit db = .ok () db' ∧ FlushList db' (l.drop k) [] ∧
    db'.diskdb = writeAll db.diskdb ((l.take k).map fun h => (h, rlpAt db h)) ∧
    (∀ h, h ∈ db'.dirties ↔ h ∈ db.dirties ∧ h ∉ l.take k) ∧ ChildsSub db db' ∧
    (∀ k' < k, limit < capSize db - ((l.take k').map (flushSizeAt db)).sum) ∧
    (k < l.length → capSize db - ((l.take k).map (flushSizeAt db)).sum ≤ limit) := by
  have ht := hf.threads
  obtain ⟨root, hroot⟩ : ∃ root, db.dirties.lookup 0 = some root := by
    cases h : db.dirties.lookup 0 with
    | none =>
      have h0 := AList.lookup_isSome.mpr ((hf.mem_iff 0).mpr (.inl rfl))
      rw [h] at h0
      cases h0
    | some root => exact ⟨root, rfl⟩
  obtain ⟨k, hk, hwalk, hlt, hle⟩ := flushOldest_spec ht limit l (List.suffix_refl l) (capSize db)
  rw [← ht.head_eq] at hwalk
  -- the writes go to the disk, and the nodes written leave the cache from the front
  set writes := (l.take k).map fun h => (h, rlpAt db h) with hwrites
  set db₁ : Database := { db with diskdb := writeAll db.diskdb writes } with hdb₁
  have hf₁ : FlushList db₁ (l.take k ++ l.drop k) [] := by
    rw [List.take_append_drop]
    exact hf.sameLinks (SameLinks.of_eq rfl rfl rfl)
  have hlen : (l.take k).length ≤ db₁.dirties.entries.length := by
    have := hf.length_lt
    show (l.take k).length ≤ db.dirties.entries.length
    simp only [List.length_take]
    omega
  obtain ⟨db₂, hrun, hf₂, hdisk₂, hlook₂⟩ := uncache_spec (l.take k) _ hf₁ hlen
  obtain ⟨db', hclear, hf', hdisk', hmem', hsub'⟩ := hf₂.clear_head_prev
  refine ⟨k, hk, db', ?_, hf', by rw [hdisk', hdisk₂], fun h => ?_, ?_, hlt, hle⟩
  · simp only [capSize, hroot, Option.map_some, Option.getD_some] at hwalk
    simp only [Cap, get_bind_apply, bind_of_ok (entry_of_lookup hroot), hwalk, modify_bind_apply]
    rw [bind_of_ok hrun]
    exact hclear
  · rw [hmem', ← AList.lookup_isSome, hlook₂ h, ← AList.lookup_isSome]
    split_ifs with hh
    · simp [hh]
    · simp only [hh, not_false_eq_true, and_true]
      rfl
  · refine ChildsSub.trans (fun h n hn => ?_) hsub'
    rw [hlook₂ h] at hn
    split_ifs at hn
    exact ⟨n, hn, List.Subset.refl _⟩

/-- The disk after writing the nodes `s` with their blobs. -/
theorem writeAll_map (d : Hash → Option Bytes) (f : Hash → Bytes) :
    ∀ (s : List Hash) (a : Hash),
      writeAll d (s.map fun h => (h, f h)) a = if a ∈ s then some (f a) else d a
  | [], a => rfl
  | x :: s, a => by
    have ih := writeAll_map (Function.update d x (some (f x))) f s a
    simp only [writeAll, List.map_cons, List.foldl_cons] at ih ⊢
    rw [ih]
    by_cases hs : a ∈ s
    · rw [if_pos hs, if_pos (List.mem_cons_of_mem x hs)]
    · rw [if_neg hs]
      by_cases hx : a = x
      · subst hx
        rw [Function.update_self, if_pos List.mem_cons_self]
      · rw [Function.update_of_ne hx, if_neg (by simp [hx, hs])]

end Cap

/-! ### The invariant between calls -/

/-- The invariant of the cache between calls: its hash graph is ranked, and a flush-list with
no pending node threads every cached node but the meta-root. -/
structure CacheOk (rank : Hash → Nat) (db : Database) : Prop where
  ranked : Ranked rank db
  flush : ∃ l, FlushList db l []

theorem CacheOk.of_keeps {rank : Hash → Nat} {db db' : Database} (hc : CacheOk rank db)
    (hk : Keeps db db') : CacheOk rank db' := by
  obtain ⟨l, hf⟩ := hc.flush
  exact ⟨hc.ranked.mono hk.childs, l, hf.sameLinks hk.toSameLinks⟩

/-! ### `Commit` -/

section Commit

variable {db db' : Database} {rank : Hash → Nat} {hash : Hash} {fuel : Nat} {b b' : Batch}

/-- `cleaner.Put` of a written node other than the meta-root takes it off the flush-list and
out of the cache. -/
theorem CacheOk.cleanerPut (hc : CacheOk rank db) (h0 : hash ≠ 0)
    (h : cleanerPut hash db = .ok () db') : CacheOk rank db' := by
  obtain ⟨l, hf⟩ := hc.flush
  simp only [Memory.cleanerPut, get_bind_apply] at h
  cases hn : db.dirties.lookup hash with
  | none =>
    -- not cached (any more): nothing to do
    simp only [hn] at h
    cases h
    exact hc
  | some node =>
    simp only [hn] at h
    obtain ⟨⟨⟩, db₁, hu, h₂⟩ := bind_eq_ok.mp h
    rw [modify_apply] at h₂
    injection h₂ with _ hdb
    obtain ⟨l₁, l₂, rfl⟩ := List.append_of_mem (hf.mem_of_lookup hn h0 List.not_mem_nil)
    obtain ⟨hf₁, hs₁⟩ := hf.of_unlink hn hu
    obtain ⟨hf₂, hs₂⟩ := hf₁.erase_pending List.not_mem_nil (congrArg Database.dirties hdb.symm)
      (by rw [← hdb]) (by rw [← hdb])
    exact ⟨hc.ranked.mono (hs₁.trans hs₂), _, hf₂⟩

/-- Writing a batch whose keys are not the meta-root's and replaying it into the cleaner keeps
the invariant. -/
theorem CacheOk.writeReplay (hc : CacheOk rank db) (hb : ∀ w ∈ b.writes, w.1 ≠ 0)
    (h : writeReplay b db = .ok () db') : CacheOk rank db' := by
  simp only [Memory.writeReplay, modify_bind_apply] at h
  refine forM_invariant (CacheOk rank) (fun w hw _ _ hs hput => hs.cleanerPut (hb w hw) hput) ?_ h
  exact hc.of_keeps (Keeps.of_eq rfl rfl rfl)

/-- `commit` keeps the invariant and queues no write for the meta-root: its keys are the
node and the children it walks, which the ranking makes nonzero. -/
theorem CacheOk.commit (hc : CacheOk rank db) (h0 : hash ≠ 0) (hb : ∀ w ∈ b.writes, w.1 ≠ 0)
    (h : commit fuel hash b db = .ok b' db') : CacheOk rank db' ∧ ∀ w ∈ b'.writes, w.1 ≠ 0 := by
  induction fuel generalizing db db' hash b b' with
  | zero =>
    rw [Memory.commit, throw_apply] at h
    cases h
  | succ fuel ih =>
    simp only [Memory.commit, get_bind_apply] at h
    cases hn : db.dirties.lookup hash with
    | none =>
      simp only [hn] at h
      cases h
      exact ⟨hc, hb⟩
    | some node =>
      simp only [hn] at h
      obtain ⟨b₁, db₁, hfold, h₂⟩ := bind_eq_ok.mp h
      -- the children first, each of them nonzero by the ranking
      have h₁ : CacheOk rank db₁ ∧ ∀ w ∈ b₁.writes, w.1 ≠ 0 :=
        foldlM_invariant (fun b s => CacheOk rank s ∧ ∀ w ∈ b.writes, w.1 ≠ 0)
          (fun c hcm _ _ _ _ hs hrun => ih hs.1 (hc.ranked hash node hn c hcm).1 hs.2 hrun)
          ⟨hc, hb⟩ hfold
      -- then the node itself
      have hput : ∀ w ∈ (b₁.put hash node.rlp).writes, w.1 ≠ 0 := by
        simp only [Batch.put, List.mem_append, List.mem_singleton]
        rintro w (hw | rfl)
        · exact h₁.2 w hw
        · exact h0
      rw [ite_apply_state] at h₂
      split_ifs at h₂
      · -- a full batch is written and replayed, and a fresh one returned
        obtain ⟨⟨⟩, db₂, hw, h₃⟩ := bind_eq_ok.mp h₂
        cases h₃
        exact ⟨h₁.1.writeReplay hput hw, fun _ hw => absurd hw List.not_mem_nil⟩
      · cases h₂
        exact ⟨h₁.1, hput⟩

/-- `Commit` of a node other than the meta-root keeps the invariant. -/
theorem CacheOk.Commit (hc : CacheOk rank db) (h0 : hash ≠ 0) (h : Commit hash db = .ok () db') :
    CacheOk rank db' := by
  simp only [Memory.Commit, get_bind_apply] at h
  obtain ⟨b, db₁, hrun, h₂⟩ := bind_eq_ok.mp h
  obtain ⟨hc₁, hb⟩ := hc.commit h0 (fun _ hw => absurd hw List.not_mem_nil) hrun
  exact hc₁.writeReplay hb h₂

end Commit

/-! ### Runs -/

section Runs

variable {db db' : Database} {rank : Hash → Nat}

/-- The calls a client makes on the trie node cache: the trie's committer inserts nodes and
blobs, and the chain references, dereferences, caps and commits tries. -/
inductive Op where
  | insert (hash : Hash) (blob : Bytes) (node : Stored)
  | insertBlob (hash : Hash) (blob : Bytes)
  | reference (child parent : Hash)
  | dereference (root : Hash)
  | cap (limit : Int)
  | commit (node : Hash)

/-- A call on the database. -/
def Op.run : Op → DbM Unit
  | .insert hash blob node => Memory.insert hash blob node
  | .insertBlob hash blob => InsertBlob hash blob
  | .reference child parent => Reference child parent
  | .dereference root => Dereference root
  | .cap limit => Cap limit
  | .commit node => Commit node

/-- What the callers guarantee, with hashes ranked by `rank` (by the hashing, a node's hash
covers its children's): a node's hash children are below it, a reference goes down from a
node or from the meta-root, and the meta-root is never committed. -/
def Op.Ok (rank : Hash → Nat) : Op → Prop
  | .insert hash _ node => ∀ c ∈ node.hashChildren, c ≠ 0 ∧ rank c < rank hash
  | .reference child parent => child ≠ 0 ∧ (parent ≠ 0 → rank child < rank parent)
  | .commit node => node ≠ 0
  | .insertBlob _ _ | .dereference _ | .cap _ => True

/-- The databases that calls keeping to `Op.Ok` reach from a new one. -/
inductive Reachable (rank : Hash → Nat) : Database → Prop
  | new (diskdb : Hash → Option Bytes) : Reachable rank (NewDatabase diskdb)
  | step {db db' : Database} (op : Op) : Reachable rank db → op.Ok rank →
      op.run db = .ok () db' → Reachable rank db'

theorem CacheOk.new (diskdb : Hash → Option Bytes) : CacheOk rank (NewDatabase diskdb) := by
  refine ⟨?_, [], Threads.empty rfl, fun h => ?_, fun _ h => absurd h List.not_mem_nil,
    List.not_mem_nil⟩
  · -- the meta-root names no child
    intro h n hn c hc
    rw [NewDatabase, ← AList.insert_empty] at hn
    by_cases h0 : h = 0
    · rw [h0, AList.lookup_insert, Option.some.injEq] at hn
      subst hn
      exact absurd hc List.not_mem_nil
    · rw [AList.lookup_insert_ne h0, AList.lookup_empty] at hn
      cases hn
  · show h ∈ (AList.singleton 0 metaRoot).keys ↔ _
    rw [AList.keys_singleton, List.mem_singleton, List.mem_nil_iff, or_false,
      or_false]

theorem CacheOk.insert (hc : CacheOk rank db) {hash : Hash} {blob : Bytes} {node : Stored}
    (hch : ∀ c ∈ node.hashChildren, c ≠ 0 ∧ rank c < rank hash)
    (h : insert hash blob node db = .ok () db') : CacheOk rank db' := by
  obtain ⟨l, hf⟩ := hc.flush
  refine ⟨hc.ranked.of_insert hch h, ?_⟩
  by_cases hmem : hash ∈ db.dirties
  · obtain ⟨-, rfl⟩ | ⟨hn, -⟩ := insert_eq_ok h
    · exact ⟨l, hf⟩
    · exact absurd hmem hn
  · exact ⟨_, hf.of_insert hmem h⟩

theorem CacheOk.reference (hc : CacheOk rank db) {child parent : Hash} (hc0 : child ≠ 0)
    (hrank : parent ≠ 0 → rank child < rank parent) (h : reference child parent db = .ok () db') :
    CacheOk rank db' := by
  obtain ⟨l, hf⟩ := hc.flush
  have ha := reference_addsChild h
  exact ⟨hc.ranked.addsChild ha hc0 hrank, l, hf.sameLinks ha.toSameLinks⟩

/-- `Dereference` on a cache with the invariant succeeds and keeps it: the recursion has fuel for
every listed node. -/
theorem CacheOk.Dereference_ok (hc : CacheOk rank db) (root : Hash) :
    ∃ db', Dereference root db = .ok () db' ∧ CacheOk rank db' := by
  simp only [Memory.Dereference, get_bind_apply, ite_apply_state]
  split_ifs with h0
  · obtain ⟨l, hf⟩ := hc.flush
    obtain ⟨db', hrun, hr, l', -, hf'⟩ := dereference_spec hc.ranked hf h0
      (fun _ hp => absurd hp List.not_mem_nil) ((hf.mem_iff 0).mpr (.inl rfl))
      (Nat.lt_succ_of_lt hf.length_lt)
    exact ⟨db', hrun, hr, l', hf'⟩
  · exact ⟨db, rfl, hc⟩

theorem CacheOk.Dereference (hc : CacheOk rank db) {root : Hash}
    (h : Dereference root db = .ok () db') : CacheOk rank db' := by
  obtain ⟨db'', hrun, hc''⟩ := hc.Dereference_ok root
  rw [hrun] at h
  cases h
  exact hc''

theorem CacheOk.Cap (hc : CacheOk rank db) {limit : Int} (h : Cap limit db = .ok () db') :
    CacheOk rank db' := by
  obtain ⟨l, hf⟩ := hc.flush
  obtain ⟨k, -, db'', hcap, hf', -, -, hs, -⟩ := Cap_spec hf limit
  rw [hcap] at h
  cases h
  exact ⟨hc.ranked.mono hs, _, hf'⟩

/-- Step lemma: every call keeping to `Op.Ok` keeps the invariant. -/
theorem CacheOk.step (hc : CacheOk rank db) {op : Op} (hok : op.Ok rank)
    (h : op.run db = .ok () db') : CacheOk rank db' := by
  cases op with
  | insert hash blob node => exact hc.insert hok h
  | insertBlob hash blob => exact hc.insert (fun _ hc => absurd hc List.not_mem_nil) h
  | reference child parent => exact hc.reference hok.1 hok.2 h
  | dereference root => exact hc.Dereference h
  | cap limit => exact hc.Cap h
  | commit node => exact hc.Commit hok h

/-- Run lemma: every reachable database keeps the invariant. -/
theorem CacheOk.of_reachable (h : Reachable rank db) : CacheOk rank db := by
  induction h with
  | new diskdb => exact CacheOk.new diskdb
  | step op _ hok hrun ih => exact ih.step hok hrun

/-- In every database a run of calls reaches, the flush-list threads exactly the cached nodes
other than the meta-root, from `oldest` to `newest`, and the meta-root stays cached. -/
theorem flushList_threads_dirties (h : Reachable rank db) :
    ∃ l, Threads 0 (nextIn db.dirties) (prevIn db.dirties) db.oldest db.newest l ∧
      ∀ a, a ∈ db.dirties ↔ a = 0 ∨ a ∈ l := by
  obtain ⟨l, hf⟩ := (CacheOk.of_reachable h).flush
  refine ⟨l, hf.threads, fun a => ?_⟩
  rw [hf.mem_iff a, List.mem_nil_iff, or_false]

theorem flushList_threads_one_blob :
    let db : Database := ⟨fun _ => none,
      (AList.singleton 0 metaRoot).insert 5 ⟨.raw [1], 1, 0, none, 0, 0⟩, 5, 5, 33, 0⟩
    ∃ l, Threads 0 (nextIn db.dirties) (prevIn db.dirties) db.oldest db.newest l ∧
      ∀ a, a ∈ db.dirties ↔ a = 0 ∨ a ∈ l :=
  flushList_threads_dirties
    (.step (.insertBlob 5 [1]) (.new fun _ => none) trivial rfl : Reachable BitVec.toNat _)

/-- `Dereference` never panics on a reachable database: every node of the cascade finds its
parent and its flush-list neighbours cached, and the recursion never runs deeper than the cache
is large. -/
theorem Dereference_never_panics (h : Reachable rank db) (root : Hash) :
    ∃ db', Dereference root db = .ok () db' := by
  obtain ⟨db', hrun, -⟩ := (CacheOk.of_reachable h).Dereference_ok root
  exact ⟨db', hrun⟩

theorem Dereference_never_panics_one_blob :
    let db : Database := ⟨fun _ => none,
      (AList.singleton 0 metaRoot).insert 5 ⟨.raw [1], 1, 0, none, 0, 0⟩, 5, 5, 33, 0⟩
    ∃ db', Dereference 5 db = .ok () db' :=
  Dereference_never_panics
    (.step (.insertBlob 5 [1]) (.new fun _ => none) trivial rfl : Reachable BitVec.toNat _) 5

end Runs

end Ccmchain.Trie.Memory
