import Ccmchain.Trie.Flush

/-!
# `Commit` writes the trie under its root

`commit` walks the cached nodes under a root, children before parents, and puts each into a
batch; a full batch is written to disk and replayed into `cleaner.Put`, which takes the written
nodes out of the cache. This module proves what `Commit` is for: on a reachable database it
never fails, every cached node under the root is on disk with its blob afterwards and out of the
cache, and every other node keeps its place in the cache and on disk.

The walk can meet a node again, or meet a node that a replay has already uncached. `CommitInv`
keeps track of the nodes already saved, in the batch or on disk, and of the fact that the cached
nodes under a saved node are saved too. The recursion has fuel for one level per cached node of
lower rank than the node it visits.
-/

namespace Ccmchain.Trie.Memory

open Common (Hash)
open EStateM

/-! ### The trie under a node -/

/-- `c` is a child that the cached entry at `h` names. -/
def ChildOf (db : Database) (h c : Hash) : Prop :=
  ∃ n, db.dirties.lookup h = some n ∧ c ∈ n.childs

/-- The nodes under `h` in the cache: `h`, and what the children of cached nodes lead to. -/
def Under (db : Database) (h : Hash) : Hash → Prop :=
  Relation.ReflTransGen (ChildOf db) h

/-- Every entry of `db'` is an entry of `db` holding the same node and children map: a step that
changes flush-list pointers and parent counts only, and may delete entries. -/
def SameData (db db' : Database) : Prop :=
  ∀ h n', db'.dirties.lookup h = some n' →
    ∃ n, db.dirties.lookup h = some n ∧ n'.node = n.node ∧ n'.children = n.children

section SameData

variable {db db' db'' : Database} {hash : Hash} {node : CachedNode}

theorem Under.mem_left {c a : Hash} (h : Under db c a) (ha : a ∈ db.dirties) : c ∈ db.dirties := by
  rcases Relation.ReflTransGen.cases_head h with rfl | ⟨c', ⟨n, hn, -⟩, -⟩
  · exact ha
  · exact AList.lookup_isSome.mp (by rw [hn]; rfl)

theorem SameData.refl (db : Database) : SameData db db := fun _ n hn => ⟨n, hn, rfl, rfl⟩

theorem SameData.trans (h₁ : SameData db db') (h₂ : SameData db' db'') : SameData db db'' := by
  intro h n'' hn''
  obtain ⟨n', hn', hnode', hch'⟩ := h₂ h n'' hn''
  obtain ⟨n, hn, hnode, hch⟩ := h₁ h n' hn'
  exact ⟨n, hn, hnode'.trans hnode, hch'.trans hch⟩

theorem SameData.of_eq (hd : db'.dirties = db.dirties) : SameData db db' := by
  intro h n hn
  rw [hd] at hn
  exact ⟨n, hn, rfl, rfl⟩

theorem SameData.mem (hs : SameData db db') {h : Hash} (hm : h ∈ db'.dirties) : h ∈ db.dirties := by
  obtain ⟨n', hn'⟩ := exists_lookup_of_mem hm
  obtain ⟨n, hn, -⟩ := hs h n' hn'
  exact AList.lookup_isSome.mp (by rw [hn]; rfl)

/-- A node of the same data has the same blob and the same children. -/
theorem rlp_childs_of_data {n n' : CachedNode} (hnode : n'.node = n.node)
    (hch : n'.children = n.children) : n'.rlp = n.rlp ∧ n'.childs = n.childs := by
  exact ⟨by simp only [CachedNode.rlp, hnode], by simp only [CachedNode.childs, hnode, hch]⟩

theorem SameData.erase (hs : SameData db db') (hd : db''.dirties = db'.dirties.erase hash) :
    SameData db db'' := by
  intro h n hn
  rw [hd] at hn
  by_cases hh : h = hash
  · rw [hh, AList.lookup_erase] at hn
    cases hn
  · rw [AList.lookup_erase_ne hh] at hn
    exact hs h n hn

theorem modifyEntry_sameData {f : CachedNode → CachedNode} {u : Unit}
    (hm : modifyEntry hash f db = .ok u db')
    (hf : ∀ n, (f n).node = n.node ∧ (f n).children = n.children) : SameData db db' := by
  obtain ⟨n, hn, rfl⟩ := modifyEntry_eq_ok hm
  intro a n' hn'
  by_cases ha : a = hash
  · subst ha
    rw [AList.lookup_insert, Option.some.injEq] at hn'
    subst hn'
    exact ⟨n, hn, hf n⟩
  · rw [AList.lookup_insert_ne ha] at hn'
    exact ⟨n', hn', rfl, rfl⟩

/-- What `unlink` leaves: the data of every entry, the keys and the disk. -/
theorem unlink_effect (h : unlink hash node db = .ok () db') :
    SameData db db' ∧ (∀ a, a ∈ db'.dirties ↔ a ∈ db.dirties) ∧ db'.diskdb = db.diskdb := by
  have hmem : ∀ a, a ∈ db'.dirties ↔ a ∈ db.dirties := by
    intro a
    have hs := congrArg Option.isSome ((unlink_frame h).2.2 a)
    simp only [Option.isSome_map] at hs
    rw [← AList.lookup_isSome, ← AList.lookup_isSome, hs]
  unfold Memory.unlink at h
  simp only [get_bind_apply] at h
  split_ifs at h with ho hw
  · rw [set_bind_apply] at h
    have hd := modifyEntry_sameData h fun _ => ⟨rfl, rfl⟩
    obtain ⟨n, -, rfl⟩ := modifyEntry_eq_ok h
    exact ⟨(SameData.of_eq rfl).trans hd, hmem, rfl⟩
  · rw [set_bind_apply] at h
    have hd := modifyEntry_sameData h fun _ => ⟨rfl, rfl⟩
    obtain ⟨n, -, rfl⟩ := modifyEntry_eq_ok h
    exact ⟨(SameData.of_eq rfl).trans hd, hmem, rfl⟩
  · obtain ⟨⟨⟩, db₁, h₁, h₂⟩ := bind_eq_ok.mp h
    have hd₁ := modifyEntry_sameData h₁ fun _ => ⟨rfl, rfl⟩
    have hd₂ := modifyEntry_sameData h₂ fun _ => ⟨rfl, rfl⟩
    obtain ⟨n₁, -, rfl⟩ := modifyEntry_eq_ok h₁
    obtain ⟨n₂, -, rfl⟩ := modifyEntry_eq_ok h₂
    exact ⟨hd₁.trans hd₂, hmem, rfl⟩

end SameData

/-! ### Writing and replaying a batch -/

section Replay

variable {db db' : Database} {rank : Hash → Nat} {hash : Hash} {b : Batch}

/-- What `cleaner.Put` leaves: the entry at `hash` is gone, and the data of the others, the other
keys and the disk are as they were. -/
theorem cleanerPut_effect (h : cleanerPut hash db = .ok () db') :
    SameData db db' ∧ (∀ a, a ∈ db'.dirties ↔ a ∈ db.dirties ∧ a ≠ hash) ∧
      db'.diskdb = db.diskdb := by
  simp only [Memory.cleanerPut, get_bind_apply] at h
  cases hn : db.dirties.lookup hash with
  | none =>
    simp only [hn] at h
    cases h
    refine ⟨SameData.refl db, fun a => ⟨fun ha => ⟨ha, ?_⟩, And.left⟩, rfl⟩
    rintro rfl
    rw [← AList.lookup_isSome, hn] at ha
    cases ha
  | some node =>
    simp only [hn] at h
    obtain ⟨⟨⟩, db₁, hu, h₂⟩ := bind_eq_ok.mp h
    obtain ⟨hd₁, hmem₁, hdisk₁⟩ := unlink_effect hu
    rw [modify_apply] at h₂
    cases h₂
    refine ⟨hd₁.erase rfl, fun a => ?_, hdisk₁⟩
    rw [AList.mem_erase, hmem₁, and_comm]

/-- `cleaner.Put` of a node other than the meta-root finds the neighbours it unlinks. -/
theorem cleanerPut_ok (hc : CacheOk rank db) (h0 : hash ≠ 0) :
    ∃ db', cleanerPut hash db = .ok () db' := by
  obtain ⟨l, hf⟩ := hc.flush
  simp only [Memory.cleanerPut, get_bind_apply]
  cases hn : db.dirties.lookup hash with
  | none => exact ⟨db, rfl⟩
  | some node =>
    obtain ⟨l₁, l₂, rfl⟩ := List.append_of_mem (hf.mem_of_lookup hn h0 List.not_mem_nil)
    obtain ⟨db₁, hu⟩ := unlink_ok hf hn
    dsimp only
    rw [bind_of_ok hu, modify_apply]
    exact ⟨_, rfl⟩

theorem forM_cleanerPut_effect : ∀ (ws : List (Hash × Bytes)) {db db' : Database},
    ws.forM (fun w => cleanerPut w.1) db = .ok () db' →
    SameData db db' ∧ (∀ a, a ∈ db'.dirties ↔ a ∈ db.dirties ∧ a ∉ ws.map Prod.fst) ∧
      db'.diskdb = db.diskdb
  | [], db, db', h => by
    cases h
    exact ⟨SameData.refl db, fun a => by simp, rfl⟩
  | w :: ws, db, db', h => by
    simp only [List.forM_eq_forM, List.forM_cons] at h
    obtain ⟨⟨⟩, db₁, h₁, h₂⟩ := bind_eq_ok.mp h
    obtain ⟨hd₁, hmem₁, hdisk₁⟩ := cleanerPut_effect h₁
    obtain ⟨hd₂, hmem₂, hdisk₂⟩ := forM_cleanerPut_effect ws h₂
    refine ⟨hd₁.trans hd₂, fun a => ?_, hdisk₂.trans hdisk₁⟩
    rw [hmem₂, hmem₁, List.map_cons, List.mem_cons]
    tauto

/-- What writing and replaying a batch leaves: its writes are on disk, its keys are out of the
cache, and everything else is as it was. -/
theorem writeReplay_effect (h : writeReplay b db = .ok () db') :
    SameData db db' ∧ (∀ a, a ∈ db'.dirties ↔ a ∈ db.dirties ∧ a ∉ b.writes.map Prod.fst) ∧
      db'.diskdb = writeAll db.diskdb b.writes := by
  simp only [Memory.writeReplay, modify_bind_apply] at h
  obtain ⟨hd, hmem, hdisk⟩ := forM_cleanerPut_effect b.writes h
  exact ⟨(SameData.of_eq rfl).trans hd, hmem, hdisk⟩

theorem writeReplay_ok (hc : CacheOk rank db) (hb : ∀ w ∈ b.writes, w.1 ≠ 0) :
    ∃ db', writeReplay b db = .ok () db' := by
  simp only [Memory.writeReplay, modify_bind_apply]
  have hc₁ : CacheOk rank { db with diskdb := writeAll db.diskdb b.writes } :=
    hc.of_keeps (Keeps.of_eq rfl rfl rfl)
  obtain ⟨db', h, -⟩ := forM_ok_of_invariant (CacheOk rank)
    (fun w hw s hs => by
      obtain ⟨s', hput⟩ := cleanerPut_ok hs (hb w hw)
      exact ⟨s', hput, hs.cleanerPut (hb w hw) hput⟩) hc₁
  exact ⟨db', h⟩

/-- The disk after writes whose values are the blobs `g` of their keys. -/
theorem writeAll_of_values (d : Hash → Option Bytes) (g : Hash → Bytes) {ws : List (Hash × Bytes)}
    (hw : ∀ w ∈ ws, w.2 = g w.1) (a : Hash) :
    writeAll d ws a = if a ∈ ws.map Prod.fst then some (g a) else d a := by
  have hws : (ws.map Prod.fst).map (fun h => (h, g h)) = ws := by
    rw [List.map_map]
    conv_rhs => rw [← List.map_id ws]
    exact List.map_congr_left fun w hw' => Prod.ext rfl (hw w hw').symm
  rw [← writeAll_map d g (ws.map Prod.fst) a, hws]

end Replay

/-! ### The walk of `commit` -/

/-- A node of `db₀` is saved once it is in the batch, or gone from the cache. -/
def Saved (db₀ s : Database) (b : Batch) (m : Hash) : Prop :=
  m ∈ db₀.dirties ∧ (m ∉ s.dirties ∨ m ∈ b.writes.map Prod.fst)

/-- The state `s` and batch `b` of a walk of `commit` under `root`, begun on `db₀`. The cache
keeps its invariant and the data of its entries, and loses only nodes under the root. The batch
holds blobs of nodes under the root. The disk holds the blob of every node gone from the cache
and nothing else new. The cached nodes under a saved node are saved. -/
structure CommitInv (rank : Hash → Nat) (db₀ : Database) (root : Hash) (s : Database)
    (b : Batch) : Prop where
  ok : CacheOk rank s
  data : SameData db₀ s
  batch : ∀ w ∈ b.writes, w.1 ≠ 0 ∧ w.1 ∈ db₀.dirties ∧ w.2 = rlpAt db₀ w.1 ∧ Under db₀ root w.1
  disk : ∀ a, s.diskdb a =
    if a ∈ db₀.dirties ∧ a ∉ s.dirties then some (rlpAt db₀ a) else db₀.diskdb a
  gone : ∀ a ∈ db₀.dirties, a ∉ s.dirties → Under db₀ root a
  closed : ∀ m, Saved db₀ s b m → ∀ a, Under db₀ m a → a ∈ db₀.dirties → Saved db₀ s b a

/-- The cached nodes of `db₀` of lower rank than `h`: the walk of `commit` from `h` goes no deeper
than there are of them. -/
def below (rank : Hash → Nat) (db₀ : Database) (h : Hash) : Finset Hash :=
  db₀.dirties.keys.toFinset.filter fun k => rank k < rank h

section Walk

variable {rank : Hash → Nat} {db₀ s : Database} {root hash : Hash} {b : Batch} {fuel : Nat}

theorem card_below_lt {c h : Hash} (hc : c ∈ db₀.dirties) (hr : rank c < rank h) :
    (below rank db₀ c).card < (below rank db₀ h).card := by
  apply Finset.card_lt_card
  refine (Finset.ssubset_iff_of_subset fun k hk => ?_).mpr ⟨c, ?_, ?_⟩
  · simp only [below, Finset.mem_filter] at hk ⊢
    exact ⟨hk.1, hk.2.trans hr⟩
  · simp only [below, Finset.mem_filter, List.mem_toFinset]
    exact ⟨AList.mem_keys.mpr hc, hr⟩
  · simp [below]

theorem card_below_lt_length {h : Hash} (hh : h ∈ db₀.dirties) :
    (below rank db₀ h).card < db₀.dirties.entries.length := by
  have hsub : below rank db₀ h ⊂ db₀.dirties.keys.toFinset :=
    Finset.filter_ssubset.mpr ⟨h, List.mem_toFinset.mpr (AList.mem_keys.mpr hh), lt_irrefl _⟩
  have hcard := Finset.card_lt_card hsub
  rw [List.toFinset_card_of_nodup db₀.dirties.keys_nodup] at hcard
  simpa only [AList.keys, List.keys, List.length_map] using hcard

theorem CommitInv.start (hc : CacheOk rank db₀) : CommitInv rank db₀ root db₀ ⟨[], 0⟩ where
  ok := hc
  data := SameData.refl db₀
  batch := fun _ hw => absurd hw List.not_mem_nil
  disk := fun a => by rw [if_neg fun h => h.2 h.1]
  gone := fun _ ha hn => absurd ha hn
  closed := fun _ hm => hm.2.elim (fun h => absurd hm.1 h) fun h => absurd h List.not_mem_nil

theorem saved_put {m k : Hash} {v : Bytes} :
    Saved db₀ s (b.put k v) m ↔ Saved db₀ s b m ∨ m = k ∧ m ∈ db₀.dirties := by
  simp only [Saved, Batch.put, List.map_append, List.map_cons, List.map_nil, List.mem_append,
    List.mem_singleton]
  tauto

/-- Putting into the batch a node under the root whose children are saved saves it. -/
theorem CommitInv.put (hs : CommitInv rank db₀ root s b) (h0 : hash ≠ 0)
    (hm : hash ∈ db₀.dirties) (hu : Under db₀ root hash)
    (hch : ∀ c, ChildOf db₀ hash c → c ∈ db₀.dirties → Saved db₀ s b c) :
    CommitInv rank db₀ root s (b.put hash (rlpAt db₀ hash)) ∧
      (∀ m, Saved db₀ s b m → Saved db₀ s (b.put hash (rlpAt db₀ hash)) m) ∧
      Saved db₀ s (b.put hash (rlpAt db₀ hash)) hash := by
  have hmono : ∀ m, Saved db₀ s b m → Saved db₀ s (b.put hash (rlpAt db₀ hash)) m :=
    fun m hm' => saved_put.mpr (.inl hm')
  refine ⟨⟨hs.ok, hs.data, fun w hw => ?_, hs.disk, hs.gone, fun m hsm a hua ha => ?_⟩, hmono,
    saved_put.mpr (.inr ⟨rfl, hm⟩)⟩
  · simp only [Batch.put, List.mem_append, List.mem_singleton] at hw
    rcases hw with hw | rfl
    · exact hs.batch w hw
    · exact ⟨h0, hm, rfl, hu⟩
  · rcases saved_put.mp hsm with hsm | ⟨rfl, -⟩
    · exact hmono a (hs.closed m hsm a hua ha)
    -- the node itself, or a node under one of its children, which are saved
    · rcases Relation.ReflTransGen.cases_head hua with rfl | ⟨c, hc, hca⟩
      · exact saved_put.mpr (.inr ⟨rfl, ha⟩)
      · exact hmono a (hs.closed c (hch c hc (Under.mem_left hca ha)) a hca ha)

/-- Writing and replaying the batch: its nodes go to disk and out of the cache, and stay saved. -/
theorem CommitInv.writeReplay (hs : CommitInv rank db₀ root s b) :
    ∃ s', writeReplay b s = .ok () s' ∧ CommitInv rank db₀ root s' ⟨[], 0⟩ ∧
      ∀ m, Saved db₀ s b m → Saved db₀ s' ⟨[], 0⟩ m := by
  obtain ⟨s', hw⟩ := writeReplay_ok hs.ok fun w hw => (hs.batch w hw).1
  obtain ⟨hd, hmem, hdisk⟩ := writeReplay_effect hw
  have hmono : ∀ m, Saved db₀ s b m → Saved db₀ s' ⟨[], 0⟩ m := by
    rintro m ⟨hm, hsm⟩
    refine ⟨hm, .inl fun hm' => ?_⟩
    rcases hsm with hsm | hsm
    · exact hsm ((hmem m).mp hm').1
    · exact ((hmem m).mp hm').2 hsm
  -- a node gone now was gone before, or in the batch
  have hback : ∀ m, m ∈ db₀.dirties → m ∉ s'.dirties → Saved db₀ s b m := by
    intro m hm hm'
    refine ⟨hm, ?_⟩
    by_cases hms : m ∈ s.dirties
    · exact .inr (not_not.mp fun hb => hm' ((hmem m).mpr ⟨hms, hb⟩))
    · exact .inl hms
  refine ⟨s', hw, ⟨hs.ok.writeReplay (fun w hw => (hs.batch w hw).1) hw, hs.data.trans hd,
    fun _ hw => absurd hw List.not_mem_nil, fun a => ?_, fun a ha hn => ?_,
    fun m hsm a hua ha => ?_⟩, hmono⟩
  · rw [hdisk, writeAll_of_values s.diskdb (rlpAt db₀) (fun w hw => (hs.batch w hw).2.2.1) a,
      hs.disk a]
    by_cases hb : a ∈ b.writes.map Prod.fst
    · obtain ⟨w, hw, rfl⟩ := List.mem_map.mp hb
      rw [if_pos hb, if_pos ⟨(hs.batch w hw).2.1, fun h => ((hmem w.1).mp h).2 hb⟩]
    · have hiff : a ∈ s'.dirties ↔ a ∈ s.dirties := by
        rw [hmem a]
        exact and_iff_left hb
      rw [if_neg hb]
      simp only [hiff]
  · rcases (hback a ha hn).2 with hgone | hb
    · exact hs.gone a ha hgone
    · obtain ⟨w, hw, rfl⟩ := List.mem_map.mp hb
      exact (hs.batch w hw).2.2.2
  · have hm' : m ∉ s'.dirties :=
      hsm.2.elim id fun h => absurd h List.not_mem_nil
    exact hmono a (hs.closed m (hback m hsm.1 hm') a hua ha)

/-- The walk of `commit` from a node under the root succeeds with fuel for one level per cached
node below it, keeps the invariant, keeps saved nodes saved, and saves the node. -/
theorem commit_spec (hs : CommitInv rank db₀ root s b) (h0 : hash ≠ 0) (hu : Under db₀ root hash)
    (hfuel : hash ∈ db₀.dirties → (below rank db₀ hash).card + 1 < fuel) (hpos : 0 < fuel) :
    ∃ b' s', commit fuel hash b s = .ok b' s' ∧ CommitInv rank db₀ root s' b' ∧
      (∀ m, Saved db₀ s b m → Saved db₀ s' b' m) ∧ (hash ∈ db₀.dirties → Saved db₀ s' b' hash) := by
  induction fuel generalizing hash b s with
  | zero => exact absurd hpos (Nat.lt_irrefl 0)
  | succ fuel ih =>
    cases hn : s.dirties.lookup hash with
    | none =>
      -- not cached: nothing to write, and saved already if it was cached
      refine ⟨b, s, by simp only [Memory.commit, get_bind_apply, hn]; rfl, hs, fun _ h => h,
        fun hm => ⟨hm, .inl fun hms => ?_⟩⟩
      rw [← AList.lookup_isSome, hn] at hms
      cases hms
    | some n =>
      obtain ⟨n₀, hn₀, hnode, hch⟩ := hs.data hash n hn
      have hm₀ : hash ∈ db₀.dirties := AList.lookup_isSome.mp (by rw [hn₀]; rfl)
      obtain ⟨hrlp, hchilds⟩ := rlp_childs_of_data hnode hch
      have hrlp₀ : rlpAt db₀ hash = n.rlp := by simp only [rlpAt, hn₀, hrlp, Option.map_some,
        Option.getD_some]
      have hlt := hfuel hm₀
      -- the children first: each is under the root and of lower rank, and ends saved
      obtain ⟨b₁, s₁, hfold, hinv₁, hmono₁, hdone⟩ := foldlM_ok_of_invariant
        (fun rest b' s' => CommitInv rank db₀ root s' b' ∧ (∀ m, Saved db₀ s b m → Saved db₀ s' b' m) ∧
          ∀ c ∈ n.childs, c ∉ rest → c ∈ db₀.dirties → Saved db₀ s' b' c)
        (fun a rest hsuf b' s' hQ => by
          obtain ⟨hinv, hmono, hdone⟩ := hQ
          have ha : a ∈ n.childs := hsuf.subset List.mem_cons_self
          have hcr := hs.ok.ranked hash n hn a ha
          have hfa : a ∈ db₀.dirties → (below rank db₀ a).card + 1 < fuel := fun ha₀ => by
            have := card_below_lt ha₀ (hcr.2 h0)
            omega
          obtain ⟨b'', s'', hrun, hinv', hmono', hsaved⟩ :=
            ih hinv hcr.1 (hu.tail ⟨n₀, hn₀, hchilds ▸ ha⟩) hfa (by omega)
          refine ⟨b'', s'', hrun, hinv', fun m hm => hmono' m (hmono m hm), fun c hc hcr' hc₀ => ?_⟩
          by_cases hca : c = a
          · subst hca
            exact hsaved hc₀
          · exact hmono' c (hdone c hc (fun h => (List.mem_cons.mp h).elim hca hcr') hc₀))
        ⟨hs, fun _ h => h, fun c hc hnc => absurd hc hnc⟩
      have hkids : ∀ c, ChildOf db₀ hash c → c ∈ db₀.dirties → Saved db₀ s₁ b₁ c := by
        rintro c ⟨n', hn', hc⟩ hc₀
        rw [hn₀, Option.some.injEq] at hn'
        subst hn'
        exact hdone c (hchilds ▸ hc) List.not_mem_nil hc₀
      obtain ⟨hinv₂, hmono₂, hsaved₂⟩ := hinv₁.put h0 hm₀ hu hkids
      -- then the node itself, and the batch is written if it is full
      simp only [Memory.commit, get_bind_apply, hn]
      rw [bind_of_ok hfold, ← hrlp₀, ite_apply_state]
      split_ifs
      · obtain ⟨s₂, hw, hinv₃, hmono₃⟩ := hinv₂.writeReplay
        refine ⟨⟨[], 0⟩, s₂, by rw [bind_of_ok hw]; rfl, hinv₃,
          fun m hm => hmono₃ m (hmono₂ m (hmono₁ m hm)), fun _ => hmono₃ hash hsaved₂⟩
      · exact ⟨_, s₁, rfl, hinv₂, fun m hm => hmono₂ m (hmono₁ m hm), fun _ => hsaved₂⟩

end Walk

/-! ### `Commit` -/

section Commit

variable {rank : Hash → Nat} {db : Database} {node : Hash}

/-- `Commit` of a node other than the meta-root never fails on a reachable database. Afterwards
every cached node under it is out of the cache and on disk with its blob, and every other node is
in the cache, or not, and on disk as before. -/
theorem Commit_writes_subtrie (h : Reachable rank db) (hnode : node ≠ 0) :
    ∃ db', Commit node db = .ok () db' ∧
      (∀ a, Under db node a → a ∈ db.dirties →
        a ∉ db'.dirties ∧ db'.diskdb a = some (rlpAt db a)) ∧
      (∀ a, ¬(Under db node a ∧ a ∈ db.dirties) →
        (a ∈ db'.dirties ↔ a ∈ db.dirties) ∧ db'.diskdb a = db.diskdb a) := by
  have hc := CacheOk.of_reachable h
  have hfuel : node ∈ db.dirties →
      (below rank db node).card + 1 < db.dirties.entries.length + 1 :=
    fun hm => Nat.succ_lt_succ (card_below_lt_length hm)
  obtain ⟨b, s, hrun, hinv, -, hsaved⟩ :=
    commit_spec (CommitInv.start hc) hnode Relation.ReflTransGen.refl hfuel (Nat.succ_pos _)
  obtain ⟨s', hw, hinv', hmono⟩ := hinv.writeReplay
  refine ⟨s', ?_, fun a hua ha => ?_, fun a hna => ?_⟩
  · simp only [Memory.Commit, get_bind_apply, bind_of_ok hrun]
    exact hw
  · obtain ⟨-, hgone | hb⟩ := hmono a (hinv.closed node (hsaved (Under.mem_left hua ha)) a hua ha)
    · exact ⟨hgone, by rw [hinv'.disk a, if_pos ⟨ha, hgone⟩]⟩
    · exact absurd hb List.not_mem_nil
  · by_cases ha : a ∈ db.dirties
    · have hcached : a ∈ s'.dirties := not_not.mp fun hn => hna ⟨hinv'.gone a ha hn, ha⟩
      exact ⟨iff_of_true hcached ha, by rw [hinv'.disk a, if_neg fun h => h.2 hcached]⟩
    · exact ⟨iff_of_false (fun h => ha (hinv'.data.mem h)) ha,
        by rw [hinv'.disk a, if_neg fun h => ha h.1]⟩

theorem Commit_writes_subtrie_one_blob :
    let db : Database := ⟨fun _ => none,
      (AList.singleton 0 metaRoot).insert 5 ⟨.raw [1], 1, 0, none, 0, 0⟩, 5, 5, 33, 0⟩
    ∃ db', Commit 5 db = .ok () db' ∧
      (∀ a, Under db 5 a → a ∈ db.dirties →
        a ∉ db'.dirties ∧ db'.diskdb a = some (rlpAt db a)) ∧
      (∀ a, ¬(Under db 5 a ∧ a ∈ db.dirties) →
        (a ∈ db'.dirties ↔ a ∈ db.dirties) ∧ db'.diskdb a = db.diskdb a) :=
  Commit_writes_subtrie
    (.step (.insertBlob 5 [1]) (.new fun _ => none) trivial rfl : Reachable BitVec.toNat _)
    (by decide)

end Commit

end Ccmchain.Trie.Memory
