import Ccmchain.Trie.Database
import Ccmchain.Lib.Thread

/-!
# The flush-list of the trie node cache

`Database` threads its cached nodes into a doubly linked flush-list, oldest first, through the
`flushPrev` and `flushNext` fields of the entries, with the zero hash (the meta-root) ending it.
`Cap` flushes from the front of that list, and `insert`, `dereference` and `cleaner.Put` keep it
up to date by hand. This module states the invariant (`FlushList`: the flush-list threads
exactly the cached nodes other than the meta-root, which stays cached) and proves that `insert`,
`reference` and the cascade of `dereference` keep it; `Ccmchain.Trie.Flush` does `Cap` and
`Commit`, and runs of calls.

The cascade of `dereference` unlinks a node before it dereferences that node's children and
deletes it afterwards, so within the cascade the invariant allows `pending` nodes: cached, off
the list, and waiting for deletion. A child met again while pending would be unlinked twice;
hashes rule that out, since a node's hash covers its children's. `Ranked` states it as the
callers guarantee it: every child a cached node names is nonzero and of lower `rank` than its
parent, the meta-root apart.
-/

namespace Ccmchain.Trie.Memory

open Common (Hash)
open EStateM
open Thread (Threads)

/-! ### Reading the flush-list off the cache -/

/-- `flushNext` of the cached entry at a hash. -/
def nextIn (dirties : AList fun _ : Hash => CachedNode) (h : Hash) : Option Hash :=
  (dirties.lookup h).map CachedNode.flushNext

/-- `flushPrev` of the cached entry at a hash. -/
def prevIn (dirties : AList fun _ : Hash => CachedNode) (h : Hash) : Option Hash :=
  (dirties.lookup h).map CachedNode.flushPrev

/-- The invariant of the cache, with the nodes `pending` that a cascade of `dereference` has
unlinked and not yet deleted: the flush-list threads `l` from `oldest` to `newest`, and the
cache holds the meta-root, the keys of `l` and the pending nodes. -/
structure FlushList (db : Database) (l pending : List Hash) : Prop where
  threads : Threads 0 (nextIn db.dirties) (prevIn db.dirties) db.oldest db.newest l
  mem_iff : ∀ h, h ∈ db.dirties ↔ h = 0 ∨ h ∈ l ∨ h ∈ pending
  pending_not_mem : ∀ h ∈ pending, h ∉ l
  zero_not_mem_pending : (0 : Hash) ∉ pending

/-- The hash graph of the cache is ranked: every child a cached node names is nonzero, and below
its parent in `rank` unless the parent is the meta-root. -/
def Ranked (rank : Hash → Nat) (db : Database) : Prop :=
  ∀ h n, db.dirties.lookup h = some n → ∀ c ∈ n.childs, c ≠ 0 ∧ (h ≠ 0 → rank c < rank h)

/-- Every entry of `db'` is an entry of `db` naming no more children. -/
def ChildsSub (db db' : Database) : Prop :=
  ∀ h n', db'.dirties.lookup h = some n' → ∃ n, db.dirties.lookup h = some n ∧ n'.childs ⊆ n.childs

/-- A step that keeps the keys, the flush-list pointers and both ends of the list. -/
structure SameLinks (db db' : Database) : Prop where
  mem_iff : ∀ h, h ∈ db'.dirties ↔ h ∈ db.dirties
  next_eq : nextIn db'.dirties = nextIn db.dirties
  prev_eq : prevIn db'.dirties = prevIn db.dirties
  oldest_eq : db'.oldest = db.oldest
  newest_eq : db'.newest = db.newest

/-- A step that keeps the flush-list as it is and may only drop children: a change of parent
counts, or a child leaving a children map. -/
structure Keeps (db db' : Database) : Prop extends SameLinks db db' where
  childs : ChildsSub db db'

section Pointers

variable {d : AList fun _ : Hash => CachedNode} {h : Hash} {n : CachedNode}

theorem nextIn_insert (d : AList fun _ : Hash => CachedNode) (h : Hash) (n : CachedNode) :
    nextIn (d.insert h n) = Function.update (nextIn d) h (some n.flushNext) := by
  funext a
  by_cases ha : a = h
  · subst ha
    simp [nextIn]
  · simp [nextIn, AList.lookup_insert_ne ha, ha]

theorem prevIn_insert (d : AList fun _ : Hash => CachedNode) (h : Hash) (n : CachedNode) :
    prevIn (d.insert h n) = Function.update (prevIn d) h (some n.flushPrev) := by
  funext a
  by_cases ha : a = h
  · subst ha
    simp [prevIn]
  · simp [prevIn, AList.lookup_insert_ne ha, ha]

theorem nextIn_erase (d : AList fun _ : Hash => CachedNode) (h : Hash) :
    nextIn (d.erase h) = Function.update (nextIn d) h none := by
  funext a
  by_cases ha : a = h
  · subst ha
    simp [nextIn]
  · simp [nextIn, AList.lookup_erase_ne ha, ha]

theorem prevIn_erase (d : AList fun _ : Hash => CachedNode) (h : Hash) :
    prevIn (d.erase h) = Function.update (prevIn d) h none := by
  funext a
  by_cases ha : a = h
  · subst ha
    simp [prevIn]
  · simp [prevIn, AList.lookup_erase_ne ha, ha]

theorem mem_insert_of_lookup (hn : d.lookup h = some n) {n' : CachedNode} {a : Hash} :
    a ∈ d.insert h n' ↔ a ∈ d := by
  rw [AList.mem_insert]
  constructor
  · rintro (rfl | ha)
    · exact AList.lookup_isSome.mp (by simp [hn])
    · exact ha
  · exact Or.inr

/-- Rewriting a cached entry without touching its pointers keeps them. -/
theorem nextIn_insert_of_eq (hn : d.lookup h = some n) (n' : CachedNode)
    (he : n'.flushNext = n.flushNext) : nextIn (d.insert h n') = nextIn d := by
  rw [nextIn_insert, he]
  exact Function.update_eq_self_iff.mpr (by simp [nextIn, hn])

theorem prevIn_insert_of_eq (hn : d.lookup h = some n) (n' : CachedNode)
    (he : n'.flushPrev = n.flushPrev) : prevIn (d.insert h n') = prevIn d := by
  rw [prevIn_insert, he]
  exact Function.update_eq_self_iff.mpr (by simp [prevIn, hn])

end Pointers

/-! ### Steps that keep the flush-list -/

section Keeps

variable {db db' db'' : Database} {l pending : List Hash} {rank : Hash → Nat}

theorem ChildsSub.refl (db : Database) : ChildsSub db db := fun _ n h => ⟨n, h, fun _ hc => hc⟩

theorem ChildsSub.trans (h₁ : ChildsSub db db') (h₂ : ChildsSub db' db'') : ChildsSub db db'' := by
  intro h n'' hn''
  obtain ⟨n', hn', hs'⟩ := h₂ h n'' hn''
  obtain ⟨n, hn, hs⟩ := h₁ h n' hn'
  exact ⟨n, hn, List.Subset.trans hs' hs⟩

theorem Ranked.mono (hr : Ranked rank db) (hs : ChildsSub db db') : Ranked rank db' := by
  intro h n' hn' c hc
  obtain ⟨n, hn, hsub⟩ := hs h n' hn'
  exact hr h n hn c (hsub hc)

theorem SameLinks.of_eq (hd : db'.dirties = db.dirties) (ho : db'.oldest = db.oldest)
    (hn : db'.newest = db.newest) : SameLinks db db' :=
  ⟨fun _ => by rw [hd], by rw [hd], by rw [hd], ho, hn⟩

theorem SameLinks.trans (h₁ : SameLinks db db') (h₂ : SameLinks db' db'') : SameLinks db db'' :=
  ⟨fun h => (h₂.mem_iff h).trans (h₁.mem_iff h), h₂.next_eq.trans h₁.next_eq,
    h₂.prev_eq.trans h₁.prev_eq, h₂.oldest_eq.trans h₁.oldest_eq, h₂.newest_eq.trans h₁.newest_eq⟩

/-- A step that leaves the cached entries and both ends alone: a write of a counter or of the
disk. -/
theorem Keeps.of_eq (hd : db'.dirties = db.dirties) (ho : db'.oldest = db.oldest)
    (hn : db'.newest = db.newest) : Keeps db db' :=
  ⟨SameLinks.of_eq hd ho hn, fun _ n hn' => ⟨n, hd ▸ hn', fun _ hc => hc⟩⟩

theorem Keeps.trans (h₁ : Keeps db db') (h₂ : Keeps db' db'') : Keeps db db'' :=
  ⟨h₁.toSameLinks.trans h₂.toSameLinks, h₁.childs.trans h₂.childs⟩

theorem FlushList.sameLinks (hf : FlushList db l pending) (hk : SameLinks db db') :
    FlushList db' l pending where
  threads := by
    rw [hk.next_eq, hk.prev_eq, hk.oldest_eq, hk.newest_eq]
    exact hf.threads
  mem_iff h := (hk.mem_iff h).trans (hf.mem_iff h)
  pending_not_mem := hf.pending_not_mem
  zero_not_mem_pending := hf.zero_not_mem_pending

/-- Rewriting a cached entry into one with the same pointers keeps the links. -/
theorem sameLinks_insert {h : Hash} {n n' : CachedNode} (hn : db.dirties.lookup h = some n)
    (hnext : n'.flushNext = n.flushNext) (hprev : n'.flushPrev = n.flushPrev) :
    SameLinks db { db with dirties := db.dirties.insert h n' } where
  mem_iff _ := mem_insert_of_lookup hn
  next_eq := nextIn_insert_of_eq hn n' hnext
  prev_eq := prevIn_insert_of_eq hn n' hprev
  oldest_eq := rfl
  newest_eq := rfl

theorem childsSub_insert {h : Hash} {n : CachedNode} (hn : db.dirties.lookup h = some n)
    (n' : CachedNode) (hc : n'.childs ⊆ n.childs) :
    ChildsSub db { db with dirties := db.dirties.insert h n' } := by
  intro a m hm
  by_cases ha : a = h
  · subst ha
    simp only [AList.lookup_insert, Option.some.injEq] at hm
    exact ⟨n, hn, hm ▸ hc⟩
  · rw [AList.lookup_insert_ne ha] at hm
    exact ⟨m, hm, fun _ hx => hx⟩

theorem modifyEntry_eq_ok {h : Hash} {f : CachedNode → CachedNode} {u : Unit} :
    modifyEntry h f db = .ok u db' →
      ∃ n, db.dirties.lookup h = some n ∧ db' = { db with dirties := db.dirties.insert h (f n) } := by
  intro hm
  unfold modifyEntry at hm
  obtain ⟨n, db₁, h₁, h₂⟩ := bind_eq_ok.mp hm
  obtain ⟨hn, rfl⟩ := entry_eq_ok h₁
  rw [modify_apply] at h₂
  cases h₂
  exact ⟨n, hn, rfl⟩

/-- `modifyEntry` with an update that names no more children. -/
theorem modifyEntry_childsSub {h : Hash} {f : CachedNode → CachedNode} {u : Unit}
    (hm : modifyEntry h f db = .ok u db') (hf : ∀ n, (f n).childs ⊆ n.childs) : ChildsSub db db' := by
  obtain ⟨n, hn, rfl⟩ := modifyEntry_eq_ok hm
  exact childsSub_insert hn _ (hf n)

/-- `modifyEntry` with an update that keeps the pointers of the entry. -/
theorem modifyEntry_sameLinks {h : Hash} {f : CachedNode → CachedNode} {u : Unit}
    (hm : modifyEntry h f db = .ok u db')
    (hf : ∀ n, (f n).flushNext = n.flushNext ∧ (f n).flushPrev = n.flushPrev) : SameLinks db db' := by
  obtain ⟨n, hn, rfl⟩ := modifyEntry_eq_ok hm
  exact sameLinks_insert hn (hf n).1 (hf n).2

/-- `modifyEntry` with an update that keeps the pointers of the entry and drops no more than
children. -/
theorem modifyEntry_keeps {h : Hash} {f : CachedNode → CachedNode} {u : Unit}
    (hm : modifyEntry h f db = .ok u db')
    (hf : ∀ n, db.dirties.lookup h = some n → (f n).flushNext = n.flushNext ∧
      (f n).flushPrev = n.flushPrev ∧ (f n).childs ⊆ n.childs) : Keeps db db' := by
  obtain ⟨n, hn, rfl⟩ := modifyEntry_eq_ok hm
  obtain ⟨hnext, hprev, hc⟩ := hf n hn
  exact ⟨sameLinks_insert hn hnext hprev, childsSub_insert hn _ hc⟩

theorem entry_of_lookup {h : Hash} {n : CachedNode} (hn : db.dirties.lookup h = some n) :
    entry h db = .ok n db := by
  simp [entry, hn]

theorem modifyEntry_of_lookup {h : Hash} {n : CachedNode} (f : CachedNode → CachedNode)
    (hn : db.dirties.lookup h = some n) :
    modifyEntry h f db = .ok () { db with dirties := db.dirties.insert h (f n) } := by
  simp only [modifyEntry, bind_of_ok (entry_of_lookup hn), modify_apply]

theorem exists_lookup_of_mem {h : Hash} (hm : h ∈ db.dirties) : ∃ n, db.dirties.lookup h = some n :=
  Option.isSome_iff_exists.mp (AList.lookup_isSome.mpr hm)

theorem modifyEntry_ok {h : Hash} (f : CachedNode → CachedNode) (hm : h ∈ db.dirties) :
    ∃ db', modifyEntry h f db = .ok () db' := by
  obtain ⟨n, hn⟩ := exists_lookup_of_mem hm
  exact ⟨_, modifyEntry_of_lookup f hn⟩

/-- A cached node other than the meta-root and not pending is on the list. -/
theorem FlushList.mem_of_lookup (hf : FlushList db l pending) {hash : Hash} {n : CachedNode}
    (hn : db.dirties.lookup hash = some n) (h0 : hash ≠ 0) (hp : hash ∉ pending) : hash ∈ l := by
  have hmem : hash ∈ db.dirties := AList.lookup_isSome.mp (by rw [hn]; rfl)
  rcases (hf.mem_iff hash).mp hmem with h | h | h
  · exact absurd h h0
  · exact h
  · exact absurd h hp

end Keeps

/-! ### Children of an entry -/

section Childs

variable {n n' : CachedNode} {c : Hash}

/-- An entry with the same node and a children map of fewer keys names fewer children. -/
theorem childs_subset (hnode : n'.node = n.node)
    (hk : (n'.children.map AList.keys).getD [] ⊆ (n.children.map AList.keys).getD []) :
    n'.childs ⊆ n.childs := by
  unfold CachedNode.childs
  rw [hnode]
  intro x hx
  rcases List.mem_append.mp hx with hx | hx
  · exact List.mem_append_left _ (hk hx)
  · exact List.mem_append_right _ hx

/-- An entry with the same node and one more key in its children map names one more child. -/
theorem childs_subset_cons (hnode : n'.node = n.node)
    (hk : (n'.children.map AList.keys).getD [] ⊆ c :: (n.children.map AList.keys).getD []) :
    n'.childs ⊆ c :: n.childs := by
  unfold CachedNode.childs
  rw [hnode, ← List.cons_append]
  intro x hx
  rcases List.mem_append.mp hx with hx | hx
  · exact List.mem_append_left _ (hk hx)
  · exact List.mem_append_right _ hx

/-- Writing a key already in a children map adds no key. -/
theorem keys_insert_subset {m : ChildMap} {v : UInt16} (hc : c ∈ m) : (m.insert c v).keys ⊆ m.keys := by
  rw [AList.keys_insert]
  intro x hx
  rcases List.mem_cons.mp hx with rfl | hx
  · exact AList.mem_keys.mp hc
  · exact List.mem_of_mem_erase hx

end Childs

/-! ### `addParents` -/

section AddParents

variable {d : AList fun _ : Hash => CachedNode} {cs : List Hash} {a : Hash}

/-- `addParents` changes parent counts only. -/
theorem lookup_addParents_map {γ : Type} (g : CachedNode → γ)
    (hg : ∀ n p, g { n with parents := p } = g n) :
    ∀ (cs : List Hash) (d : AList fun _ : Hash => CachedNode) (a : Hash),
      ((addParents d cs).lookup a).map g = (d.lookup a).map g
  | [], _, _ => rfl
  | c :: cs, d, a => by
    cases hc : d.lookup c with
    | none => simpa only [addParents, hc] using lookup_addParents_map g hg cs d a
    | some n =>
      simp only [addParents, hc]
      rw [lookup_addParents_map g hg cs]
      by_cases ha : a = c
      · subst ha
        simp [hc, hg]
      · rw [AList.lookup_insert_ne ha]

theorem nextIn_addParents : nextIn (addParents d cs) = nextIn d :=
  funext fun a => lookup_addParents_map CachedNode.flushNext (fun _ _ => rfl) cs d a

theorem prevIn_addParents : prevIn (addParents d cs) = prevIn d :=
  funext fun a => lookup_addParents_map CachedNode.flushPrev (fun _ _ => rfl) cs d a

theorem mem_addParents : a ∈ addParents d cs ↔ a ∈ d := by
  have h := congrArg Option.isSome (lookup_addParents_map (fun _ => ()) (fun _ _ => rfl) cs d a)
  simp only [Option.isSome_map] at h
  rw [← AList.lookup_isSome, ← AList.lookup_isSome, h]

theorem lookup_addParents_childs {n' : CachedNode} (h : (addParents d cs).lookup a = some n') :
    ∃ n, d.lookup a = some n ∧ n'.childs = n.childs := by
  have hm := lookup_addParents_map CachedNode.childs (fun _ _ => rfl) cs d a
  rw [h] at hm
  cases hd : d.lookup a with
  | none => rw [hd] at hm; cases hm
  | some n =>
    rw [hd] at hm
    exact ⟨n, rfl, Option.some.inj hm⟩

end AddParents

/-! ### `insert` -/

section Insert

variable {db db' : Database} {l : List Hash} {rank : Hash → Nat} {hash : Hash} {blob : Bytes}
  {node : Stored}

/-- The hash children inside a stored node: those of the entry `insert` builds for it, whose
children map is still nil. -/
def Stored.hashChildren : Stored → List Hash
  | .raw _ => []
  | .node x => gatherChildren x

theorem childs_of_children_none {n : CachedNode} (hn : n.children = none) :
    n.childs = n.node.hashChildren := by
  obtain ⟨node, _, _, _, _, _⟩ := n
  subst hn
  cases node <;> rfl

/-- What `insert` does: nothing to a node already cached; otherwise it caches the entry it
builds, after counting a parent in each cached child, and appends it to the flush-list. -/
theorem insert_eq_ok (h : insert hash blob node db = .ok () db') :
    hash ∈ db.dirties ∧ db' = db ∨
    hash ∉ db.dirties ∧ db'.newest = hash ∧ db'.diskdb = db.diskdb ∧
      let entry : CachedNode := ⟨node, blob.length.toUInt16, 0, none, db.newest, 0⟩
      let d₁ := (addParents db.dirties entry.childs).insert hash entry
      (db.oldest = 0 ∧ db'.oldest = hash ∧ db'.dirties = d₁ ∨
       db.oldest ≠ 0 ∧ db'.oldest = db.oldest ∧ ∃ n, d₁.lookup db.newest = some n ∧
         db'.dirties = d₁.insert db.newest { n with flushNext := hash }) := by
  unfold insert at h
  simp only [get_bind_apply, ite_apply_state, set_bind_apply] at h
  by_cases hmem : hash ∈ db.dirties
  · -- already cached: the whole body is skipped
    rw [if_neg (not_not.mpr hmem)] at h
    cases h
    exact .inl ⟨hmem, rfl⟩
  rw [if_pos hmem] at h
  by_cases ho : db.oldest = 0
  · -- the list was empty
    rw [if_pos ho] at h
    simp only [modify_bind_apply, modify_apply] at h
    cases h
    exact .inr ⟨hmem, rfl, rfl, .inl ⟨ho, rfl, rfl⟩⟩
  · -- the node goes behind the newest one
    rw [if_neg ho] at h
    obtain ⟨⟨⟩, db₂, hm, h₂⟩ := bind_eq_ok.mp h
    obtain ⟨n, hn, rfl⟩ := modifyEntry_eq_ok hm
    simp only [modify_bind_apply, modify_apply] at h₂
    cases h₂
    exact .inr ⟨hmem, rfl, rfl, .inr ⟨ho, rfl, n, hn, rfl⟩⟩

/-- `insert` of a node not cached yet appends it to the flush-list. -/
theorem FlushList.of_insert (hf : FlushList db l []) (hmem : hash ∉ db.dirties)
    (h : insert hash blob node db = .ok () db') : FlushList db' (l ++ [hash]) [] := by
  have hk0 : hash ≠ 0 := fun e => hmem (e ▸ (hf.mem_iff 0).2 (.inl rfl))
  have hkl : hash ∉ l := fun hl => hmem ((hf.mem_iff hash).2 (.inr (.inl hl)))
  obtain ⟨hin, -⟩ | ⟨-, hnew, -, hcases⟩ := insert_eq_ok h
  · exact absurd hin hmem
  -- the entry `insert` builds, and the cache with it
  set entry : CachedNode := ⟨node, blob.length.toUInt16, 0, none, db.newest, 0⟩ with hentry
  set d₁ := (addParents db.dirties entry.childs).insert hash entry with hd₁
  have hnext₁ : nextIn d₁ = Function.update (nextIn db.dirties) hash (some 0) := by
    rw [hd₁, nextIn_insert, nextIn_addParents]
  have hprev₁ : prevIn d₁ = Function.update (prevIn db.dirties) hash (some db.newest) := by
    rw [hd₁, prevIn_insert, prevIn_addParents]
  have hmem' : ∀ a, a ∈ d₁ ↔ a = 0 ∨ a ∈ l ++ [hash] ∨ a ∈ ([] : List Hash) := by
    intro a
    rw [hd₁, AList.mem_insert, mem_addParents, hf.mem_iff]
    simp only [List.mem_append, List.mem_singleton, List.not_mem_nil, or_false]
    tauto
  rcases hcases with ⟨ho, ho', hd⟩ | ⟨ho, ho', n, hn, hd⟩
  · -- the list was empty: the node becomes both of its ends
    obtain rfl : l = [] := hf.threads.head_eq_nil_iff.mp ho
    refine ⟨?_, fun a => hd ▸ hmem' a, by simp, by simp⟩
    rw [hd, ← hd₁, ho', hnew]
    exact Threads.singleton hk0 (by simp [hnext₁])
  · -- the node goes behind the newest one
    have hl : l ≠ [] := fun e => ho (hf.threads.head_eq_nil_iff.mpr e)
    refine ⟨?_, fun a => hd ▸ (mem_insert_of_lookup hn).trans (hmem' a), by simp, by simp⟩
    rw [hd, ho', hnew, nextIn_insert, prevIn_insert_of_eq hn { n with flushNext := hash } rfl,
      hnext₁, hprev₁]
    exact hf.threads.push hl hkl hk0

/-- `insert` keeps the cache ranked when the node's hash children are nonzero and below it. -/
theorem Ranked.of_insert (hr : Ranked rank db)
    (hc : ∀ c ∈ node.hashChildren, c ≠ 0 ∧ rank c < rank hash)
    (h : insert hash blob node db = .ok () db') : Ranked rank db' := by
  obtain ⟨-, rfl⟩ | ⟨-, -, -, hcases⟩ := insert_eq_ok h
  · exact hr
  set entry : CachedNode := ⟨node, blob.length.toUInt16, 0, none, db.newest, 0⟩ with hentry
  set d₁ := (addParents db.dirties entry.childs).insert hash entry with hd₁
  -- the cache with the new entry is ranked, and the second write changes a flush pointer only
  have hr₁ : ∀ h n', d₁.lookup h = some n' → ∀ c ∈ n'.childs, c ≠ 0 ∧ (h ≠ 0 → rank c < rank h) := by
    intro a n' hn' c hcm
    by_cases ha : a = hash
    · subst ha
      rw [hd₁, AList.lookup_insert, Option.some.injEq] at hn'
      subst hn'
      rw [childs_of_children_none rfl] at hcm
      exact ⟨(hc c hcm).1, fun _ => (hc c hcm).2⟩
    · rw [hd₁, AList.lookup_insert_ne ha] at hn'
      obtain ⟨n, hn, hcs⟩ := lookup_addParents_childs hn'
      exact hr a n hn c (hcs ▸ hcm)
  rcases hcases with ⟨-, -, hd⟩ | ⟨-, -, n, hn, hd⟩
  · intro a n' hn'
    rw [hd] at hn'
    exact hr₁ a n' hn'
  · intro a n' hn' c hcm
    rw [hd] at hn'
    by_cases ha : a = db.newest
    · subst ha
      rw [AList.lookup_insert, Option.some.injEq] at hn'
      subst hn'
      exact hr₁ _ n hn c hcm
    · rw [AList.lookup_insert_ne ha] at hn'
      exact hr₁ a n' hn' c hcm

end Insert

/-! ### `reference` and the first step of `dereference` -/

section Reference

variable {db db' db'' : Database} {rank : Hash → Nat} {child parent c p : Hash}

/-- A step that keeps the flush-list and may add the child `c` to the children of `p`: the
effect of `reference`. -/
structure AddsChild (c p : Hash) (db db' : Database) : Prop extends SameLinks db db' where
  childs : ∀ h n', db'.dirties.lookup h = some n' →
    ∃ n, db.dirties.lookup h = some n ∧ n'.childs ⊆ if h = p then c :: n.childs else n.childs

theorem Keeps.addsChild (hk : Keeps db db') : AddsChild c p db db' := by
  refine ⟨hk.toSameLinks, fun h n' hn' => ?_⟩
  obtain ⟨n, hn, hsub⟩ := hk.childs h n' hn'
  refine ⟨n, hn, ?_⟩
  split
  · exact List.Subset.trans hsub (List.subset_cons_self c n.childs)
  · exact hsub

theorem AddsChild.trans (h₁ : AddsChild c p db db') (h₂ : AddsChild c p db' db'') :
    AddsChild c p db db'' := by
  refine ⟨h₁.toSameLinks.trans h₂.toSameLinks, fun h n'' hn'' => ?_⟩
  obtain ⟨n', hn', hs'⟩ := h₂.childs h n'' hn''
  obtain ⟨n, hn, hs⟩ := h₁.childs h n' hn'
  refine ⟨n, hn, ?_⟩
  split
  · rename_i hp
    rw [if_pos hp] at hs hs'
    intro x hx
    rcases List.mem_cons.mp (hs' hx) with rfl | hx'
    · exact List.mem_cons_self ..
    · exact hs hx'
  · rename_i hp
    rw [if_neg hp] at hs hs'
    exact List.Subset.trans hs' hs

/-- A ranked cache stays ranked when a child of lower rank is added under a node other than the
meta-root, or under the meta-root. -/
theorem Ranked.addsChild (hr : Ranked rank db) (ha : AddsChild c p db db') (hc : c ≠ 0)
    (hrank : p ≠ 0 → rank c < rank p) : Ranked rank db' := by
  intro h n' hn' x hx
  obtain ⟨n, hn, hsub⟩ := ha.childs h n' hn'
  split at hsub
  · rename_i hp
    subst hp
    rcases List.mem_cons.mp (hsub hx) with rfl | hx'
    · exact ⟨hc, hrank⟩
    · exact hr h n hn x hx'
  · exact hr h n hn x (hsub hx)

theorem keys_getD_empty (o : Option ChildMap) : (o.getD ∅).keys = (o.map AList.keys).getD [] := by
  cases o <;> rfl

/-- The end of `reference`: `child` gains a parent, and `parent`'s map counts it. -/
theorem link_addsChild (h : link child parent db = .ok () db') : AddsChild child parent db db' := by
  unfold link at h
  obtain ⟨⟨⟩, db₁, hm₁, h₁⟩ := bind_eq_ok.mp h
  have hk₁ : Keeps db db₁ := modifyEntry_keeps hm₁ fun _ _ => ⟨rfl, rfl, List.Subset.refl _⟩
  obtain ⟨q, db₂, he, h₂⟩ := bind_eq_ok.mp h₁
  obtain ⟨-, hdb⟩ := entry_eq_ok he
  subst db₂
  obtain ⟨⟨⟩, db₃, hm₂, h₃⟩ := bind_eq_ok.mp h₂
  obtain ⟨n, hn, rfl⟩ := modifyEntry_eq_ok hm₂
  -- the parent's map gains `child`, and nothing else changes
  set n' : CachedNode := { n with children := some ((n.children.getD ∅).insert child
    (((q.children.bind fun m => m.lookup child).getD 0) + 1)) } with hn'
  have ha : AddsChild child parent db₁ { db₁ with dirties := db₁.dirties.insert parent n' } := by
    refine ⟨sameLinks_insert hn rfl rfl, fun h m hm => ?_⟩
    by_cases hp : h = parent
    · subst hp
      simp only [AList.lookup_insert, Option.some.injEq] at hm
      refine ⟨n, hn, ?_⟩
      rw [if_pos rfl, ← hm, hn']
      refine childs_subset_cons rfl ?_
      simp only [Option.map_some, Option.getD_some, AList.keys_insert, keys_getD_empty]
      exact List.cons_subset_cons _ (List.erase_subset)
    · rw [AList.lookup_insert_ne hp] at hm
      refine ⟨m, hm, ?_⟩
      rw [if_neg hp]
      exact List.Subset.refl _
  have hk₃ : Keeps { db₁ with dirties := db₁.dirties.insert parent n' } db' := by
    split at h₃
    · rw [modify_apply] at h₃
      cases h₃
      exact Keeps.of_eq rfl rfl rfl
    · cases h₃
      exact Keeps.of_eq rfl rfl rfl
  exact hk₁.addsChild.trans (ha.trans hk₃.addsChild)

/-- `reference` keeps the flush-list, and adds `child` under `parent` at most. -/
theorem reference_addsChild (h : reference child parent db = .ok () db') :
    AddsChild child parent db db' := by
  simp only [reference, get_bind_apply, ite_apply_state] at h
  split_ifs at h with hc
  · obtain ⟨q, db₁, he, h₁⟩ := bind_eq_ok.mp h
    obtain ⟨-, rfl⟩ := entry_eq_ok he
    cases hch : q.children with
    | none =>
      -- the parent's first child: its map is made first
      simp only [hch] at h₁
      obtain ⟨⟨⟩, db₂, hm, h₂⟩ := bind_eq_ok.mp h₁
      have hk₂ : Keeps _ db₂ := modifyEntry_keeps hm fun n _ => ⟨rfl, rfl, childs_subset rfl
        (by simp)⟩
      rw [modify_bind_apply] at h₂
      have hk₃ : Keeps db₂
          { db₂ with childrenSize := db₂.childrenSize + cachedNodeChildrenSize } :=
        Keeps.of_eq rfl rfl rfl
      exact hk₂.addsChild.trans (hk₃.addsChild.trans (link_addsChild h₂))
    | some m =>
      simp only [hch, ite_apply_state] at h₁
      split_ifs at h₁
      · cases h₁
        exact (Keeps.of_eq rfl rfl rfl).addsChild
      · exact link_addsChild h₁
  · cases h
    exact (Keeps.of_eq rfl rfl rfl).addsChild

/-- The first step of `dereference`: the parent's count of the child goes down, and the child
leaves the map at zero. -/
theorem unlinkChild_keeps (h : unlinkChild child parent db = .ok () db') : Keeps db db' := by
  unfold unlinkChild at h
  obtain ⟨q, db₁, he, h₁⟩ := bind_eq_ok.mp h
  obtain ⟨hq, rfl⟩ := entry_eq_ok he
  cases hcount : q.children.bind fun m => m.lookup child with
  | some count =>
    simp only [hcount, ite_apply_state] at h₁
    split_ifs at h₁ with hpos hz
    · obtain ⟨⟨⟩, db₂, hm, h₂⟩ := bind_eq_ok.mp h₁
      rw [modify_apply] at h₂
      cases h₂
      refine (modifyEntry_keeps hm fun n _ => ⟨rfl, rfl, childs_subset rfl ?_⟩).trans
        (Keeps.of_eq rfl rfl rfl)
      cases n.children with
      | none => exact List.Subset.refl _
      | some m => simpa only [Option.map_some, Option.getD_some, AList.keys_erase] using
          List.erase_subset
    · -- the count stays positive: the key is written again
      refine modifyEntry_keeps h₁ fun n hn => ⟨rfl, rfl, childs_subset rfl ?_⟩
      obtain rfl : n = q := Option.some.inj (hn.symm.trans hq)
      obtain ⟨m, hm, hl⟩ := Option.bind_eq_some_iff.mp hcount
      rw [hm]
      simpa only [Option.map_some, Option.getD_some] using
        keys_insert_subset (AList.lookup_isSome.mp (by simp [hl]))
    · cases h₁
      exact Keeps.of_eq rfl rfl rfl
  | none =>
    simp only [hcount] at h₁
    cases h₁
    exact Keeps.of_eq rfl rfl rfl

theorem unlinkChild_ok (child : Hash) (hp : parent ∈ db.dirties) :
    ∃ db', unlinkChild child parent db = .ok () db' := by
  obtain ⟨p, hpn⟩ := exists_lookup_of_mem hp
  unfold unlinkChild
  rw [bind_of_ok (entry_of_lookup hpn)]
  -- the parent is cached, and stays so, for both writes to it
  cases p.children.bind fun m => m.lookup child with
  | none => exact ⟨db, rfl⟩
  | some count =>
    dsimp only
    rw [ite_apply_state]
    split_ifs with hpos hzero
    · obtain ⟨db₁, h₁⟩ := modifyEntry_ok (fun n => { n with children := n.children.map (·.erase child) }) hp
      rw [bind_of_ok h₁, modify_apply]
      exact ⟨_, rfl⟩
    · exact modifyEntry_ok _ hp
    · exact ⟨db, rfl⟩

end Reference

/-! ### Taking a node off the flush-list -/

section Unlink

variable {db db' : Database} {l₁ l₂ pending : List Hash} {hash : Hash} {node : CachedNode}

/-- A step that keeps the keys and threads the list without `hash`: `hash` joins the pending
nodes. -/
theorem FlushList.unlinked (hf : FlushList db (l₁ ++ hash :: l₂) pending)
    (hkeys : ∀ a, a ∈ db'.dirties ↔ a ∈ db.dirties)
    (ht : Threads 0 (nextIn db'.dirties) (prevIn db'.dirties) db'.oldest db'.newest (l₁ ++ l₂)) :
    FlushList db' (l₁ ++ l₂) (hash :: pending) where
  threads := ht
  mem_iff a := by
    rw [hkeys, hf.mem_iff]
    simp only [List.mem_append, List.mem_cons]
    tauto
  pending_not_mem p hp := by
    rcases List.mem_cons.mp hp with rfl | hp
    · exact hf.threads.not_mem_sides
    · intro hm
      refine hf.pending_not_mem p hp ?_
      rcases List.mem_append.mp hm with hm | hm
      · exact List.mem_append_left _ hm
      · exact List.mem_append_right _ (List.mem_cons_of_mem _ hm)
  zero_not_mem_pending := by
    rw [List.mem_cons, not_or]
    exact ⟨fun e => hf.threads.nil_not_mem (e ▸ by simp), hf.zero_not_mem_pending⟩

theorem FlushList.flushNext_eq (hf : FlushList db (l₁ ++ hash :: l₂) pending)
    (hn : db.dirties.lookup hash = some node) : node.flushNext = l₂.headD 0 := by
  have hn' := hf.threads.next_eq
  simp only [nextIn, hn, Option.map_some, Option.some.injEq] at hn'
  exact hn'

theorem FlushList.flushPrev_eq (hf : FlushList db (l₁ ++ hash :: l₂) pending)
    (hn : db.dirties.lookup hash = some node) (h₁ : l₁ ≠ []) : node.flushPrev = l₁.getLast h₁ := by
  have hp := hf.threads.prev_eq h₁
  simp only [prevIn, hn, Option.map_some, Option.some.injEq] at hp
  exact hp

/-- `unlink` of a node of the flush-list, in each of the three cases of its `switch`. -/
theorem FlushList.of_unlink (hf : FlushList db (l₁ ++ hash :: l₂) pending)
    (hn : db.dirties.lookup hash = some node) (h : unlink hash node db = .ok () db') :
    FlushList db' (l₁ ++ l₂) (hash :: pending) ∧ ChildsSub db db' := by
  have ht := hf.threads
  have hnext := hf.flushNext_eq hn
  unfold Memory.unlink at h
  simp only [get_bind_apply, ite_apply_state] at h
  split_ifs at h with ho hw
  · -- the oldest node: nothing comes before it
    obtain rfl : l₁ = [] := ht.eq_head_iff.mp ho
    rw [set_bind_apply] at h
    obtain ⟨n, hn', rfl⟩ := modifyEntry_eq_ok h
    refine ⟨hf.unlinked (fun _ => mem_insert_of_lookup hn') ?_, childsSub_insert hn' _
      (List.Subset.refl _)⟩
    dsimp only at hn' ⊢
    rw [nextIn_insert_of_eq hn' { n with flushPrev := 0 } rfl, prevIn_insert, hnext]
    exact ht.unlink_head (some 0)
  · -- the newest node, with some before it
    have h₁ : l₁ ≠ [] := fun e => ho (ht.eq_head_iff.mpr e)
    obtain rfl : l₂ = [] := ht.eq_tail_iff.mp hw
    have hprev := hf.flushPrev_eq hn h₁
    rw [set_bind_apply] at h
    obtain ⟨n, hn', rfl⟩ := modifyEntry_eq_ok h
    refine ⟨hf.unlinked (fun _ => mem_insert_of_lookup hn') ?_, childsSub_insert hn' _
      (List.Subset.refl _)⟩
    dsimp only at hn' ⊢
    rw [nextIn_insert, prevIn_insert_of_eq hn' { n with flushNext := 0 } rfl, hprev,
      List.append_nil]
    rw [← hw] at ht
    exact ht.unlink_last h₁
  · -- a node in the middle: its neighbours are linked to each other
    have h₁ : l₁ ≠ [] := fun e => ho (ht.eq_head_iff.mpr e)
    have h₂ : l₂ ≠ [] := fun e => hw (ht.eq_tail_iff.mpr e)
    have hprev := hf.flushPrev_eq hn h₁
    have hnext' : node.flushNext = l₂.head h₂ := by
      obtain ⟨b, l, rfl⟩ := List.exists_cons_of_ne_nil h₂
      exact hnext
    obtain ⟨⟨⟩, db₁, hm₁, hm₂⟩ := bind_eq_ok.mp h
    have hc := (modifyEntry_childsSub hm₁ fun _ => List.Subset.refl _).trans
      (modifyEntry_childsSub hm₂ fun _ => List.Subset.refl _)
    obtain ⟨n₁, hn₁, rfl⟩ := modifyEntry_eq_ok hm₁
    obtain ⟨n₂, hn₂, rfl⟩ := modifyEntry_eq_ok hm₂
    have hn₂' : (db.dirties.insert node.flushPrev { n₁ with flushNext := node.flushNext }).lookup
        node.flushNext = some n₂ := hn₂
    refine ⟨hf.unlinked (fun _ => (mem_insert_of_lookup hn₂).trans (mem_insert_of_lookup hn₁)) ?_,
      hc⟩
    dsimp only
    rw [nextIn_insert_of_eq hn₂' { n₂ with flushPrev := node.flushPrev } rfl, prevIn_insert,
      nextIn_insert, prevIn_insert_of_eq hn₁ { n₁ with flushNext := node.flushNext } rfl, hprev,
      hnext']
    exact ht.unlink_mid h₁ h₂

/-- The next node of a listed node is cached: the one after it, or the meta-root. -/
theorem FlushList.flushNext_mem (hf : FlushList db (l₁ ++ hash :: l₂) pending)
    (hn : db.dirties.lookup hash = some node) : node.flushNext ∈ db.dirties := by
  rw [hf.flushNext_eq hn, hf.mem_iff]
  cases l₂ with
  | nil => exact .inl rfl
  | cons b l₂ =>
    exact .inr (.inl (List.mem_append_right l₁ (List.mem_cons_of_mem hash List.mem_cons_self)))

theorem FlushList.flushPrev_mem (hf : FlushList db (l₁ ++ hash :: l₂) pending)
    (hn : db.dirties.lookup hash = some node) (h₁ : l₁ ≠ []) : node.flushPrev ∈ db.dirties := by
  rw [hf.flushPrev_eq hn h₁, hf.mem_iff]
  exact .inr (.inl (List.mem_append_left _ (List.getLast_mem h₁)))

/-- `unlink` of a listed node finds both of the neighbours it writes to. -/
theorem unlink_ok (hf : FlushList db (l₁ ++ hash :: l₂) pending)
    (hn : db.dirties.lookup hash = some node) : ∃ db', unlink hash node db = .ok () db' := by
  have ht := hf.threads
  unfold Memory.unlink
  simp only [get_bind_apply, ite_apply_state]
  split_ifs with ho hw
  · rw [set_bind_apply]
    exact modifyEntry_ok _ (hf.flushNext_mem hn)
  · have h₁ : l₁ ≠ [] := fun e => ho (ht.eq_head_iff.mpr e)
    rw [set_bind_apply]
    exact modifyEntry_ok _ (hf.flushPrev_mem hn h₁)
  · have h₁ : l₁ ≠ [] := fun e => ho (ht.eq_head_iff.mpr e)
    obtain ⟨db₁, hm⟩ := modifyEntry_ok (fun n => { n with flushNext := node.flushNext })
      (hf.flushPrev_mem hn h₁)
    rw [bind_of_ok hm]
    obtain ⟨n, hn', rfl⟩ := modifyEntry_eq_ok hm
    exact modifyEntry_ok _ ((mem_insert_of_lookup hn').mpr (hf.flushNext_mem hn))

end Unlink

/-! ### `Dereference` -/

section Dereference

variable {db db' : Database} {l pending : List Hash} {rank : Hash → Nat} {fuel : Nat}
  {child parent : Hash}

/-- Erasing a pending node from the cache, with the ends of the list left alone. -/
theorem FlushList.erase_pending (hf : FlushList db l (child :: pending)) (hcp : child ∉ pending)
    (hd : db'.dirties = db.dirties.erase child) (ho : db'.oldest = db.oldest)
    (hw : db'.newest = db.newest) : FlushList db' l pending ∧ ChildsSub db db' := by
  have hcl : child ∉ l := hf.pending_not_mem child List.mem_cons_self
  have hc0 : child ≠ 0 := fun e => hf.zero_not_mem_pending (e ▸ List.mem_cons_self)
  refine ⟨⟨?_, fun a => ?_, fun p hp => hf.pending_not_mem p (List.mem_cons_of_mem _ hp),
    fun h0 => hf.zero_not_mem_pending (List.mem_cons_of_mem _ h0)⟩, fun a n' hn' => ?_⟩
  · -- the node is off the list, so the list keeps its pointers
    have hne : ∀ a ∈ l, a ≠ child := fun a ha e => hcl (e ▸ ha)
    rw [hd, ho, hw]
    refine hf.threads.congr (fun a ha => ?_) fun a ha => ?_
    · rw [nextIn_erase, Function.update_of_ne (hne a ha)]
    · rw [prevIn_erase, Function.update_of_ne (hne a (List.mem_of_mem_tail ha))]
  · rw [hd, AList.mem_erase, hf.mem_iff]
    simp only [List.mem_cons]
    constructor
    · rintro ⟨hne, h0 | hl | rfl | hp⟩
      · exact .inl h0
      · exact .inr (.inl hl)
      · exact absurd rfl hne
      · exact .inr (.inr hp)
    · rintro (rfl | hl | hp)
      · exact ⟨fun e => hc0 e.symm, .inl rfl⟩
      · exact ⟨fun e => hcl (e ▸ hl), .inr (.inl hl)⟩
      · exact ⟨fun e => hcp (e ▸ hp), .inr (.inr (.inr hp))⟩
  · rw [hd] at hn'
    have hne : a ≠ child := by
      rintro rfl
      simp at hn'
    rw [AList.lookup_erase_ne hne] at hn'
    exact ⟨n', hn', List.Subset.refl _⟩

/-- `deleteEntry` of a pending node: it leaves the cache. -/
theorem FlushList.of_deleteEntry {node : CachedNode} (hf : FlushList db l (child :: pending))
    (hcp : child ∉ pending) (h : deleteEntry child node db = .ok () db') :
    FlushList db' l pending ∧ ChildsSub db db' := by
  unfold deleteEntry at h
  rw [modify_apply] at h
  cases h
  exact hf.erase_pending hcp rfl rfl rfl

/-- A child of the node a cascade has made pending is below every pending node. -/
theorem rank_lt_cons {c : Hash} (hlt : rank c < rank child)
    (hrank : ∀ p ∈ pending, rank child < rank p) : ∀ p ∈ child :: pending, rank c < rank p := by
  intro p hp
  rcases List.mem_cons.mp hp with rfl | hp
  · exact hlt
  · exact hlt.trans (hrank p hp)

/-- The cascade of `dereference` from a child other than the meta-root and below every pending
node, with a cached parent: given fuel for one level per listed node, it succeeds, keeps the cache
ranked, and leaves a flush-list that is a sublist of the one before. -/
theorem dereference_spec (hr : Ranked rank db) (hf : FlushList db l pending) (hc : child ≠ 0)
    (hrank : ∀ p ∈ pending, rank child < rank p) (hp : parent ∈ db.dirties)
    (hfuel : l.length < fuel) : ∃ db', dereference fuel child parent db = .ok () db' ∧
      Ranked rank db' ∧ ∃ l', List.Sublist l' l ∧ FlushList db' l' pending := by
  induction fuel generalizing db child parent l pending with
  | zero => exact absurd hfuel (Nat.not_lt_zero _)
  | succ fuel ih =>
    obtain ⟨db₁, h₁⟩ := unlinkChild_ok child hp
    have hk₁ := unlinkChild_keeps h₁
    rw [dereference, bind_of_ok h₁, get_bind_apply, ite_apply_state]
    split_ifs with hmem
    swap
    · exact ⟨db₁, rfl, hr.mono hk₁.childs, l, List.Sublist.refl l, hf.sameLinks hk₁.toSameLinks⟩
    -- the rest of the call, once the child has lost a parent or has none to lose
    suffices hrest : ∀ db₂, Keeps db₁ db₂ → ∃ db', (do
        let node ← entry child
        if node.parents = 0 then
          unlink child node
          node.childs.forM fun hash => dereference fuel hash child
          deleteEntry child node : DbM Unit) db₂ = .ok () db' ∧
        Ranked rank db' ∧ ∃ l', List.Sublist l' l ∧ FlushList db' l' pending by
      obtain ⟨n, hn⟩ := exists_lookup_of_mem hmem
      rw [bind_of_ok (entry_of_lookup hn)]
      dsimp only
      rw [ite_apply_state]
      split_ifs
      · obtain ⟨db₂, hm⟩ := modifyEntry_ok (fun n => { n with parents := n.parents - 1 }) hmem
        rw [bind_of_ok hm]
        exact hrest db₂ (modifyEntry_keeps hm fun _ _ => ⟨rfl, rfl, List.Subset.refl _⟩)
      · exact hrest db₁ (Keeps.of_eq rfl rfl rfl)
    intro db₂ hk₂
    have hk := hk₁.trans hk₂
    have hr₂ := hr.mono hk.childs
    have hf₂ := hf.sameLinks hk.toSameLinks
    obtain ⟨node, hn⟩ := exists_lookup_of_mem ((hk₂.mem_iff child).mpr hmem)
    rw [bind_of_ok (entry_of_lookup hn), ite_apply_state]
    split_ifs with hz
    swap
    · exact ⟨db₂, rfl, hr₂, l, List.Sublist.refl l, hf₂⟩
    -- the child is cached, and neither the meta-root nor pending: it is on the list
    have hcp : child ∉ pending := fun hm => lt_irrefl _ (hrank child hm)
    obtain ⟨l₁, l₂, rfl⟩ := List.append_of_mem (hf₂.mem_of_lookup hn hc hcp)
    obtain ⟨db₃, hu⟩ := unlink_ok hf₂ hn
    obtain ⟨hf₃, hc₃⟩ := hf₂.of_unlink hn hu
    rw [bind_of_ok hu]
    have hlen : (l₁ ++ l₂).length < fuel := by
      simp only [List.length_append, List.length_cons] at hfuel ⊢
      omega
    -- the loop over the node's children, each of which finds the node cached and pending
    obtain ⟨db₄, hloop, hr₄, l₄, hsub₄, hf₄⟩ := forM_ok_of_invariant
      (fun s => Ranked rank s ∧ ∃ l', List.Sublist l' (l₁ ++ l₂) ∧ FlushList s l' (child :: pending))
      (fun c hcm s hQ => by
        obtain ⟨hrs, l', hsub, hfs⟩ := hQ
        have hcr := hr₂ child node hn c hcm
        obtain ⟨s', hs', hrs', l'', hsub', hfs'⟩ := ih hrs hfs hcr.1 (rank_lt_cons (hcr.2 hc) hrank)
          ((hfs.mem_iff child).mpr (.inr (.inr List.mem_cons_self)))
          (lt_of_le_of_lt hsub.length_le hlen)
        exact ⟨s', hs', hrs', l'', hsub'.trans hsub, hfs'⟩)
      ⟨hr₂.mono hc₃, _, List.Sublist.refl _, hf₃⟩
    rw [bind_of_ok hloop]
    -- and the node is deleted
    have hd : deleteEntry child node db₄ = .ok () _ := rfl
    obtain ⟨hf', hc'⟩ := hf₄.of_deleteEntry hcp hd
    exact ⟨_, hd, hr₄.mono hc', l₄, hsub₄.trans ((List.sublist_cons_self child l₂).append_left l₁),
      hf'⟩

end Dereference

end Ccmchain.Trie.Memory
