import Ccmchain.Fetcher.Queue

/-!
# The announce records

`notify` counts in `announces` the announcements each peer made, refuses one that would take
its count past `hashLimit`, and keeps the record under its hash in `announced`. The fetch timer
moves a record to `fetching`, the header filter on to `completing` or `fetched`, the completion
timer from `fetched` to `completing`; `forgetHash` drops every record of a hash and takes each
one off its peer's count, clamping the count at zero. The moves add nothing to the counts, so a
count is not the number of records its peer holds. It never exceeds it, though
(`announce_count_le_records`): a peer is refused only when it holds `hashLimit` records or more.

Along every run the lists the two timers index are never empty, and every record in `fetched`
or `completing` carries the header of the hash it is kept under
(`announce_records_carry_headers`), so `announces[0]`, `rand.Intn(len(announces))` and the body
filter's `announce.header` never fail.
-/

namespace Ccmchain.Fetcher

set_option linter.dupNamespace false

open Ccmchain.Common

variable {P Tx : Type} [DecidableEq P]

/-! ### The records carry their headers -/

/-- The records the timers and the body filter read: the lists of `announced` and `fetched` are
not empty, and the records of `fetched` and `completing` carry the header of their hash. -/
structure Records (announced : AList (fun _ : Hash => List (Announce P)))
    (fetched : AList (fun _ : Hash => List (Announce P)))
    (completing : AList (fun _ : Hash => Announce P)) : Prop where
  announced_ne_nil : ∀ hash l, announced.lookup hash = some l → l ≠ []
  fetched_ne_nil : ∀ hash l, fetched.lookup hash = some l → l ≠ []
  fetched_header : ∀ hash l, fetched.lookup hash = some l → ∀ a ∈ l,
    a.header.map (·.hash) = some hash
  completing_header : ∀ hash a, completing.lookup hash = some a →
    a.header.map (·.hash) = some hash

/-- The records of the fetcher's maps. -/
def Fetcher.RecordsOk (f : Fetcher P Tx) : Prop := Records f.announced f.fetched f.completing

omit [DecidableEq P] in
theorem recordsOk_new : (New : Fetcher P Tx).RecordsOk where
  announced_ne_nil _ _ h := by simp [New] at h
  fetched_ne_nil _ _ h := by simp [New] at h
  fetched_header _ _ h := by simp [New] at h
  completing_header _ _ h := by simp [New] at h

namespace Fetcher

variable {f : Fetcher P Tx}

theorem RecordsOk.forgetHash (hr : f.RecordsOk) (hash : Hash) : (f.forgetHash hash).RecordsOk where
  announced_ne_nil k l h := hr.announced_ne_nil k l (lookup_of_lookup_erase h)
  fetched_ne_nil k l h := hr.fetched_ne_nil k l (lookup_of_lookup_erase h)
  fetched_header k l h := hr.fetched_header k l (lookup_of_lookup_erase h)
  completing_header k a h := hr.completing_header k a (lookup_of_lookup_erase h)

omit [DecidableEq P] in
/-- A record moves to `completing` under the hash of its header. -/
theorem RecordsOk.complete (hr : f.RecordsOk) {hash : Hash} {a : Announce P}
    (ha : a.header.map (·.hash) = some hash) :
    { f with completing := f.completing.insert hash a }.RecordsOk where
  announced_ne_nil := hr.announced_ne_nil
  fetched_ne_nil := hr.fetched_ne_nil
  fetched_header := hr.fetched_header
  completing_header k a' h := by
    rcases lookup_insert_eq_some h with ⟨rfl, rfl⟩ | h
    · exact ha
    · exact hr.completing_header k a' h

theorem RecordsOk.notify (hr : f.RecordsOk) (env : Env) (n : Announce P) :
    (f.notify env n).RecordsOk := by
  rcases notify_cases f env n with h | ⟨-, -, -, h⟩ <;> rw [h]
  · exact hr
  · refine ⟨fun k l hl => ?_, hr.fetched_ne_nil, hr.fetched_header, hr.completing_header⟩
    rcases lookup_insert_eq_some hl with ⟨-, rfl⟩ | hl
    · simp
    · exact hr.announced_ne_nil k l hl

theorem RecordsOk.fetchStep (hr : f.RecordsOk) (env : Env) (hash : Hash) :
    (f.fetchStep env hash).RecordsOk := by
  rcases fetchStep_cases f env hash with h | h | ⟨_, h⟩ <;> rw [h]
  · exact hr
  · exact hr.forgetHash hash
  · exact hr.forgetHash hash

theorem RecordsOk.completeStep (hr : f.RecordsOk) (env : Env) (hash : Hash) :
    (f.completeStep env hash).RecordsOk := by
  rcases completeStep_cases f env hash with h | h | ⟨l, a, hl, ha, h⟩ <;> rw [h]
  · exact hr
  · exact hr.forgetHash hash
  · exact (hr.forgetHash hash).complete (hr.fetched_header hash l hl a ha)

/-- The record-with-hash pairs the header loop collects for body completion carry the header of
their hash. -/
def Keyed (incomplete : List (Hash × Announce P)) : Prop :=
  ∀ r ∈ incomplete, r.2.header.map (·.hash) = some r.1

theorem RecordsOk.headerStep (hs : BodyHashes Tx) (env : Env) (peer : P) (time : Int)
    {r : Fetcher P Tx × HeaderSplit P Tx} (hr : r.1.RecordsOk ∧ Keyed r.2.incomplete)
    (header : Header) :
    (headerStep hs env peer time r header).1.RecordsOk ∧
      Keyed (headerStep hs env peer time r header).2.incomplete := by
  obtain ⟨g, split⟩ := r
  obtain ⟨hg, hk⟩ := hr
  rcases headerStep_cases g hs env peer time split header with
    h | h | ⟨a, -, -, h | h⟩ <;> rw [h]
  · exact ⟨hg, hk⟩
  · exact ⟨hg.forgetHash _, hk⟩
  · -- an empty block: the record goes to completion with the header just stored
    exact ⟨RecordsOk.complete (f := { g with fetching := _ }) hg rfl, hk⟩
  · refine ⟨hg, fun x hx => ?_⟩
    rcases List.mem_append.mp hx with hx | hx
    · exact hk x hx
    · rw [List.mem_singleton.mp hx]
      rfl

omit [DecidableEq P] in
theorem RecordsOk.scheduleFetched (hr : f.RecordsOk) {r : Hash × Announce P}
    (hk : r.2.header.map (·.hash) = some r.1) : (f.scheduleFetched r).RecordsOk := by
  rcases scheduleFetched_cases f r with h | ⟨-, h⟩ <;> rw [h]
  · exact hr
  · refine ⟨hr.announced_ne_nil, fun k l hl => ?_, fun k l hl a ha => ?_, hr.completing_header⟩
    · rcases lookup_insert_eq_some hl with ⟨-, rfl⟩ | hl
      · simp
      · exact hr.fetched_ne_nil k l hl
    · rcases lookup_insert_eq_some hl with ⟨rfl, rfl⟩ | hl
      · rcases List.mem_append.mp ha with ha | ha
        · -- a record already fetched under this hash
          cases hold : f.fetched.lookup r.1 with
          | none => rw [hold] at ha; simp at ha
          | some l' =>
            rw [hold, Option.getD_some] at ha
            exact hr.fetched_header _ l' hold a ha
        · rw [List.mem_singleton.mp ha]
          exact hk
      · exact hr.fetched_header k l hl a ha

theorem recordsOnly_recordsOk : RecordsOnly (Fetcher.RecordsOk : Fetcher P Tx → Prop) :=
  ⟨fun _ hash hr => hr.forgetHash hash, fun _ _ _ _ _ hr => hr⟩

theorem RecordsOk.handle (hr : f.RecordsOk) (hs : BodyHashes Tx) (env : Env) (ev : Event P Tx) :
    (f.handle hs env ev).RecordsOk := by
  cases ev with
  | notify peer hash number time => exact hr.notify env _
  | inject peer block => exact recordsOnly_recordsOk.enqueue env.height peer block hr
  | done hash => exact recordsOnly_recordsOk.done hash hr
  | fetchTimer => exact List.foldlRecOn _ _ hr fun g hg hash _ => hg.fetchStep env hash
  | completeTimer => exact List.foldlRecOn _ _ hr fun g hg hash _ => hg.completeStep env hash
  | headerFilter peer headers time =>
    show (f.filterHeaders hs env peer headers time).1.RecordsOk
    rw [filterHeaders_fst]
    dsimp only
    -- the header loop keys every incomplete entry by its header's hash
    have hloop :
        (headers.foldl (Fetcher.headerStep hs env peer time) (f, ⟨[], [], []⟩)).1.RecordsOk ∧
          Keyed (headers.foldl (Fetcher.headerStep hs env peer time)
            (f, ⟨[], [], []⟩)).2.incomplete :=
      List.foldlRecOn (motive := fun r : Fetcher P Tx × HeaderSplit P Tx =>
          r.1.RecordsOk ∧ Keyed r.2.incomplete) _ _ ⟨hr, fun _ h => by cases h⟩
        fun r hr' header _ => RecordsOk.headerStep hs env peer time hr' header
    refine List.foldlRecOn _ _ ?_ fun g hg block _ =>
      recordsOnly_recordsOk.enqueueCompleted env.height block hg
    exact List.foldlRecOn _ _ hloop.1 fun g hg r hmem => hg.scheduleFetched (hloop.2 r hmem)
  | bodyFilter peer transactions uncles time =>
    exact recordsOnly_recordsOk.filterBodies hs env peer transactions uncles time hr

end Fetcher

theorem Reachable.recordsOk {hs : BodyHashes Tx} {f : Fetcher P Tx} (hf : Reachable hs f) :
    f.RecordsOk := by
  induction hf with
  | new => exact recordsOk_new
  | step pre env ev _ _ _ _ ih =>
    exact (Fetcher.recordsOnly_recordsOk.prelude pre ih).handle hs env ev

/-- Along every run of the fetcher loop, every list of `announced` and of `fetched` has a first
element and an element at every index below its length, and every record in `fetched` or
`completing` carries a header whose hash is the key it is kept under. -/
theorem announce_records_carry_headers {hs : BodyHashes Tx} {f : Fetcher P Tx}
    (hf : Reachable hs f) :
    (∀ hash l, f.announced.lookup hash = some l → l ≠ []) ∧
      (∀ hash l, f.fetched.lookup hash = some l →
        l ≠ [] ∧ ∀ a ∈ l, ∃ header, a.header = some header ∧ header.hash = hash) ∧
      (∀ hash a, f.completing.lookup hash = some a →
        ∃ header, a.header = some header ∧ header.hash = hash) := by
  have hr := hf.recordsOk
  refine ⟨hr.announced_ne_nil, fun hash l hl => ⟨hr.fetched_ne_nil hash l hl, fun a ha => ?_⟩,
    fun hash a ha => ?_⟩
  · exact Option.map_eq_some_iff.mp (hr.fetched_header hash l hl a ha)
  · exact Option.map_eq_some_iff.mp (hr.completing_header hash a ha)

theorem announce_records_carry_headers_new :
    Reachable ⟨fun _ => 0, fun _ => 0⟩ (New : Fetcher Nat Nat) ∧
      (∀ hash l, (New : Fetcher Nat Nat).announced.lookup hash = some l → l ≠ []) ∧
      (∀ hash l, (New : Fetcher Nat Nat).fetched.lookup hash = some l →
        l ≠ [] ∧ ∀ a ∈ l, ∃ header, a.header = some header ∧ header.hash = hash) ∧
      (∀ hash a, (New : Fetcher Nat Nat).completing.lookup hash = some a →
        ∃ header, a.header = some header ∧ header.hash = hash) :=
  ⟨.new, @announce_records_carry_headers Nat Nat _ ⟨fun _ => 0, fun _ => 0⟩ New .new⟩

/-! ### The announce counts -/

/-- The records of `peer` in all four maps: its announcements in `announced`, and the fetches
made on its behalf in `fetching`, `fetched` and `completing`. -/
def recordsFrom (announced : AList (fun _ : Hash => List (Announce P)))
    (fetching : AList (fun _ : Hash => Announce P))
    (fetched : AList (fun _ : Hash => List (Announce P)))
    (completing : AList (fun _ : Hash => Announce P)) (peer : P) : Nat :=
  announced.sum (fun _ l => (l.map (·.origin)).count peer) +
    fetching.sum (fun _ a => [a.origin].count peer) +
    fetched.sum (fun _ l => (l.map (·.origin)).count peer) +
    completing.sum (fun _ a => [a.origin].count peer)

/-- The records `peer` holds in `f`. -/
def Fetcher.outstanding (f : Fetcher P Tx) (peer : P) : Nat :=
  recordsFrom f.announced f.fetching f.fetched f.completing peer

section RecordsFrom

variable {announced fetched : AList (fun _ : Hash => List (Announce P))}
  {fetching completing : AList (fun _ : Hash => Announce P)} {hash : Hash}

theorem count_lookup_list (s : AList (fun _ : Hash => List (Announce P))) (hash : Hash)
    (peer : P) :
    ((s.lookup hash).map fun l => (l.map (·.origin)).count peer).getD 0 =
      (((s.lookup hash).getD []).map (·.origin)).count peer := by
  cases s.lookup hash <;> rfl

theorem count_lookup_one (s : AList (fun _ : Hash => Announce P)) (hash : Hash) (peer : P) :
    ((s.lookup hash).map fun a => [a.origin].count peer).getD 0 =
      ((s.lookup hash).map (·.origin)).toList.count peer := by
  cases s.lookup hash <;> rfl

/-- Appending a record to a list of the map adds it to its peer's records. -/
theorem sum_count_append (s : AList (fun _ : Hash => List (Announce P))) (hash : Hash)
    (a : Announce P) (peer : P) :
    (s.insert hash ((s.lookup hash).getD [] ++ [a])).sum
        (fun _ l => (l.map (·.origin)).count peer) =
      s.sum (fun _ l => (l.map (·.origin)).count peer) + [a.origin].count peer := by
  have h := AList.sum_insert_add_lookup (fun _ l => (l.map (·.origin)).count peer) s hash
    ((s.lookup hash).getD [] ++ [a])
  simp only [count_lookup_list, List.map_append, List.map_cons, List.map_nil,
    List.count_append] at h
  omega

/-- Writing a record adds it to its peer's records and takes away the one it replaces. -/
theorem sum_count_insert (s : AList (fun _ : Hash => Announce P)) (hash : Hash) (a : Announce P)
    (peer : P) :
    (s.insert hash a).sum (fun _ a => [a.origin].count peer) +
        ((s.lookup hash).map (·.origin)).toList.count peer =
      s.sum (fun _ a => [a.origin].count peer) + [a.origin].count peer := by
  rw [← count_lookup_one]
  exact AList.sum_insert_add_lookup _ s hash a

theorem recordsFrom_append_announced (a : Announce P) (peer : P) :
    recordsFrom (announced.insert hash ((announced.lookup hash).getD [] ++ [a])) fetching fetched
        completing peer =
      recordsFrom announced fetching fetched completing peer + [a.origin].count peer := by
  simp only [recordsFrom, sum_count_append]
  omega

theorem recordsFrom_append_fetched (a : Announce P) (peer : P) :
    recordsFrom announced fetching (fetched.insert hash ((fetched.lookup hash).getD [] ++ [a]))
        completing peer =
      recordsFrom announced fetching fetched completing peer + [a.origin].count peer := by
  simp only [recordsFrom, sum_count_append]
  omega

theorem recordsFrom_insert_fetching (h : fetching.lookup hash = none) (a : Announce P)
    (peer : P) :
    recordsFrom announced (fetching.insert hash a) fetched completing peer =
      recordsFrom announced fetching fetched completing peer + [a.origin].count peer := by
  have hs := sum_count_insert fetching hash a peer
  rw [h, Option.map_none, Option.toList_none, List.count_nil, Nat.add_zero] at hs
  simp only [recordsFrom, hs]
  omega

theorem recordsFrom_insert_completing (h : completing.lookup hash = none) (a : Announce P)
    (peer : P) :
    recordsFrom announced fetching fetched (completing.insert hash a) peer =
      recordsFrom announced fetching fetched completing peer + [a.origin].count peer := by
  have hs := sum_count_insert completing hash a peer
  rw [h, Option.map_none, Option.toList_none, List.count_nil, Nat.add_zero] at hs
  simp only [recordsFrom, hs]
  omega

/-- Rewriting a fetch in place, as the header filter does, keeps its peer. -/
theorem recordsFrom_replace_fetching {a b : Announce P} (h : fetching.lookup hash = some a)
    (ho : b.origin = a.origin) (peer : P) :
    recordsFrom announced (fetching.insert hash b) fetched completing peer =
      recordsFrom announced fetching fetched completing peer := by
  have hs := sum_count_insert fetching hash b peer
  rw [h, Option.map_some, ho] at hs
  simp only [recordsFrom]
  simp only [Option.toList_some] at hs
  omega

end RecordsFrom

/-- `forgetHash` takes away exactly the records of the hash. -/
theorem Fetcher.outstanding_forgetHash (f : Fetcher P Tx) (hash : Hash) (peer : P) :
    (f.forgetHash hash).outstanding peer + (f.originsOf hash).count peer = f.outstanding peer := by
  simp only [Fetcher.outstanding, recordsFrom, Fetcher.forgetHash_announced,
    Fetcher.forgetHash_fetching, Fetcher.forgetHash_fetched, Fetcher.forgetHash_completing,
    Fetcher.originsOf, List.count_append]
  rw [AList.sum_eq_sum_erase_add _ f.announced hash, AList.sum_eq_sum_erase_add _ f.fetching hash,
    AList.sum_eq_sum_erase_add _ f.fetched hash, AList.sum_eq_sum_erase_add _ f.completing hash,
    count_lookup_list, count_lookup_one, count_lookup_list, count_lookup_one]
  omega

/-! ### Taking a count down -/

theorem getD_dropAnnounce (announces : AList (fun _ : P => Int)) (origin p : P) :
    ((Fetcher.dropAnnounce announces origin).lookup p).getD 0 =
      if p = origin then max 0 ((announces.lookup p).getD 0 - 1)
      else (announces.lookup p).getD 0 := by
  unfold Fetcher.dropAnnounce
  dsimp only
  by_cases hp : p = origin
  · subst hp
    rw [if_pos rfl]
    split_ifs with hc
    · rw [getD_lookup_erase, if_pos rfl]
      omega
    · rw [getD_lookup_insert, if_pos rfl]
      omega
  · rw [if_neg hp]
    split_ifs
    · rw [getD_lookup_erase, if_neg hp]
    · rw [getD_lookup_insert, if_neg hp]

/-- The decrements of `forgetHash` take a non-negative count down by the records of its peer,
stopping at zero. -/
theorem getD_foldl_dropAnnounce (os : List P) {announces : AList (fun _ : P => Int)} {p : P}
    (h : 0 ≤ (announces.lookup p).getD 0) :
    ((os.foldl Fetcher.dropAnnounce announces).lookup p).getD 0 =
      max 0 ((announces.lookup p).getD 0 - os.count p) := by
  induction os generalizing announces with
  | nil => simp only [List.foldl_nil, List.count_nil]; omega
  | cons o os ih =>
    have hd := getD_dropAnnounce announces o p
    rw [List.foldl_cons, ih (by rw [hd]; split_ifs <;> omega), hd, List.count_cons]
    by_cases hp : p = o
    · rw [if_pos hp, if_pos (beq_iff_eq.mpr hp.symm)]
      omega
    · rw [if_neg hp, if_neg fun h => hp (beq_iff_eq.mp h).symm]
      omega

theorem Bounded.dropAnnounce {announces : AList (fun _ : P => Int)} {limit : Int}
    (hb : Bounded announces limit) (origin : P) :
    Bounded (Fetcher.dropAnnounce announces origin) limit := by
  intro p n hn
  unfold Fetcher.dropAnnounce at hn
  dsimp only at hn
  split_ifs at hn with hc
  · exact hb p n (lookup_of_lookup_erase hn)
  · rcases lookup_insert_eq_some hn with ⟨rfl, rfl⟩ | hn
    · -- a count above one drops by one
      cases hl : announces.lookup p with
      | none => simp [hl] at hc
      | some m =>
        have := hb p m hl
        simp only [hl, Option.getD_some] at hc ⊢
        omega
    · exact hb p n hn

theorem Bounded.foldl_dropAnnounce {announces : AList (fun _ : P => Int)} {limit : Int}
    (hb : Bounded announces limit) (os : List P) :
    Bounded (os.foldl Fetcher.dropAnnounce announces) limit :=
  List.foldlRecOn (motive := fun a => Bounded a limit) _ _ hb fun _ ha o _ => ha.dropAnnounce o

/-! ### The counts never exceed the records -/

/-- Every count of `announces` lies in `(0, hashLimit]` and is at most the records its peer
holds. -/
structure Counts (announces : AList (fun _ : P => Int))
    (announced : AList (fun _ : Hash => List (Announce P)))
    (fetching : AList (fun _ : Hash => Announce P))
    (fetched : AList (fun _ : Hash => List (Announce P)))
    (completing : AList (fun _ : Hash => Announce P)) : Prop where
  bounded : Bounded announces hashLimit
  le_records : ∀ peer,
    (announces.lookup peer).getD 0 ≤ recordsFrom announced fetching fetched completing peer

/-- `Counts` over the fields of a fetcher. -/
def Fetcher.CountsOk (f : Fetcher P Tx) : Prop :=
  Counts f.announces f.announced f.fetching f.fetched f.completing

theorem countsOk_new : (New : Fetcher P Tx).CountsOk where
  bounded _ _ h := by simp [New] at h
  le_records _ := by simp [New]

/-- Records added while the counts stay keep the counts below them. -/
theorem Counts.mono {announces : AList (fun _ : P => Int)}
    {announced announced' fetched fetched' : AList (fun _ : Hash => List (Announce P))}
    {fetching fetching' completing completing' : AList (fun _ : Hash => Announce P)}
    (hc : Counts announces announced fetching fetched completing)
    (h : ∀ peer, recordsFrom announced fetching fetched completing peer ≤
      recordsFrom announced' fetching' fetched' completing' peer) :
    Counts announces announced' fetching' fetched' completing' :=
  ⟨hc.bounded, fun peer => (hc.le_records peer).trans (by exact_mod_cast h peer)⟩

namespace Fetcher

variable {f : Fetcher P Tx}

theorem CountsOk.forgetHash (hc : f.CountsOk) (hash : Hash) : (f.forgetHash hash).CountsOk := by
  refine ⟨hc.bounded.foldl_dropAnnounce _, fun p => ?_⟩
  -- the count drops by the records of its peer, unless it stops at zero first
  have hrec := f.outstanding_forgetHash hash p
  have hle : (f.announces.lookup p).getD 0 ≤ f.outstanding p := hc.le_records p
  show (((f.originsOf hash).foldl dropAnnounce f.announces).lookup p).getD 0 ≤
    (f.forgetHash hash).outstanding p
  rw [getD_foldl_dropAnnounce _ (hc.bounded.getD_nonneg p)]
  omega

/-- `notify` counts an announcement only while it keeps the record of it. -/
theorem CountsOk.notify (hc : f.CountsOk) (env : Env) (n : Announce P) :
    (f.notify env n).CountsOk := by
  rcases notify_cases f env n with h | ⟨hlimit, -, -, h⟩ <;> rw [h]
  · exact hc
  · have h0 := hc.bounded.getD_nonneg n.origin
    refine ⟨hc.bounded.insert (by omega) hlimit, fun p => ?_⟩
    dsimp only
    rw [getD_lookup_insert, recordsFrom_append_announced]
    have hle := hc.le_records p
    by_cases hp : p = n.origin
    · subst hp
      rw [if_pos rfl, List.count_singleton_self]
      push_cast
      omega
    · rw [if_neg hp]
      omega

theorem CountsOk.fetchStep (hc : f.CountsOk) (env : Env) (hash : Hash) :
    (f.fetchStep env hash).CountsOk := by
  rcases fetchStep_cases f env hash with h | h | ⟨announce, h⟩ <;> rw [h]
  · exact hc
  · exact hc.forgetHash hash
  · -- the fetch is a new record, and the count stays
    refine (hc.forgetHash hash).mono fun p => ?_
    dsimp only
    rw [recordsFrom_insert_fetching (by simp)]
    omega

theorem CountsOk.completeStep (hc : f.CountsOk) (env : Env) (hash : Hash) :
    (f.completeStep env hash).CountsOk := by
  rcases completeStep_cases f env hash with h | h | ⟨_, announce, -, -, h⟩ <;> rw [h]
  · exact hc
  · exact hc.forgetHash hash
  · refine (hc.forgetHash hash).mono fun p => ?_
    dsimp only
    rw [recordsFrom_insert_completing (by simp)]
    omega

theorem CountsOk.headerStep (hs : BodyHashes Tx) (env : Env) (peer : P) (time : Int)
    {r : Fetcher P Tx × HeaderSplit P Tx} (hc : r.1.CountsOk) (header : Header) :
    (Fetcher.headerStep hs env peer time r header).1.CountsOk := by
  obtain ⟨g, split⟩ := r
  rcases headerStep_cases g hs env peer time split header with
    h | h | ⟨announce, hl, hnc, h | h⟩ <;> rw [h]
  · exact hc
  · exact hc.forgetHash _
  · -- the fetch is rewritten in place and its copy goes to completing
    refine hc.mono fun p => ?_
    dsimp only
    rw [recordsFrom_insert_completing (AList.lookup_eq_none.mpr hnc),
      recordsFrom_replace_fetching (b := { announce with header := some header, time := time }) hl
        rfl]
    omega
  · refine hc.mono fun p => ?_
    dsimp only
    rw [recordsFrom_replace_fetching (b := { announce with header := some header, time := time }) hl
      rfl]

theorem CountsOk.scheduleFetched (hc : f.CountsOk) (r : Hash × Announce P) :
    (f.scheduleFetched r).CountsOk := by
  rcases scheduleFetched_cases f r with h | ⟨-, h⟩ <;> rw [h]
  · exact hc
  · refine hc.mono fun p => ?_
    dsimp only
    rw [recordsFrom_append_fetched]
    omega

theorem recordsOnly_countsOk : RecordsOnly (Fetcher.CountsOk : Fetcher P Tx → Prop) :=
  ⟨fun _ hash hc => hc.forgetHash hash, fun _ _ _ _ _ hc => hc⟩

theorem CountsOk.handle (hc : f.CountsOk) (hs : BodyHashes Tx) (env : Env) (ev : Event P Tx) :
    (f.handle hs env ev).CountsOk := by
  cases ev with
  | notify peer hash number time => exact hc.notify env _
  | inject peer block => exact recordsOnly_countsOk.enqueue env.height peer block hc
  | done hash => exact recordsOnly_countsOk.done hash hc
  | fetchTimer => exact List.foldlRecOn _ _ hc fun g hg hash _ => hg.fetchStep env hash
  | completeTimer => exact List.foldlRecOn _ _ hc fun g hg hash _ => hg.completeStep env hash
  | headerFilter peer headers time =>
    show (f.filterHeaders hs env peer headers time).1.CountsOk
    rw [filterHeaders_fst]
    dsimp only
    have hloop : (headers.foldl (Fetcher.headerStep hs env peer time)
        (f, ⟨[], [], []⟩)).1.CountsOk :=
      List.foldlRecOn (motive := fun r : Fetcher P Tx × HeaderSplit P Tx => r.1.CountsOk) _ _ hc
        fun r hr header _ => CountsOk.headerStep hs env peer time hr header
    refine List.foldlRecOn _ _ ?_ fun g hg block _ =>
      recordsOnly_countsOk.enqueueCompleted env.height block hg
    exact List.foldlRecOn _ _ hloop fun g hg r _ => hg.scheduleFetched r
  | bodyFilter peer transactions uncles time =>
    exact recordsOnly_countsOk.filterBodies hs env peer transactions uncles time hc

end Fetcher

theorem Reachable.countsOk {hs : BodyHashes Tx} {f : Fetcher P Tx} (hf : Reachable hs f) :
    f.CountsOk := by
  induction hf with
  | new => exact countsOk_new
  | step pre env ev _ _ _ _ ih =>
    exact (Fetcher.recordsOnly_countsOk.prelude pre ih).handle hs env ev

/-- Along every run of the fetcher loop, every announce count lies in `(0, hashLimit]` and is
at most the records its peer holds in `announced`, `fetching`, `fetched` and `completing`; a
peer that holds none has no count. So `notify` drops a peer's announcement for its count only
when the peer holds `hashLimit` records or more. -/
theorem announce_count_le_records {hs : BodyHashes Tx} {f : Fetcher P Tx}
    (hf : Reachable hs f) :
    (∀ peer n, f.announces.lookup peer = some n → 0 < n ∧ n ≤ hashLimit) ∧
      (∀ peer, (f.announces.lookup peer).getD 0 ≤ f.outstanding peer) ∧
      (∀ peer, f.outstanding peer = 0 → f.announces.lookup peer = none) := by
  have hc := hf.countsOk
  refine ⟨hc.bounded, hc.le_records, fun peer h0 => ?_⟩
  -- a count that is present is positive, and it is at most zero records
  cases hl : f.announces.lookup peer with
  | none => rfl
  | some n =>
    have hpos := (hc.bounded peer n hl).1
    have hle : (f.announces.lookup peer).getD 0 ≤ f.outstanding peer := hc.le_records peer
    rw [hl, Option.getD_some, h0] at hle
    omega

theorem announce_count_le_records_new :
    Reachable ⟨fun _ => 0, fun _ => 0⟩ (New : Fetcher Nat Nat) ∧
      (∀ peer n, (New : Fetcher Nat Nat).announces.lookup peer = some n →
        0 < n ∧ n ≤ hashLimit) ∧
      (∀ peer, ((New : Fetcher Nat Nat).announces.lookup peer).getD 0 ≤
        (New : Fetcher Nat Nat).outstanding peer) ∧
      (∀ peer, (New : Fetcher Nat Nat).outstanding peer = 0 →
        (New : Fetcher Nat Nat).announces.lookup peer = none) :=
  ⟨.new, @announce_count_le_records Nat Nat _ ⟨fun _ => 0, fun _ => 0⟩ New .new⟩

end Ccmchain.Fetcher
