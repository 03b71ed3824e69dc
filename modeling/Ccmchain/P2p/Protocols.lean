import Mathlib

/-!
# Subprotocol multiplexing (`p2p/peer.go`)

Both ends of a connection run `matchProtocols` on the protocols they run and the capabilities
the other end advertised. It sorts the capabilities by name and version, keeps those it runs,
and gives each matched name a range of message codes above the base protocol's, in name order;
a higher version of a name takes over the range of the lower one.

A message goes out with its protocol's offset added (`protoRW.WriteMsg`), `Peer.handle` routes
it to the protocol whose range holds its code (`getProto`), and `ReadMsg` takes the offset off
again. When the two ends agree on the length of every version they share, both compute the
same table from the same sorted list of shared protocols, and every message reaches the
protocol it was written for. Offsets are `uint64`s, so this needs the lengths to sum below
2^64: otherwise an offset wraps around into the base protocol's codes.
-/

namespace Ccmchain.P2p

/-- `Cap`: a protocol a peer advertises. -/
structure Cap where
  Name : String
  Version : Nat
  deriving DecidableEq, Repr

/-- The fields of `Protocol` that matching and routing read. -/
structure Protocol where
  Name : String
  Version : Nat
  Length : UInt64
  deriving DecidableEq, Repr

def Protocol.cap (p : Protocol) : Cap := ⟨p.Name, p.Version⟩

def baseProtocolLength : UInt64 := 16

def discMsg : UInt64 := 0x01

def pingMsg : UInt64 := 0x02

/-- `capsByNameAndVersion.Less`. -/
def capsLess (a b : Cap) : Bool :=
  decide (a.Name < b.Name) || (a.Name == b.Name && decide (a.Version < b.Version))

/-- `sort.Sort(capsByNameAndVersion(caps))`. Two caps neither of which sorts before the other
are equal, so every sorting algorithm returns this list. -/
def sortCaps (caps : List Cap) : List Cap :=
  caps.mergeSort fun a b => !capsLess b a

/-- `protoRW`, without its channels. -/
structure ProtoRW where
  proto : Protocol
  offset : UInt64
  deriving DecidableEq, Repr

/-- The map `matchProtocols` returns, by protocol name. -/
abbrev ProtoMap := AList fun _ : String => ProtoRW

/-- The inner loop of `matchProtocols`: the first protocol with the cap's name and version. -/
def findProto (protocols : List Protocol) (cap : Cap) : Option Protocol :=
  protocols.find? fun proto => proto.Name == cap.Name && proto.Version == cap.Version

/-- The body of the `if` in `matchProtocols`: an earlier version of the name gives its range
back, and the match is placed at the offset. -/
def placeMatch (st : UInt64 × ProtoMap) (name : String) (proto : Protocol) : UInt64 × ProtoMap :=
  let offset := match st.2.lookup name with
    | some old => st.1 - old.proto.Length
    | none => st.1
  (offset + proto.Length, st.2.insert name ⟨proto, offset⟩)

/-- One iteration of the outer loop of `matchProtocols`. -/
def matchCap (protocols : List Protocol) (st : UInt64 × ProtoMap) (cap : Cap) :
    UInt64 × ProtoMap :=
  match findProto protocols cap with
  | none => st
  | some proto => placeMatch st cap.Name proto

def matchProtocols (protocols : List Protocol) (caps : List Cap) : ProtoMap :=
  ((sortCaps caps).foldl (matchCap protocols) (baseProtocolLength, ∅)).2

/-- `countMatchingProtocols`: the pairs of an advertised cap and a protocol with its name and
version. -/
def countMatchingProtocols (protocols : List Protocol) (caps : List Cap) : Nat :=
  caps.foldl (fun n cap => protocols.foldl (fun n proto =>
    if proto.Name == cap.Name && proto.Version == cap.Version then n + 1 else n) n) 0

/-- `getProto`: the first running protocol whose range holds the code. `running` lists the
values of the peer's map in the order the map is ranged over. -/
def getProto (running : List ProtoRW) (code : UInt64) : Option ProtoRW :=
  running.find? fun proto => decide (proto.offset ≤ code) && decide (code < proto.offset + proto.proto.Length)

/-- What `Peer.handle` does with a message. -/
inductive Handled
  | pong
  | disconnect
  | discarded
  | routed (proto : ProtoRW)
  | outOfRange
  deriving DecidableEq, Repr

/-- `Peer.handle`, on a message's code. -/
def handle (running : List ProtoRW) (code : UInt64) : Handled :=
  if code = pingMsg then .pong
  else if code = discMsg then .disconnect
  else if code < baseProtocolLength then .discarded
  else match getProto running code with
    | some proto => .routed proto
    | none => .outOfRange

/-- `protoRW.WriteMsg`: the code that goes on the wire, `none` for a code the protocol does not
have. -/
def ProtoRW.writeMsg (rw : ProtoRW) (code : UInt64) : Option UInt64 :=
  if code ≥ rw.proto.Length then none else some (code + rw.offset)

/-- `protoRW.ReadMsg`. -/
def ProtoRW.readMsg (rw : ProtoRW) (code : UInt64) : UInt64 := code - rw.offset

/-! ### The order of capabilities -/

/-- A cap as the pair `capsByNameAndVersion` compares. -/
def Cap.key (c : Cap) : String ×ₗ Nat := toLex (c.Name, c.Version)

theorem Cap.key_injective : Function.Injective Cap.key := by
  rintro ⟨n, v⟩ ⟨n', v'⟩ h
  simp only [Cap.key, toLex_inj, Prod.mk.injEq] at h
  rw [h.1, h.2]

instance capLinearOrder : LinearOrder Cap := LinearOrder.lift' Cap.key Cap.key_injective

theorem Cap.lt_iff {a b : Cap} : a < b ↔ a.key < b.key := Iff.rfl

theorem capsLess_iff {a b : Cap} : capsLess a b = true ↔ a < b := by
  rw [Cap.lt_iff, Prod.Lex.lt_iff]
  simp [capsLess, Cap.key]

theorem sortCaps_eq (caps : List Cap) :
    sortCaps caps = caps.mergeSort fun a b => decide (a ≤ b) := by
  unfold sortCaps
  congr
  funext a b
  have h := (capsLess_iff (a := b) (b := a)).not
  rw [not_lt] at h
  cases hc : capsLess b a <;> simp_all

theorem pairwise_sortCaps (caps : List Cap) : (sortCaps caps).Pairwise (· ≤ ·) := by
  have htrans : ∀ a b c : Cap, decide (a ≤ b) = true → decide (b ≤ c) = true →
      decide (a ≤ c) = true := by
    simp only [decide_eq_true_eq]
    exact fun a b c => le_trans
  have htotal : ∀ a b : Cap, (decide (a ≤ b) || decide (b ≤ a)) = true := by
    simp [le_total]
  rw [sortCaps_eq]
  simpa using List.pairwise_mergeSort htrans htotal caps

theorem sortCaps_perm (caps : List Cap) : (sortCaps caps).Perm caps :=
  List.mergeSort_perm _ _

/-- The sorted list depends only on the caps, not on the order they were advertised in. -/
theorem sortCaps_congr {caps caps' : List Cap} (h : caps.Perm caps') :
    sortCaps caps = sortCaps caps' :=
  List.Perm.eq_of_pairwise (fun _ _ _ _ => le_antisymm) (pairwise_sortCaps caps)
    (pairwise_sortCaps caps') ((sortCaps_perm caps).trans (h.trans (sortCaps_perm caps').symm))

theorem pairwise_lt_sortCaps {caps : List Cap} (h : caps.Nodup) :
    (sortCaps caps).Pairwise (· < ·) := by
  have hnd : (sortCaps caps).Nodup := (sortCaps_perm caps).nodup_iff.mpr h
  exact ((pairwise_sortCaps caps).and hnd).imp fun h => lt_of_le_of_ne h.1 h.2

/-! ### The shared protocols -/

theorem findProto_eq_some {protocols : List Protocol} {cap : Cap} {p : Protocol}
    (h : findProto protocols cap = some p) : p ∈ protocols ∧ p.cap = cap := by
  have hp := List.find?_some h
  simp only [Bool.and_eq_true, beq_iff_eq] at hp
  exact ⟨List.mem_of_find?_eq_some h, by simp [Protocol.cap, hp.1, hp.2]⟩

theorem findProto_eq_some_iff {protocols : List Protocol}
    (hnd : (protocols.map Protocol.cap).Nodup) {cap : Cap} {p : Protocol} :
    findProto protocols cap = some p ↔ p ∈ protocols ∧ p.cap = cap := by
  refine ⟨findProto_eq_some, fun ⟨hp, hc⟩ => ?_⟩
  have hsome : (findProto protocols cap).isSome := by
    refine List.find?_isSome.mpr ⟨p, hp, ?_⟩
    simp [← hc, Protocol.cap]
  obtain ⟨q, hq⟩ := Option.isSome_iff_exists.mp hsome
  obtain ⟨hqm, hqc⟩ := findProto_eq_some hq
  rw [hq, List.inj_on_of_nodup_map hnd hqm hp (hqc.trans hc.symm)]

theorem Protocol.eq_of_cap {p q : Protocol} (hc : p.cap = q.cap) (hl : p.Length = q.Length) :
    p = q := by
  cases p
  cases q
  simp_all [Protocol.cap]

theorem Cap.name_le_of_lt {a b : Cap} (h : a < b) : a.Name ≤ b.Name := by
  rw [Cap.lt_iff, Prod.Lex.lt_iff] at h
  rcases h with h | ⟨h, -⟩
  · exact h.le
  · exact h.le

/-- The protocols `matchProtocols` places, in the order it places them. -/
def matched (protocols : List Protocol) (caps : List Cap) : List Protocol :=
  (sortCaps caps).filterMap (findProto protocols)

/-- `matchProtocols` places the matched protocols one after the other, each under its own
name. -/
theorem matchProtocols_eq (protocols : List Protocol) (caps : List Cap) :
    matchProtocols protocols caps =
      ((matched protocols caps).foldl (fun st p => placeMatch st p.Name p)
        (baseProtocolLength, ∅)).2 := by
  rw [matchProtocols, matched, List.foldl_filterMap]
  congr 2
  funext st cap
  unfold matchCap
  cases h : findProto protocols cap with
  | none => rfl
  | some p => rw [← (findProto_eq_some h).2]; rfl

theorem mem_matched {protocols : List Protocol} (hnd : (protocols.map Protocol.cap).Nodup)
    {caps : List Cap} {p : Protocol} :
    p ∈ matched protocols caps ↔ p ∈ protocols ∧ p.cap ∈ caps := by
  simp only [matched, List.mem_filterMap, findProto_eq_some_iff hnd, (sortCaps_perm caps).mem_iff]
  constructor
  · rintro ⟨c, hc, hp, rfl⟩
    exact ⟨hp, hc⟩
  · exact fun ⟨hp, hc⟩ => ⟨p.cap, hc, hp, rfl⟩

theorem pairwise_matched (protocols : List Protocol) {caps : List Cap} (hcaps : caps.Nodup) :
    (matched protocols caps).Pairwise fun p q => p.cap < q.cap := by
  unfold matched
  rw [List.pairwise_filterMap]
  refine (pairwise_lt_sortCaps hcaps).imp fun hlt p hp q hq => ?_
  rwa [(findProto_eq_some hp).2, (findProto_eq_some hq).2]

theorem nodup_matched (protocols : List Protocol) {caps : List Cap} (hcaps : caps.Nodup) :
    (matched protocols caps).Nodup :=
  (pairwise_matched protocols hcaps).imp fun h => ne_of_apply_ne Protocol.cap h.ne

section Shared

variable {PA PB : List Protocol} (hA : (PA.map Protocol.cap).Nodup)
  (hB : (PB.map Protocol.cap).Nodup)
  (hlen : ∀ p ∈ PA, ∀ q ∈ PB, p.cap = q.cap → p.Length = q.Length)

include hlen in
/-- A protocol one side runs and the other advertises, the other side runs too. -/
theorem shared_comm {p : Protocol} :
    p ∈ PA ∧ p.cap ∈ PB.map Protocol.cap ↔ p ∈ PB ∧ p.cap ∈ PA.map Protocol.cap := by
  constructor
  · rintro ⟨hp, hc⟩
    obtain ⟨q, hq, hqc⟩ := List.mem_map.mp hc
    have hqp : q = p := Protocol.eq_of_cap hqc (hlen p hp q hq hqc.symm).symm
    exact ⟨hqp ▸ hq, List.mem_map_of_mem hp⟩
  · rintro ⟨hp, hc⟩
    obtain ⟨q, hq, hqc⟩ := List.mem_map.mp hc
    have hqp : q = p := Protocol.eq_of_cap hqc (hlen q hq p hp hqc)
    exact ⟨hqp ▸ hq, List.mem_map_of_mem hp⟩

include hA hB hlen in
/-- Both ends place the same protocols in the same order, whatever order the capabilities were
advertised in. -/
theorem matched_agree {capsA capsB : List Cap} (hcapsA : capsA.Perm (PA.map Protocol.cap))
    (hcapsB : capsB.Perm (PB.map Protocol.cap)) :
    matched PA capsB = matched PB capsA := by
  have hndA := hcapsA.nodup_iff.mpr hA
  have hndB := hcapsB.nodup_iff.mpr hB
  refine List.Perm.eq_of_pairwise (fun _ _ _ _ hab hba => absurd (hab.trans hba) (lt_irrefl _))
    (pairwise_matched PA hndB) (pairwise_matched PB hndA) ?_
  rw [List.perm_ext_iff_of_nodup (nodup_matched PA hndB) (nodup_matched PB hndA)]
  intro p
  rw [mem_matched hA, mem_matched hB, hcapsA.mem_iff, hcapsB.mem_iff]
  exact shared_comm hlen

end Shared

/-! ### Placing the matched protocols -/

/-- The first code past a protocol's range. -/
def ProtoRW.stop (rw : ProtoRW) : Nat := rw.offset.toNat + rw.proto.Length.toNat

/-- The total length of a list of protocols. -/
def totalLength (ps : List Protocol) : Nat := (ps.map fun p => p.Length.toNat).sum

@[simp] theorem totalLength_append (ps qs : List Protocol) :
    totalLength (ps ++ qs) = totalLength ps + totalLength qs := by
  simp [totalLength]

@[simp] theorem totalLength_singleton (p : Protocol) : totalLength [p] = p.Length.toNat := by
  simp [totalLength]

/-- What placing the protocols `done` one after the other has built: each name holds the last
of its versions placed, every range lies above the base protocol's and below the next offset,
ranges of different names are disjoint, the name placed last ends at the next offset and every
other range ends below it, and the offset has grown by at most the lengths placed. -/
structure Placed (done : List Protocol) (st : UInt64 × ProtoMap) : Prop where
  select : ∀ n, (st.2.lookup n).map ProtoRW.proto = (done.filter (·.Name == n)).getLast?
  start : baseProtocolLength.toNat ≤ st.1.toNat
  above : ∀ n rw, st.2.lookup n = some rw → baseProtocolLength.toNat ≤ rw.offset.toNat
  below : ∀ n rw, st.2.lookup n = some rw → rw.stop ≤ st.1.toNat
  disjoint : ∀ n n' rw rw', n ≠ n' → st.2.lookup n = some rw → st.2.lookup n' = some rw' →
    rw.stop ≤ rw'.offset.toNat ∨ rw'.stop ≤ rw.offset.toNat
  top : ∀ P ∈ done.getLast?, ∃ rw, st.2.lookup P.Name = some rw ∧ rw.stop = st.1.toNat ∧
    ∀ n rw', n ≠ P.Name → st.2.lookup n = some rw' → rw'.stop ≤ rw.offset.toNat
  fits : st.1.toNat ≤ baseProtocolLength.toNat + totalLength done

theorem placed_nil : Placed [] (baseProtocolLength, ∅) where
  select n := by simp
  start := le_rfl
  above n rw h := by simp at h
  below n rw h := by simp at h
  disjoint n n' rw rw' _ h := by simp at h
  top P h := by simp at h
  fits := by simp [totalLength]

/-- A protocol placed at an offset `o` past every range but its own name's keeps `Placed`. -/
theorem Placed.insert {done : List Protocol} {st : UInt64 × ProtoMap} (h : Placed done st)
    {P : Protocol} {o : UInt64} (ho16 : baseProtocolLength.toNat ≤ o.toNat)
    (hothers : ∀ n rw, n ≠ P.Name → st.2.lookup n = some rw → rw.stop ≤ o.toNat)
    (ho : o.toNat ≤ st.1.toNat)
    (hfit : baseProtocolLength.toNat + totalLength (done ++ [P]) < 2 ^ 64) :
    Placed (done ++ [P]) (o + P.Length, st.2.insert P.Name ⟨P, o⟩) := by
  have hfits := h.fits
  simp only [totalLength_append, totalLength_singleton] at hfit
  have hend : (o + P.Length).toNat = o.toNat + P.Length.toNat := by
    rw [UInt64.toNat_add]
    exact Nat.mod_eq_of_lt (by omega)
  have hnew : (⟨P, o⟩ : ProtoRW).stop = o.toNat + P.Length.toNat := rfl
  constructor
  · intro n
    by_cases hn : n = P.Name
    · subst hn
      simp [AList.lookup_insert, List.filter_append]
    · have hPn : (P.Name == n) = false := by simpa using Ne.symm hn
      simp [AList.lookup_insert_ne hn, List.filter_append, hPn, h.select n]
  · rw [hend]
    omega
  · intro n rw hrw
    by_cases hn : n = P.Name
    · subst hn
      rw [AList.lookup_insert] at hrw
      cases hrw
      exact ho16
    · rw [AList.lookup_insert_ne hn] at hrw
      exact h.above n rw hrw
  · intro n rw hrw
    by_cases hn : n = P.Name
    · subst hn
      rw [AList.lookup_insert] at hrw
      cases hrw
      rw [hnew, hend]
    · rw [AList.lookup_insert_ne hn] at hrw
      have := hothers n rw hn hrw
      dsimp only
      omega
  · intro n n' rw rw' hne hrw hrw'
    by_cases hn : n = P.Name
    · subst hn
      rw [AList.lookup_insert] at hrw
      rw [AList.lookup_insert_ne (Ne.symm hne)] at hrw'
      cases hrw
      exact .inr (hothers n' rw' (Ne.symm hne) hrw')
    · rw [AList.lookup_insert_ne hn] at hrw
      by_cases hn' : n' = P.Name
      · subst hn'
        rw [AList.lookup_insert] at hrw'
        cases hrw'
        exact .inl (hothers n rw hn hrw)
      · rw [AList.lookup_insert_ne hn'] at hrw'
        exact h.disjoint n n' rw rw' hne hrw hrw'
  · intro Q hQ
    simp only [List.getLast?_append, List.getLast?_singleton, Option.some_or,
      Option.mem_def, Option.some.injEq] at hQ
    subst hQ
    refine ⟨⟨P, o⟩, AList.lookup_insert _, by rw [hnew, hend], fun n rw' hn hrw' => ?_⟩
    rw [AList.lookup_insert_ne hn] at hrw'
    exact hothers n rw' hn hrw'
  · simp only [totalLength_append, totalLength_singleton]
    rw [hend]
    omega

/-- In a list ordered by `R`, every element is the last one or comes before it. -/
theorem rel_getLast_of_pairwise {α : Type} {R : α → α → Prop} {l : List α} {x y : α}
    (hl : l.Pairwise R) (hx : l.getLast? = some x) (hy : y ∈ l) : y = x ∨ R y x := by
  obtain ⟨ys, rfl⟩ := List.getLast?_eq_some_iff.mp hx
  rcases List.mem_append.mp hy with hy | hy
  · exact .inr ((List.pairwise_append.mp hl).2.2 y hy x (List.mem_singleton_self x))
  · exact .inl (List.mem_singleton.mp hy)

/-- A name placed before, in name order, is the name placed last. -/
theorem Placed.last_of_lookup {done : List Protocol} {st : UInt64 × ProtoMap}
    (h : Placed done st) {P : Protocol} (hsorted : (done ++ [P]).Pairwise fun a b => a.Name ≤ b.Name)
    {old : ProtoRW} (hl : st.2.lookup P.Name = some old) :
    ∃ T, done.getLast? = some T ∧ T.Name = P.Name := by
  have hsel := h.select P.Name
  rw [hl, Option.map_some] at hsel
  obtain ⟨ys, hys⟩ := List.getLast?_eq_some_iff.mp hsel.symm
  have hmem : old.proto ∈ done.filter (·.Name == P.Name) := by simp [hys]
  rw [List.mem_filter, beq_iff_eq] at hmem
  obtain ⟨hsort, -, hbelow⟩ := List.pairwise_append.mp hsorted
  cases hT : done.getLast? with
  | none => simp [List.getLast?_eq_none_iff.mp hT] at hmem
  | some T =>
    have hTP := hbelow T (List.mem_of_getLast? hT) P (List.mem_singleton_self P)
    rcases rel_getLast_of_pairwise hsort hT hmem.1 with hT' | hle
    · exact ⟨T, rfl, hT' ▸ hmem.2⟩
    · exact ⟨T, rfl, le_antisymm hTP (hmem.2 ▸ hle)⟩

/-- Placing the next protocol in name order keeps `Placed`. -/
theorem Placed.place {done : List Protocol} {st : UInt64 × ProtoMap} (h : Placed done st)
    {P : Protocol} (hsorted : (done ++ [P]).Pairwise fun a b => a.Name ≤ b.Name)
    (hfit : baseProtocolLength.toNat + totalLength (done ++ [P]) < 2 ^ 64) :
    Placed (done ++ [P]) (placeMatch st P.Name P) := by
  unfold placeMatch
  cases hl : st.2.lookup P.Name with
  | none => exact h.insert h.start (fun n rw _ hrw => h.below n rw hrw) le_rfl hfit
  | some old =>
    -- the earlier version is the range placed last, so taking it back lands on its offset
    obtain ⟨T, hT, hTname⟩ := h.last_of_lookup hsorted hl
    obtain ⟨rw, hrw, hstop, hothers⟩ := h.top T hT
    rw [hTname, hl, Option.some.injEq] at hrw
    subst hrw
    unfold ProtoRW.stop at hstop
    have hle : old.proto.Length ≤ st.1 := UInt64.le_iff_toNat_le.mpr (by omega)
    have hsub : st.1 - old.proto.Length = old.offset := by
      apply UInt64.toNat_inj.mp
      rw [UInt64.toNat_sub_of_le _ _ hle]
      omega
    dsimp only
    rw [hsub]
    exact h.insert (h.above _ _ hl) (fun n rw' hn hrw' => hothers n rw' (hTname ▸ hn) hrw')
      (by omega) hfit

theorem placed_foldl (L : List Protocol) (hsorted : L.Pairwise fun a b => a.Name ≤ b.Name)
    (hfit : baseProtocolLength.toNat + totalLength L < 2 ^ 64) :
    Placed L (L.foldl (fun st p => placeMatch st p.Name p) (baseProtocolLength, ∅)) := by
  induction L using List.reverseRecOn with
  | nil => exact placed_nil
  | append_singleton L P ih =>
    rw [List.foldl_append, List.foldl_cons, List.foldl_nil]
    have hL : totalLength L ≤ totalLength (L ++ [P]) := by simp
    exact (ih (List.pairwise_append.mp hsorted).1 (by omega)).place hsorted hfit

theorem totalLength_matched_le {protocols : List Protocol}
    (hnd : (protocols.map Protocol.cap).Nodup) {caps : List Cap} (hcaps : caps.Nodup) :
    totalLength (matched protocols caps) ≤ totalLength protocols := by
  obtain ⟨l, hperm, hsub⟩ := (nodup_matched protocols hcaps).subperm
    fun p hp => ((mem_matched hnd).mp hp).1
  unfold totalLength
  rw [← (hperm.map _).sum_eq]
  exact (hsub.map _).sum_le_sum fun _ _ => Nat.zero_le _

theorem placed_matchProtocols {protocols : List Protocol}
    (hnd : (protocols.map Protocol.cap).Nodup) {caps : List Cap} (hcaps : caps.Nodup)
    (hfit : baseProtocolLength.toNat + totalLength protocols < 2 ^ 64) :
    ∃ offset, Placed (matched protocols caps) (offset, matchProtocols protocols caps) := by
  have hsorted : (matched protocols caps).Pairwise fun a b => a.Name ≤ b.Name :=
    (pairwise_matched protocols hcaps).imp Cap.name_le_of_lt
  have hle := totalLength_matched_le hnd hcaps
  rw [matchProtocols_eq]
  exact ⟨_, placed_foldl _ hsorted (by omega)⟩

theorem Cap.version_lt_of_lt {a b : Cap} (h : a < b) (hn : a.Name = b.Name) :
    a.Version < b.Version := by
  rw [Cap.lt_iff, Prod.Lex.lt_iff] at h
  simp only [Cap.key, ofLex_toLex, hn, lt_irrefl, true_and, false_or] at h
  exact h

/-- Each name holds the highest version of it placed. -/
theorem Placed.lookup_eq_some {done : List Protocol} {st : UInt64 × ProtoMap} (h : Placed done st)
    (hsorted : done.Pairwise fun p q => p.cap < q.cap) {n : String} {rw : ProtoRW}
    (hrw : st.2.lookup n = some rw) :
    rw.proto ∈ done ∧ rw.proto.Name = n ∧ ∀ p ∈ done, p.Name = n → p.Version ≤ rw.proto.Version := by
  have hsel := h.select n
  rw [hrw, Option.map_some] at hsel
  have hmem : rw.proto ∈ done.filter (·.Name == n) := List.mem_of_getLast? hsel.symm
  rw [List.mem_filter, beq_iff_eq] at hmem
  refine ⟨hmem.1, hmem.2, fun p hp hpn => ?_⟩
  have hpf : p ∈ done.filter (·.Name == n) := List.mem_filter.mpr ⟨hp, by simpa using hpn⟩
  rcases rel_getLast_of_pairwise (hsorted.filter _) hsel.symm hpf with rfl | hlt
  · exact le_rfl
  · exact (Cap.version_lt_of_lt hlt (hpn.trans hmem.2.symm)).le

/-- A name is placed exactly when some protocol of that name is. -/
theorem Placed.lookup_isSome {done : List Protocol} {st : UInt64 × ProtoMap} (h : Placed done st)
    (n : String) : (∃ rw, st.2.lookup n = some rw) ↔ ∃ p ∈ done, p.Name = n := by
  have hsel := h.select n
  constructor
  · rintro ⟨rw, hrw⟩
    rw [hrw, Option.map_some] at hsel
    have hmem : rw.proto ∈ done.filter (·.Name == n) := List.mem_of_getLast? hsel.symm
    rw [List.mem_filter, beq_iff_eq] at hmem
    exact ⟨rw.proto, hmem⟩
  · rintro ⟨p, hp, hpn⟩
    cases hl : st.2.lookup n with
    | some rw => exact ⟨rw, rfl⟩
    | none =>
      rw [hl, Option.map_none, eq_comm, List.getLast?_eq_none_iff] at hsel
      have hpf : p ∈ done.filter (·.Name == n) := List.mem_filter.mpr ⟨hp, by simpa using hpn⟩
      simp [hsel] at hpf

/-! ### Routing -/

theorem find?_eq_some_of_unique {α : Type} {p : α → Bool} {l : List α} {x : α} (hx : x ∈ l)
    (hpx : p x = true) (huniq : ∀ y ∈ l, p y = true → y = x) : l.find? p = some x := by
  obtain ⟨y, hy⟩ := Option.isSome_iff_exists.mp (List.find?_isSome.mpr ⟨x, hx, hpx⟩)
  rw [hy, huniq y (List.mem_of_find?_eq_some hy) (List.find?_some hy)]

/-- A range that ends inside the code space holds a code exactly when its `uint64` bounds do. -/
theorem inRange_iff {rw : ProtoRW} (hstop : rw.stop < 2 ^ 64) {code : UInt64} :
    (decide (rw.offset ≤ code) && decide (code < rw.offset + rw.proto.Length)) = true ↔
      rw.offset.toNat ≤ code.toNat ∧ code.toNat < rw.stop := by
  unfold ProtoRW.stop at hstop ⊢
  have hend : (rw.offset + rw.proto.Length).toNat = rw.offset.toNat + rw.proto.Length.toNat := by
    rw [UInt64.toNat_add]
    exact Nat.mod_eq_of_lt hstop
  simp only [Bool.and_eq_true, decide_eq_true_eq, UInt64.le_iff_toNat_le,
    UInt64.lt_iff_toNat_lt, hend]

theorem Placed.stop_lt {done : List Protocol} {st : UInt64 × ProtoMap} (h : Placed done st)
    {n : String} {rw : ProtoRW} (hrw : st.2.lookup n = some rw) : rw.stop < 2 ^ 64 :=
  lt_of_le_of_lt (h.below n rw hrw) st.1.toNat_lt

/-- A message written for a placed protocol is routed back to it, and read with its code, by
`handle` over the placed protocols in any order. -/
theorem Placed.route {done : List Protocol} {st : UInt64 × ProtoMap} (h : Placed done st)
    {n : String} {rw : ProtoRW} (hrw : st.2.lookup n = some rw) {running : List ProtoRW}
    (hrun : running.Perm (st.2.entries.map Sigma.snd)) {k : UInt64} (hk : k < rw.proto.Length) :
    rw.writeMsg k = some (k + rw.offset) ∧ handle running (k + rw.offset) = .routed rw ∧
      rw.readMsg (k + rw.offset) = k := by
  have hstop := h.stop_lt hrw
  have hbase := h.above n rw hrw
  have hk' := UInt64.lt_iff_toNat_lt.mp hk
  unfold ProtoRW.stop at hstop
  have hcode : (k + rw.offset).toNat = k.toNat + rw.offset.toNat := by
    rw [UInt64.toNat_add]
    exact Nat.mod_eq_of_lt (by omega)
  have hmem : ∀ p ∈ running, ∃ n', st.2.lookup n' = some p := by
    intro p hp
    obtain ⟨e, he, rfl⟩ := List.mem_map.mp (hrun.mem_iff.mp hp)
    exact ⟨e.1, AList.mem_lookup_iff.mpr he⟩
  have hget : getProto running (k + rw.offset) = some rw := by
    refine find?_eq_some_of_unique ?_ ?_ fun p hp hin => ?_
    · exact hrun.mem_iff.mpr (List.mem_map.mpr ⟨⟨n, rw⟩, AList.mem_lookup_iff.mp hrw, rfl⟩)
    · rw [inRange_iff (h.stop_lt hrw), hcode]
      unfold ProtoRW.stop
      omega
    · obtain ⟨n', hp'⟩ := hmem p hp
      rw [inRange_iff (h.stop_lt hp'), hcode] at hin
      by_cases hn : n' = n
      · subst hn
        rw [hrw, Option.some.injEq] at hp'
        exact hp'.symm
      · have hdis := h.disjoint n n' rw p (Ne.symm hn) hrw hp'
        unfold ProtoRW.stop at hdis hin
        omega
  have hwrite : ¬ k ≥ rw.proto.Length := by
    rw [ge_iff_le, UInt64.le_iff_toNat_le]
    omega
  refine ⟨by simp only [ProtoRW.writeMsg, if_neg hwrite], ?_, UInt64.add_sub_cancel k rw.offset⟩
  have h16 : baseProtocolLength.toNat = 16 := rfl
  have hping : k + rw.offset ≠ pingMsg := fun he => by
    have h2 : (k + rw.offset).toNat = 2 := by rw [he]; rfl
    omega
  have hdisc : k + rw.offset ≠ discMsg := fun he => by
    have h1 : (k + rw.offset).toNat = 1 := by rw [he]; rfl
    omega
  have hlow : ¬ k + rw.offset < baseProtocolLength := by
    rw [UInt64.lt_iff_toNat_lt, hcode]
    omega
  simp only [handle, if_neg hping, if_neg hdisc, if_neg hlow, hget]

/-! ### Counting matches -/

theorem foldl_count {α : Type} (p : α → Bool) (l : List α) (n : Nat) :
    l.foldl (fun n a => if p a then n + 1 else n) n = n + l.countP p := by
  induction l generalizing n with
  | nil => rfl
  | cons a l ih =>
    rw [List.foldl_cons, ih, List.countP_cons]
    split <;> omega

theorem foldl_add_sum {α : Type} (f : α → Nat) (l : List α) (n : Nat) :
    l.foldl (fun n a => n + f a) n = n + (l.map f).sum := by
  induction l generalizing n with
  | nil => rfl
  | cons a l ih =>
    rw [List.foldl_cons, ih, List.map_cons, List.sum_cons]
    omega

theorem countMatchingProtocols_eq (protocols : List Protocol) (caps : List Cap) :
    countMatchingProtocols protocols caps = (caps.map fun cap => protocols.countP fun proto =>
      proto.Name == cap.Name && proto.Version == cap.Version).sum := by
  unfold countMatchingProtocols
  simp only [foldl_count, foldl_add_sum, Nat.zero_add]

theorem matched_eq_nil_iff (protocols : List Protocol) (caps : List Cap) :
    matched protocols caps = [] ↔ ∀ cap ∈ caps, findProto protocols cap = none := by
  simp only [matched, List.filterMap_eq_nil_iff, (sortCaps_perm caps).mem_iff]

theorem matchProtocols_eq_empty_iff (protocols : List Protocol) (caps : List Cap) :
    (∀ n, (matchProtocols protocols caps).lookup n = none) ↔ matched protocols caps = [] := by
  rw [matchProtocols_eq]
  constructor
  · intro h
    rcases List.eq_nil_or_concat (matched protocols caps) with hm | ⟨L, P, hm⟩
    · exact hm
    · have hP := h P.Name
      rw [hm, List.concat_eq_append, List.foldl_append] at hP
      simp [placeMatch, AList.lookup_insert] at hP
  · intro hm n
    rw [hm]
    simp

/-- The server turns a peer away when `countMatchingProtocols` is 0: exactly when
`matchProtocols` would run nothing. -/
theorem countMatchingProtocols_eq_zero_iff (protocols : List Protocol) (caps : List Cap) :
    countMatchingProtocols protocols caps = 0 ↔
      ∀ n, (matchProtocols protocols caps).lookup n = none := by
  rw [matchProtocols_eq_empty_iff, matched_eq_nil_iff, countMatchingProtocols_eq,
    List.sum_eq_zero_iff]
  simp [List.countP_eq_zero, findProto, List.find?_eq_none]

/-! ### Both ends of a connection -/

theorem protocol_multiplexing_agrees (PA PB : List Protocol) (capsA capsB : List Cap)
    (hA : (PA.map Protocol.cap).Nodup) (hB : (PB.map Protocol.cap).Nodup)
    (hlen : ∀ p ∈ PA, ∀ q ∈ PB, p.cap = q.cap → p.Length = q.Length)
    (hcapsA : capsA.Perm (PA.map Protocol.cap)) (hcapsB : capsB.Perm (PB.map Protocol.cap))
    (hfit : baseProtocolLength.toNat + totalLength PA < 2 ^ 64) :
    matchProtocols PA capsB = matchProtocols PB capsA ∧
    (∀ n, (∃ rw, (matchProtocols PA capsB).lookup n = some rw) ↔
      ∃ p ∈ PA, p ∈ PB ∧ p.Name = n) ∧
    (∀ n rw, (matchProtocols PA capsB).lookup n = some rw →
      rw.proto ∈ PA ∧ rw.proto ∈ PB ∧ rw.proto.Name = n ∧
      (∀ p ∈ PA, p ∈ PB → p.Name = n → p.Version ≤ rw.proto.Version) ∧
      baseProtocolLength ≤ rw.offset) ∧
    (∀ n n' rw rw', n ≠ n' → (matchProtocols PA capsB).lookup n = some rw →
      (matchProtocols PA capsB).lookup n' = some rw' →
      rw.stop ≤ rw'.offset.toNat ∨ rw'.stop ≤ rw.offset.toNat) ∧
    (∀ n rw, (matchProtocols PA capsB).lookup n = some rw →
      ∀ running, running.Perm ((matchProtocols PB capsA).entries.map Sigma.snd) →
      ∀ k < rw.proto.Length, ∃ code, rw.writeMsg k = some code ∧
        handle running code = .routed rw ∧ rw.readMsg code = k) := by
  have hndB := hcapsB.nodup_iff.mpr hB
  have hagree : matchProtocols PA capsB = matchProtocols PB capsA := by
    rw [matchProtocols_eq, matchProtocols_eq, matched_agree hA hB hlen hcapsA hcapsB]
  obtain ⟨offset, hplaced⟩ := placed_matchProtocols hA hndB hfit
  have hsorted := pairwise_matched PA hndB
  -- a protocol is matched exactly when both ends run it
  have hshared : ∀ p, p ∈ matched PA capsB ↔ p ∈ PA ∧ p ∈ PB := by
    intro p
    rw [mem_matched hA, hcapsB.mem_iff]
    constructor
    · intro h
      exact ⟨h.1, ((shared_comm hlen).mp h).1⟩
    · intro h
      exact ⟨h.1, List.mem_map_of_mem h.2⟩
  refine ⟨hagree, fun n => ?_, fun n rw hrw => ?_, fun n n' rw rw' hne hrw hrw' => ?_,
    fun n rw hrw running hrun k hk => ?_⟩
  · rw [hplaced.lookup_isSome n]
    simp only [hshared, and_assoc]
  · obtain ⟨hmem, hname, hhigh⟩ := hplaced.lookup_eq_some hsorted hrw
    obtain ⟨hpa, hpb⟩ := (hshared _).mp hmem
    refine ⟨hpa, hpb, hname, fun p hp hq hpn => hhigh p ((hshared p).mpr ⟨hp, hq⟩) hpn, ?_⟩
    exact UInt64.le_iff_toNat_le.mpr (hplaced.above n rw hrw)
  · exact hplaced.disjoint n n' rw rw' hne hrw hrw'
  · rw [← hagree] at hrun
    exact ⟨_, hplaced.route hrw hrun hk⟩

def ethProtocolsA : List Protocol :=
  [⟨"eth", 62, 8⟩, ⟨"eth", 63, 17⟩, ⟨"les", 2, 21⟩]

def ethProtocolsB : List Protocol :=
  [⟨"les", 2, 21⟩, ⟨"eth", 63, 17⟩, ⟨"shh", 6, 2⟩]

theorem protocol_multiplexing_eth :
    matchProtocols ethProtocolsA (ethProtocolsB.map Protocol.cap) =
      matchProtocols ethProtocolsB (ethProtocolsA.map Protocol.cap) :=
  (protocol_multiplexing_agrees ethProtocolsA ethProtocolsB _ _ (by decide) (by decide)
    (by decide) (List.Perm.refl _) (List.Perm.refl _) (by decide)).1

/-- A first protocol whose range reaches the top of the code space. -/
def wrapProtocols : List Protocol :=
  [⟨"a", 1, 18446744073709551600⟩, ⟨"b", 1, 5⟩]

theorem sortCaps_wrapProtocols :
    sortCaps (wrapProtocols.map Protocol.cap) = wrapProtocols.map Protocol.cap := by
  rw [sortCaps_eq]
  exact List.mergeSort_eq_self (· ≤ ·) (by decide)

theorem protocol_offsets_wrap :
    (wrapProtocols.map Protocol.cap).Nodup ∧
    ∃ rw, (matchProtocols wrapProtocols (wrapProtocols.map Protocol.cap)).lookup "b" = some rw ∧
      rw.offset < baseProtocolLength ∧ rw.writeMsg 1 = some discMsg ∧
      ∀ running, handle running discMsg = .disconnect := by
  refine ⟨by decide, ⟨⟨"b", 1, 5⟩, 0⟩, ?_, by decide, by decide, fun running => rfl⟩
  rw [matchProtocols, sortCaps_wrapProtocols]
  decide

end Ccmchain.P2p
