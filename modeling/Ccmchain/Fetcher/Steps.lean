import Ccmchain.Fetcher.Basic

/-!
# What each step of the fetcher loop can do

One lemma per function of `Fetcher.loop` lists every way it can change the state, with the
guards that hold on each way. The invariants of `Fetcher.Queue` and `Fetcher.Announces` are
proved from these lemmas alone, one case at a time, and never unfold a step again.
-/

namespace Ccmchain.Fetcher

set_option linter.dupNamespace false

open Ccmchain.Common

variable {P Tx : Type} [DecidableEq P]

namespace Fetcher

variable (f : Fetcher P Tx)

/-! ### The helpers -/

@[simp] theorem forgetHash_announces (hash : Hash) :
    (f.forgetHash hash).announces = (f.originsOf hash).foldl dropAnnounce f.announces := rfl

@[simp] theorem forgetHash_announced (hash : Hash) :
    (f.forgetHash hash).announced = f.announced.erase hash := rfl

@[simp] theorem forgetHash_fetching (hash : Hash) :
    (f.forgetHash hash).fetching = f.fetching.erase hash := rfl

@[simp] theorem forgetHash_fetched (hash : Hash) :
    (f.forgetHash hash).fetched = f.fetched.erase hash := rfl

@[simp] theorem forgetHash_completing (hash : Hash) :
    (f.forgetHash hash).completing = f.completing.erase hash := rfl

theorem forgetBlock_of_lookup {hash : Hash} {op : Inject P Tx}
    (h : f.queued.lookup hash = some op) :
    f.forgetBlock hash =
      { f with
        queues := if (f.queues.lookup op.origin).getD 0 - 1 = 0 then f.queues.erase op.origin
          else f.queues.insert op.origin ((f.queues.lookup op.origin).getD 0 - 1)
        queued := f.queued.erase hash } := by
  simp only [forgetBlock, h]

theorem forgetBlock_of_lookup_eq_none {hash : Hash} (h : f.queued.lookup hash = none) :
    f.forgetBlock hash = f := by
  simp only [forgetBlock, h]

/-! ### The top of the loop -/

theorem expireStep_cases (now : Int) (hash : Hash) :
    f.expireStep now hash = f ∨ f.expireStep now hash = f.forgetHash hash := by
  unfold expireStep
  split
  · split
    · exact .inr rfl
    · exact .inl rfl
  · exact .inl rfl

/-! ### The cases of the `select` -/

/-- `notify` drops the announcement, or records it under a count below the limit for a hash
that is neither being fetched nor completed. -/
theorem notify_cases (env : Env) (n : Announce P) :
    f.notify env n = f ∨
      ((f.announces.lookup n.origin).getD 0 + 1 ≤ hashLimit ∧ n.hash ∉ f.fetching ∧
        n.hash ∉ f.completing ∧
        f.notify env n =
          { f with
            announces := f.announces.insert n.origin ((f.announces.lookup n.origin).getD 0 + 1)
            announced :=
              f.announced.insert n.hash ((f.announced.lookup n.hash).getD [] ++ [n]) }) := by
  unfold notify
  dsimp only
  split_ifs with hlimit hfar hfetch hcomplete
  · exact .inl rfl
  · exact .inl rfl
  · exact .inl rfl
  · exact .inl rfl
  · exact .inr ⟨not_lt.mp hlimit, hfetch, hcomplete, rfl⟩

/-- A key of the fetch timer's loop is left, forgotten, or forgotten and fetched from one of
its announcers. -/
theorem fetchStep_cases (env : Env) (hash : Hash) :
    f.fetchStep env hash = f ∨ f.fetchStep env hash = f.forgetHash hash ∨
      ∃ announce, f.fetchStep env hash =
        { f.forgetHash hash with
          fetching := (f.forgetHash hash).fetching.insert hash announce } := by
  unfold fetchStep
  split
  · split
    · split
      · split
        · rename_i announce _
          dsimp only
          split
          · exact .inr (.inl rfl)
          · exact .inr (.inr ⟨announce, rfl⟩)
        · exact .inl rfl
      · exact .inl rfl
    · exact .inl rfl
  · exact .inl rfl

/-- A key of the completion timer's loop is left, forgotten, or forgotten and completed from
one of the fetched records of that hash. -/
theorem completeStep_cases (env : Env) (hash : Hash) :
    f.completeStep env hash = f ∨ f.completeStep env hash = f.forgetHash hash ∨
      ∃ l announce, f.fetched.lookup hash = some l ∧ announce ∈ l ∧
        f.completeStep env hash =
          { f.forgetHash hash with
            completing := (f.forgetHash hash).completing.insert hash announce } := by
  unfold completeStep
  split
  · rename_i l hl
    split
    · rename_i announce hget
      dsimp only
      split
      · exact .inr (.inl rfl)
      · exact .inr (.inr ⟨l, announce, hl, List.mem_of_getElem? hget, rfl⟩)
    · exact .inl rfl
  · exact .inl rfl

/-- A header is handed back, or its fetch is forgotten, or the fetch's record takes the header
and moves on to completion (an empty block) or to the records needing a body. -/
theorem headerStep_cases (hs : BodyHashes Tx) (env : Env) (peer : P) (time : Int)
    (split : HeaderSplit P Tx) (header : Header) :
    headerStep hs env peer time (f, split) header =
        (f, { split with unknown := split.unknown ++ [header] }) ∨
      headerStep hs env peer time (f, split) header = (f.forgetHash header.hash, split) ∨
      ∃ announce, f.fetching.lookup header.hash = some announce ∧
        header.hash ∉ f.completing ∧
        (headerStep hs env peer time (f, split) header =
            ({ f with
                fetching := f.fetching.insert header.hash
                  { announce with header := some header, time := time }
                completing := f.completing.insert header.hash
                  { announce with header := some header, time := time } },
              { split with complete := split.complete ++ [⟨header, [], [], time⟩] }) ∨
          headerStep hs env peer time (f, split) header =
            ({ f with
                fetching := f.fetching.insert header.hash
                  { announce with header := some header, time := time } },
              { split with incomplete := split.incomplete ++
                  [(header.hash, { announce with header := some header, time := time })] })) := by
  unfold headerStep
  dsimp only
  split
  · rename_i announce hfetch
    split_ifs with hreq hnum hknown hempty
    · exact .inr (.inl rfl)
    · exact .inr (.inr ⟨announce, hfetch, hreq.2.2.1, .inl rfl⟩)
    · exact .inr (.inr ⟨announce, hfetch, hreq.2.2.1, .inr rfl⟩)
    · exact .inr (.inl rfl)
    · exact .inl rfl
  · exact .inl rfl

omit [DecidableEq P] in
theorem scheduleFetched_cases (r : Hash × Announce P) :
    f.scheduleFetched r = f ∨
      (r.1 ∉ f.completing ∧ f.scheduleFetched r =
        { f with fetched := f.fetched.insert r.1 ((f.fetched.lookup r.1).getD [] ++ [r.2]) }) := by
  unfold scheduleFetched
  split_ifs with h
  · exact .inl rfl
  · exact .inr ⟨h, rfl⟩

/-- A key of the loop over `completing` for one body leaves the state or forgets the hash. -/
theorem bodyStep_cases (hs : BodyHashes Tx) (env : Env) (peer : P) (time : Int)
    (transactions : List Tx) (uncles : List Header) (r : Fetcher P Tx × Bool × List (Block Tx))
    (hash : Hash) :
    (bodyStep hs env peer time transactions uncles r hash).1 = r.1 ∨
      (bodyStep hs env peer time transactions uncles r hash).1 = r.1.forgetHash hash := by
  obtain ⟨f, matched, blocks⟩ := r
  unfold bodyStep
  dsimp only
  split
  · split
    · split
      · split
        · split
          · exact .inl rfl
          · exact .inr rfl
        · exact .inl rfl
      · exact .inl rfl
    · exact .inl rfl
  · exact .inl rfl

theorem bodyLoop_cons_fst (hs : BodyHashes Tx) (env : Env) (peer : P) (time : Int)
    (transactions : List Tx) (txss : List (List Tx)) (uncles : List Header)
    (unclss : List (List Header)) :
    (bodyLoop hs env peer time f (transactions :: txss) (uncles :: unclss)).1 =
      (bodyLoop hs env peer time ((env.order f.completing.keys).foldl
        (bodyStep hs env peer time transactions uncles) (f, false, [])).1 txss unclss).1 := by
  rw [bodyLoop]
  rcases (env.order f.completing.keys).foldl (bodyStep hs env peer time transactions uncles)
    (f, false, []) with ⟨f₁, matched, blocks⟩
  dsimp only
  rcases bodyLoop hs env peer time f₁ txss unclss with ⟨f₂, rest, txss', unclss'⟩
  cases matched <;> rfl

/-- What the body loop does to the state is a number of `forgetHash` calls. -/
theorem bodyLoop_keeps (hs : BodyHashes Tx) (env : Env) (peer : P) (time : Int)
    {Q : Fetcher P Tx → Prop} (hQ : ∀ f hash, Q f → Q (f.forgetHash hash)) :
    ∀ (f : Fetcher P Tx) (txss : List (List Tx)) (unclss : List (List Header)), Q f →
      Q (bodyLoop hs env peer time f txss unclss).1 := by
  intro f txss
  induction txss generalizing f with
  | nil => intro unclss hf; cases unclss <;> exact hf
  | cons transactions txss ih =>
    intro unclss hf
    cases unclss with
    | nil => exact hf
    | cons uncles unclss =>
      rw [bodyLoop_cons_fst]
      apply ih
      refine List.foldlRecOn (motive := fun r : Fetcher P Tx × Bool × List (Block Tx) => Q r.1)
        _ _ hf fun r hr hash _ => ?_
      rcases bodyStep_cases hs env peer time transactions uncles r hash with h | h <;> rw [h]
      · exact hr
      · exact hQ _ _ hr

/-! ### The steps that reach the queue -/

/-- `enqueue` forgets the announcement, leaves the state, or queues a block it did not hold for
a peer under its limit. -/
theorem enqueue_cases (height : UInt64) (peer : P) (block : Block Tx) :
    enqueue height f peer block = f.forgetHash block.hash ∨ enqueue height f peer block = f ∨
      ((f.queues.lookup peer).getD 0 + 1 ≤ blockLimit ∧ block.hash ∉ f.queued ∧
        enqueue height f peer block =
          { f with
            queues := f.queues.insert peer ((f.queues.lookup peer).getD 0 + 1)
            queued := f.queued.insert block.hash ⟨peer, block⟩
            queue := f.queue.Push ⟨peer, block⟩ (-block.number.toInt64) }) := by
  unfold enqueue
  dsimp only
  split_ifs with hlimit hfar hmem
  · exact .inl rfl
  · exact .inl rfl
  · exact .inr (.inl rfl)
  · exact .inr (.inr ⟨not_lt.mp hlimit, hmem, rfl⟩)

theorem enqueueCompleted_cases (height : UInt64) (block : Block Tx) :
    f.enqueueCompleted height block = f ∨
      ∃ peer, f.enqueueCompleted height block = enqueue height f peer block := by
  unfold enqueueCompleted
  split
  · rename_i announce _
    exact .inr ⟨announce.origin, rfl⟩
  · exact .inl rfl

/-- A turn of the import loop on a queue that is not empty: the item popped is pushed back,
forgotten, or imported. -/
theorem importQueue_succ {height : UInt64} {known : Hash → Bool} {fuel : Nat} {op : Inject P Tx}
    {q : Prque.Prque (Inject P Tx)} (hne : f.queue.Empty = false)
    (hpop : f.queue.PopItem = some (op, q)) :
    importQueue height known (fuel + 1) f =
      if op.block.number > height + 1 then { f with queue := q.Push op (-op.block.number.toInt64) }
      else if op.block.number + UInt64.ofNat maxUncleDist < height || known op.block.hash then
        importQueue height known fuel ({ f with queue := q }.forgetBlock op.block.hash)
      else importQueue height known fuel ({ f with queue := q }.insert op) := by
  simp only [importQueue, hne, hpop, Bool.false_eq_true, if_false]

theorem importQueue_of_empty {height : UInt64} {known : Hash → Bool} {fuel : Nat}
    (he : f.queue.Empty = true) : importQueue height known fuel f = f := by
  cases fuel with
  | zero => rfl
  | succ fuel => simp only [importQueue, he, if_true]

/-- `forgetBlock` changes only the counts and the queued blocks. -/
theorem forgetBlock_eq_with (hash : Hash) :
    ∃ queues queued, f.forgetBlock hash = { f with queues := queues, queued := queued } := by
  cases h : f.queued.lookup hash with
  | none => exact ⟨f.queues, f.queued, forgetBlock_of_lookup_eq_none f h⟩
  | some op => exact ⟨_, _, forgetBlock_of_lookup f h⟩

/-- The import loop changes only the queue, the counts, the queued blocks and the imports in
flight. -/
theorem importQueue_eq_with (height : UInt64) (known : Hash → Bool) (fuel : Nat) :
    ∃ queue queues queued importing, importQueue height known fuel f =
      { f with queue := queue, queues := queues, queued := queued, importing := importing } := by
  induction fuel generalizing f with
  | zero => exact ⟨f.queue, f.queues, f.queued, f.importing, rfl⟩
  | succ fuel ih =>
    cases he : f.queue.Empty
    · cases hpop : f.queue.PopItem with
      | none =>
        refine ⟨f.queue, f.queues, f.queued, f.importing, ?_⟩
        simp only [importQueue, he, hpop, Bool.false_eq_true, if_false]
      | some r =>
        obtain ⟨op, q⟩ := r
        rw [importQueue_succ f he hpop]
        split_ifs
        · exact ⟨_, f.queues, f.queued, f.importing, rfl⟩
        · obtain ⟨queues, queued, hforget⟩ :=
            forgetBlock_eq_with { f with queue := q } op.block.hash
          obtain ⟨queue', queues', queued', importing', h⟩ :=
            ih ({ f with queue := q }.forgetBlock op.block.hash)
          exact ⟨queue', queues', queued', importing', by rw [h, hforget]⟩
        · obtain ⟨queue', queues', queued', importing', h⟩ :=
            ih ({ f with queue := q }.insert op)
          exact ⟨queue', queues', queued', importing', by rw [h]; rfl⟩
    · exact ⟨f.queue, f.queues, f.queued, f.importing, importQueue_of_empty f he⟩

theorem filterHeaders_fst (hs : BodyHashes Tx) (env : Env) (peer : P) (headers : List Header)
    (time : Int) :
    (f.filterHeaders hs env peer headers time).1 =
      let r := headers.foldl (headerStep hs env peer time) (f, ⟨[], [], []⟩)
      r.2.complete.foldl (enqueueCompleted env.height) (r.2.incomplete.foldl scheduleFetched r.1) :=
  rfl

theorem filterBodies_fst (hs : BodyHashes Tx) (env : Env) (peer : P)
    (transactions : List (List Tx)) (uncles : List (List Header)) (time : Int) :
    (f.filterBodies hs env peer transactions uncles time).1 =
      (bodyLoop hs env peer time f transactions uncles).2.1.foldl (enqueueCompleted env.height)
        (bodyLoop hs env peer time f transactions uncles).1 :=
  rfl

/-! ### Properties of the announce records alone -/

/-- `Q` reads only the announce records and counts: `forgetHash` keeps it, and the import
queue's fields do not reach it. Such a property is kept by every step that touches the records
only through `forgetHash`, which is all of them but `notify`, the two timers and the header
loop. -/
structure RecordsOnly (Q : Fetcher P Tx → Prop) : Prop where
  forgetHash : ∀ f hash, Q f → Q (f.forgetHash hash)
  queue : ∀ f queue queues queued importing, Q f →
    Q { f with queue := queue, queues := queues, queued := queued, importing := importing }

namespace RecordsOnly

variable {f} {Q : Fetcher P Tx → Prop}

theorem enqueue (hQ : RecordsOnly Q) (height : UInt64) (peer : P) (block : Block Tx) (hf : Q f) :
    Q (enqueue height f peer block) := by
  rcases enqueue_cases f height peer block with h | h | ⟨-, -, h⟩ <;> rw [h]
  · exact hQ.forgetHash f _ hf
  · exact hf
  · exact hQ.queue f _ _ _ f.importing hf

theorem enqueueCompleted (hQ : RecordsOnly Q) (height : UInt64) (block : Block Tx) (hf : Q f) :
    Q (f.enqueueCompleted height block) := by
  rcases enqueueCompleted_cases f height block with h | ⟨peer, h⟩ <;> rw [h]
  · exact hf
  · exact hQ.enqueue height peer block hf

theorem prelude (hQ : RecordsOnly Q) (env : Env) (hf : Q f) : Q (f.prelude env) := by
  have hexp : Q (f.expire env) := by
    refine List.foldlRecOn _ _ hf fun g hg hash _ => ?_
    rcases expireStep_cases g env.now hash with h | h <;> rw [h]
    · exact hg
    · exact hQ.forgetHash g hash hg
  obtain ⟨queue, queues, queued, importing, h⟩ := importQueue_eq_with (f.expire env) env.height
    env.known (f.expire env).queue.Size
  show Q (importQueue env.height env.known (f.expire env).queue.Size (f.expire env))
  rw [h]
  exact hQ.queue _ queue queues queued importing hexp

theorem done (hQ : RecordsOnly Q) (hash : Hash) (hf : Q f) : Q (f.done hash) := by
  obtain ⟨queues, queued, h⟩ := forgetBlock_eq_with (f.forgetHash hash) hash
  show Q { (f.forgetHash hash).forgetBlock hash with importing := f.importing.erase hash }
  rw [h]
  exact hQ.queue (f.forgetHash hash) _ queues queued _ (hQ.forgetHash f hash hf)

theorem filterBodies (hQ : RecordsOnly Q) (hs : BodyHashes Tx) (env : Env) (peer : P)
    (transactions : List (List Tx)) (uncles : List (List Header)) (time : Int) (hf : Q f) :
    Q (f.filterBodies hs env peer transactions uncles time).1 := by
  rw [filterBodies_fst]
  have hloop := bodyLoop_keeps hs env peer time hQ.forgetHash f transactions uncles hf
  exact List.foldlRecOn _ _ hloop fun g hg block _ => hQ.enqueueCompleted env.height block hg

end RecordsOnly

end Fetcher

end Ccmchain.Fetcher
