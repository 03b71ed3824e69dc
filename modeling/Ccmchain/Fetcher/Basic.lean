import Ccmchain.Common.Prque
import Ccmchain.Common.Types
import Ccmchain.Lib.AListSum

/-!
# The block fetcher (`ccm/fetcher/fetcher.go`)

`Fetcher.loop` is one goroutine. Each turn it forgets the fetches that timed out, imports the
queued blocks that fit the chain, and then handles one event of its `select`. `Fetcher` holds the
maps the loop keeps, `handle` is the body of each `select` case and `iterate` a whole turn.

What the loop reads from outside is the environment `Env`: the clock, the chain's height and
blocks, the order in which a `range` over a map visits its keys, and what `rand.Intn` answers.
Header and body requests, broadcasts, peer drops and the test hooks are calls out of the loop
that leave its state alone. An import runs on a goroutine of its own that ends by sending the
block's hash to `done`; the model keeps that hash in `importing` until then.
-/

namespace Ccmchain.Fetcher

set_option linter.dupNamespace false

open Ccmchain.Common

/-- `arriveTimeout`, in nanoseconds. -/
def arriveTimeout : Int := 500 * 1000000

/-- `gatherSlack`, in nanoseconds. -/
def gatherSlack : Int := 100 * 1000000

/-- `fetchTimeout`, in nanoseconds. -/
def fetchTimeout : Int := 5 * 1000000000

/-- `maxUncleDist`. -/
def maxUncleDist : Nat := 7

/-- `maxQueueDist`. -/
def maxQueueDist : Nat := 32

/-- `hashLimit`. -/
def hashLimit : Int := 256

/-- `blockLimit`. -/
def blockLimit : Int := 64

/-- The fields of `types.Header` the fetcher reads: `Hash()`, `Number`, `TxHash`, `UncleHash`. -/
structure Header where
  hash : Hash
  number : UInt64
  txHash : Hash
  uncleHash : Hash
  deriving DecidableEq, Repr, Inhabited

/-- `types.Block`: its header, its body and `ReceivedAt`. -/
structure Block (Tx : Type) where
  header : Header
  transactions : List Tx
  uncles : List Header
  receivedAt : Int
  deriving Inhabited

/-- `Block.Hash`. -/
def Block.hash {Tx : Type} (b : Block Tx) : Hash := b.header.hash

/-- `Block.NumberU64`. -/
def Block.number {Tx : Type} (b : Block Tx) : UInt64 := b.header.number

/-- `types.DeriveSha` on a body's transactions and `types.CalcUncleHash` on its uncles. -/
structure BodyHashes (Tx : Type) where
  DeriveSha : List Tx → Hash
  CalcUncleHash : List Header → Hash

/-- `announce`, without the two request callbacks. -/
structure Announce (P : Type) where
  hash : Hash
  number : UInt64
  header : Option Header
  time : Int
  origin : P

/-- `inject`. -/
structure Inject (P Tx : Type) where
  origin : P
  block : Block Tx

instance instInhabitedInject {P Tx : Type} [Inhabited P] : Inhabited (Inject P Tx) :=
  ⟨⟨default, default⟩⟩

/-- The state `Fetcher.loop` keeps. `importing` holds the hash of each import goroutine that has
not sent its `done` yet. -/
structure Fetcher (P Tx : Type) where
  announces : AList (fun _ : P => Int)
  announced : AList (fun _ : Hash => List (Announce P))
  fetching : AList (fun _ : Hash => Announce P)
  fetched : AList (fun _ : Hash => List (Announce P))
  completing : AList (fun _ : Hash => Announce P)
  queue : Prque.Prque (Inject P Tx)
  queues : AList (fun _ : P => Int)
  queued : AList (fun _ : Hash => Inject P Tx)
  importing : List Hash

/-- What the loop reads from outside during one turn. -/
structure Env where
  /-- `time.Now()`, in nanoseconds. -/
  now : Int
  /-- `f.chainHeight()`. -/
  height : UInt64
  /-- `f.getBlock(hash) != nil`. -/
  known : Hash → Bool
  /-- The order a `range` over a map with these keys visits them. -/
  order : List Hash → List Hash
  /-- `rand.Intn(n)` drawn for the announces of a hash. -/
  rand : Hash → Nat → Nat

/-- What Go guarantees of the environment: a `range` visits every key once, and `rand.Intn(n)`
is below `n`. -/
structure Env.Valid (env : Env) : Prop where
  order_perm : ∀ l, (env.order l).Perm l
  rand_lt : ∀ h n, 0 < n → env.rand h n < n

/-- `dist < -maxUncleDist || dist > maxQueueDist` for `dist := int64(number) - int64(height)`. -/
def tooFar (number height : UInt64) : Bool :=
  let dist := number.toInt64 - height.toInt64
  dist < -Int64.ofNat maxUncleDist || dist > Int64.ofNat maxQueueDist

variable {P Tx : Type} [DecidableEq P]

/-- `New`: every map empty, and a queue without a callback. -/
def New : Fetcher P Tx :=
  ⟨∅, ∅, ∅, ∅, ∅, Prque.New false, ∅, ∅, []⟩

namespace Fetcher

/-! ### The helpers -/

/-- `f.announces[origin]--`, deleting a count that drops to zero or below. -/
def dropAnnounce (announces : AList (fun _ : P => Int)) (origin : P) : AList (fun _ : P => Int) :=
  let count := (announces.lookup origin).getD 0 - 1
  if count ≤ 0 then announces.erase origin else announces.insert origin count

/-- The origins of the records `forgetHash` takes away for `hash`, in the order it visits them:
the announces, the fetch, the fetched headers and the completion. -/
def originsOf (f : Fetcher P Tx) (hash : Hash) : List P :=
  ((f.announced.lookup hash).getD []).map (·.origin) ++
    ((f.fetching.lookup hash).map (·.origin)).toList ++
    ((f.fetched.lookup hash).getD []).map (·.origin) ++
    ((f.completing.lookup hash).map (·.origin)).toList

/-- `forgetHash`. Its decrements touch only `announces` and its deletes only the four maps of
records, so it is the same to make every decrement first, in Go's order, and then the deletes. -/
def forgetHash (f : Fetcher P Tx) (hash : Hash) : Fetcher P Tx :=
  { f with
    announces := (f.originsOf hash).foldl dropAnnounce f.announces
    announced := f.announced.erase hash
    fetching := f.fetching.erase hash
    fetched := f.fetched.erase hash
    completing := f.completing.erase hash }

/-- `forgetBlock`. Unlike `announces`, a count of `queues` is deleted only when it is exactly
zero. -/
def forgetBlock (f : Fetcher P Tx) (hash : Hash) : Fetcher P Tx :=
  match f.queued.lookup hash with
  | some insert =>
    let count := (f.queues.lookup insert.origin).getD 0 - 1
    { f with
      queues := if count = 0 then f.queues.erase insert.origin
        else f.queues.insert insert.origin count
      queued := f.queued.erase hash }
  | none => f

/-- `enqueue`. -/
def enqueue (height : UInt64) (f : Fetcher P Tx) (peer : P) (block : Block Tx) : Fetcher P Tx :=
  let hash := block.hash
  -- ensure the peer isn't DOSing us
  let count := (f.queues.lookup peer).getD 0 + 1
  if count > blockLimit then f.forgetHash hash
  -- discard any past or too distant blocks
  else if tooFar block.number height then f.forgetHash hash
  else if hash ∈ f.queued then f
  else
    let op : Inject P Tx := ⟨peer, block⟩
    { f with
      queues := f.queues.insert peer count
      queued := f.queued.insert hash op
      queue := f.queue.Push op (-block.number.toInt64) }

/-- `insert`: the import goroutine starts, and owes a `done` for the block's hash. -/
def insert (f : Fetcher P Tx) (op : Inject P Tx) : Fetcher P Tx :=
  { f with importing := f.importing ++ [op.block.hash] }

/-! ### The top of the loop -/

/-- One key of `for hash, announce := range f.fetching`: forget a fetch that timed out. -/
def expireStep (now : Int) (f : Fetcher P Tx) (hash : Hash) : Fetcher P Tx :=
  match f.fetching.lookup hash with
  | some announce => if now - announce.time > fetchTimeout then f.forgetHash hash else f
  | none => f

/-- Clean up any expired block fetches. -/
def expire (env : Env) (f : Fetcher P Tx) : Fetcher P Tx :=
  (env.order f.fetching.keys).foldl (expireStep env.now) f

/-- The loop `for !f.queue.Empty()`, given a number of turns: every turn that goes on takes an
item off the queue, so as many turns as the queue holds items are enough. -/
def importQueue (height : UInt64) (known : Hash → Bool) : Nat → Fetcher P Tx → Fetcher P Tx
  | 0, f => f
  | fuel + 1, f =>
    if f.queue.Empty then f
    else
      match f.queue.PopItem with
      | none => f
      | some (op, queue) =>
        let f := { f with queue := queue }
        let number := op.block.number
        -- too high up the chain: push it back and continue later
        if number > height + 1 then { f with queue := f.queue.Push op (-number.toInt64) }
        else if number + UInt64.ofNat maxUncleDist < height || known op.block.hash then
          importQueue height known fuel (f.forgetBlock op.block.hash)
        else importQueue height known fuel (f.insert op)

/-- What the loop does before it waits for an event. -/
def prelude (env : Env) (f : Fetcher P Tx) : Fetcher P Tx :=
  let f := f.expire env
  importQueue env.height env.known f.queue.Size f

/-! ### The cases of the `select` -/

/-- `case notification := <-f.notify`. -/
def notify (env : Env) (f : Fetcher P Tx) (notification : Announce P) : Fetcher P Tx :=
  -- a block was announced, make sure the peer isn't DOSing us
  let count := (f.announces.lookup notification.origin).getD 0 + 1
  if count > hashLimit then f
  -- if we have a valid block number, check that it's potentially useful
  else if notification.number > 0 && tooFar notification.number env.height then f
  -- all is well, schedule the announce if the block's not yet downloading
  else if notification.hash ∈ f.fetching then f
  else if notification.hash ∈ f.completing then f
  else
    { f with
      announces := f.announces.insert notification.origin count
      announced := f.announced.insert notification.hash
        ((f.announced.lookup notification.hash).getD [] ++ [notification]) }

/-- One key of `for hash, announces := range f.announced` when the fetch timer fires. A list
without the element Go indexes, where it would panic, never occurs. -/
def fetchStep (env : Env) (f : Fetcher P Tx) (hash : Hash) : Fetcher P Tx :=
  match f.announced.lookup hash with
  | some announces =>
    match announces.head? with
    | some first =>
      if env.now - first.time > arriveTimeout - gatherSlack then
        -- pick a random peer to retrieve from, reset all others
        match announces[env.rand hash announces.length]? with
        | some announce =>
          let f := f.forgetHash hash
          -- if the block still didn't arrive, queue for fetching
          if env.known hash then f else { f with fetching := f.fetching.insert hash announce }
        | none => f
      else f
    | none => f
  | none => f

/-- `case <-fetchTimer.C`. -/
def fetchTimer (env : Env) (f : Fetcher P Tx) : Fetcher P Tx :=
  (env.order f.announced.keys).foldl (fetchStep env) f

/-- One key of `for hash, announces := range f.fetched` when the completion timer fires. -/
def completeStep (env : Env) (f : Fetcher P Tx) (hash : Hash) : Fetcher P Tx :=
  match f.fetched.lookup hash with
  | some announces =>
    -- pick a random peer to retrieve from, reset all others
    match announces[env.rand hash announces.length]? with
    | some announce =>
      let f := f.forgetHash hash
      -- if the block still didn't arrive, queue for completion
      if env.known hash then f else { f with completing := f.completing.insert hash announce }
    | none => f
  | none => f

/-- `case <-completeTimer.C`. -/
def completeTimer (env : Env) (f : Fetcher P Tx) : Fetcher P Tx :=
  (env.order f.fetched.keys).foldl (completeStep env) f

/-- What the header filter sorts the delivered headers into: those it hands back, the records
that need a body (with the hash of the header just stored in them), and the blocks that need
none. -/
structure HeaderSplit (P Tx : Type) where
  unknown : List Header
  incomplete : List (Hash × Announce P)
  complete : List (Block Tx)

/-- One header of the loop over `task.headers`. The record in `fetching` is a pointer that the
loop writes the header and the time into, so the model writes it back. -/
def headerStep (hs : BodyHashes Tx) (env : Env) (peer : P) (time : Int)
    (r : Fetcher P Tx × HeaderSplit P Tx) (header : Header) : Fetcher P Tx × HeaderSplit P Tx :=
  let (f, split) := r
  let hash := header.hash
  match f.fetching.lookup hash with
  | some announce =>
    -- filter fetcher-requested headers from other synchronisation algorithms
    if announce.origin = peer ∧ hash ∉ f.fetched ∧ hash ∉ f.completing ∧ hash ∉ f.queued then
      -- the delivered header does not match the promised number: drop the announcer
      if header.number ≠ announce.number then (f.forgetHash hash, split)
      -- only keep if not imported by other means
      else if !env.known hash then
        let announce := { announce with header := some header, time := time }
        let f := { f with fetching := f.fetching.insert hash announce }
        -- an empty block (header only) short circuits into the final import queue
        if header.txHash = hs.DeriveSha [] ∧ header.uncleHash = hs.CalcUncleHash [] then
          ({ f with completing := f.completing.insert hash announce },
            { split with complete := split.complete ++ [⟨header, [], [], time⟩] })
        else (f, { split with incomplete := split.incomplete ++ [(hash, announce)] })
      else (f.forgetHash hash, split)
    else (f, { split with unknown := split.unknown ++ [header] })
  | none => (f, { split with unknown := split.unknown ++ [header] })

/-- Schedule a retrieved header for body completion. -/
def scheduleFetched (f : Fetcher P Tx) (r : Hash × Announce P) : Fetcher P Tx :=
  if r.1 ∈ f.completing then f
  else { f with fetched := f.fetched.insert r.1 ((f.fetched.lookup r.1).getD [] ++ [r.2]) }

/-- Schedule an assembled block for import, if its completion is still pending. -/
def enqueueCompleted (height : UInt64) (f : Fetcher P Tx) (block : Block Tx) : Fetcher P Tx :=
  match f.completing.lookup block.hash with
  | some announce => enqueue height f announce.origin block
  | none => f

/-- `case filter := <-f.headerFilter`: the new state and the headers handed back. -/
def filterHeaders (hs : BodyHashes Tx) (env : Env) (f : Fetcher P Tx) (peer : P)
    (headers : List Header) (time : Int) : Fetcher P Tx × List Header :=
  let (f, split) := headers.foldl (headerStep hs env peer time) (f, ⟨[], [], []⟩)
  let f := split.incomplete.foldl scheduleFetched f
  let f := split.complete.foldl (enqueueCompleted env.height) f
  (f, split.unknown)

/-- One key of `for hash, announce := range f.completing` for one delivered body: whether some
request matched so far, and the blocks assembled. -/
def bodyStep (hs : BodyHashes Tx) (env : Env) (peer : P) (time : Int) (transactions : List Tx)
    (uncles : List Header) (r : Fetcher P Tx × Bool × List (Block Tx)) (hash : Hash) :
    Fetcher P Tx × Bool × List (Block Tx) :=
  let (f, matched, blocks) := r
  match f.completing.lookup hash with
  | some announce =>
    if hash ∉ f.queued then
      match announce.header with
      | some header =>
        if hs.DeriveSha transactions = header.txHash ∧ hs.CalcUncleHash uncles = header.uncleHash ∧
            announce.origin = peer then
          -- mark the body matched, reassemble if still unknown
          if !env.known hash then (f, true, blocks ++ [⟨header, transactions, uncles, time⟩])
          else (f.forgetHash hash, true, blocks)
        else (f, matched, blocks)
      -- a record without a header, which Go would dereference, never occurs
      | none => (f, matched, blocks)
    else (f, matched, blocks)
  | none => (f, matched, blocks)

/-- The loop over the delivered bodies: a body some request matched is taken out of the task and
the index stays, the others stay in the task; what lies past the shorter list stays as well. -/
def bodyLoop (hs : BodyHashes Tx) (env : Env) (peer : P) (time : Int) :
    Fetcher P Tx → List (List Tx) → List (List Header) →
      Fetcher P Tx × List (Block Tx) × List (List Tx) × List (List Header)
  | f, transactions :: txss, uncles :: unclss =>
    let (f, matched, blocks) := (env.order f.completing.keys).foldl
      (bodyStep hs env peer time transactions uncles) (f, false, [])
    let (f, rest, txss, unclss) := bodyLoop hs env peer time f txss unclss
    if matched then (f, blocks ++ rest, txss, unclss)
    else (f, blocks ++ rest, transactions :: txss, uncles :: unclss)
  | f, txss, unclss => (f, [], txss, unclss)

/-- `case filter := <-f.bodyFilter`: the new state and the bodies handed back. -/
def filterBodies (hs : BodyHashes Tx) (env : Env) (f : Fetcher P Tx) (peer : P)
    (transactions : List (List Tx)) (uncles : List (List Header)) (time : Int) :
    Fetcher P Tx × List (List Tx) × List (List Header) :=
  let (f, blocks, transactions, uncles) := bodyLoop hs env peer time f transactions uncles
  (blocks.foldl (enqueueCompleted env.height) f, transactions, uncles)

/-- `case hash := <-f.done`: an import ended; remove all traces of the block. -/
def done (f : Fetcher P Tx) (hash : Hash) : Fetcher P Tx :=
  { (f.forgetHash hash).forgetBlock hash with importing := f.importing.erase hash }

end Fetcher

/-- The events of the loop's `select`, but `quit`, after which the loop returns. -/
inductive Event (P Tx : Type) where
  | notify (peer : P) (hash : Hash) (number : UInt64) (time : Int)
  | inject (peer : P) (block : Block Tx)
  | done (hash : Hash)
  | fetchTimer
  | completeTimer
  | headerFilter (peer : P) (headers : List Header) (time : Int)
  | bodyFilter (peer : P) (transactions : List (List Tx)) (uncles : List (List Header)) (time : Int)

namespace Fetcher

/-- The body of each `select` case. -/
def handle (hs : BodyHashes Tx) (env : Env) (f : Fetcher P Tx) : Event P Tx → Fetcher P Tx
  | .notify peer hash number time => f.notify env ⟨hash, number, none, time, peer⟩
  | .inject peer block => enqueue env.height f peer block
  | .done hash => f.done hash
  | .fetchTimer => f.fetchTimer env
  | .completeTimer => f.completeTimer env
  | .headerFilter peer headers time => (f.filterHeaders hs env peer headers time).1
  | .bodyFilter peer transactions uncles time =>
    (f.filterBodies hs env peer transactions uncles time).1

/-- One turn of the loop: its top under the environment `pre`, then an event under `env`. -/
def iterate (hs : BodyHashes Tx) (pre env : Env) (ev : Event P Tx) (f : Fetcher P Tx) :
    Fetcher P Tx :=
  (f.prelude pre).handle hs env ev

/-- The events that can arrive: a `done` comes only from an import in flight. -/
def Enabled (f : Fetcher P Tx) : Event P Tx → Prop
  | .done hash => hash ∈ f.importing
  | _ => True

end Fetcher

/-- The states the loop reaches from `New`. -/
inductive Reachable (hs : BodyHashes Tx) : Fetcher P Tx → Prop
  | new : Reachable hs New
  | step {f : Fetcher P Tx} (pre env : Env) (ev : Event P Tx) : Reachable hs f → pre.Valid →
      env.Valid → (f.prelude pre).Enabled ev → Reachable hs (f.iterate hs pre env ev)

end Ccmchain.Fetcher
