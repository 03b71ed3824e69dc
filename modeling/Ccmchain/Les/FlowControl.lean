import Mathlib

/-!
# `les/flowcontrol`: client side flow control

A server gives each client a buffer of `BufLimit` cost units that recharges at `MinRecharge`
units a millisecond. The server keeps the client's real buffer in a `ClientNode`; the client keeps
a lower estimate of it in a `ServerNode`, lowered by every request it queues and raised by the
buffer values the server reports in its replies. A client that only sends when `CanSend` says so
is meant never to be rejected.

Both sides recharge by `MinRecharge * dt / 1ms`, rounded down, from the time of their last update.
The server updates whenever it accepts or finishes a request, the client when it sends or reads
a reply; each rounding drops a fraction of a unit, and the server can make more of them. A `Link`
puts the two ends of one connection together with the replies in flight, and
`flowControl_rejects_permitted_request` is a run in which the server rejects a request the client
was allowed to send.

Times are `mclock.AbsTime` nanoseconds and `int64` values are `Int64`, `uint64` values `UInt64`,
with Go's wrapping arithmetic. The client manager, the logs and the parameter update schedule
(`UpdateParams`) are left out; `CanSend`'s `float64` ratio is a rational.
-/

namespace Ccmchain.FlowControl

/-- `fcTimeConst`, a millisecond in nanoseconds. -/
def fcTimeConst : UInt64 := 1000000

/-- `safetyMargin`, a millisecond in nanoseconds. -/
def safetyMargin : UInt64 := 1000000

/-- `ServerParams`. -/
structure ServerParams where
  BufLimit : UInt64
  MinRecharge : UInt64

/-! ### The server's view of a client -/

/-- `ClientNode`: `accepted` maps the index of an accepted request to `sumCost` after it. -/
structure ClientNode where
  params : ServerParams
  bufValue : Int64
  lastTime : Int64
  sumCost : UInt64
  accepted : AList fun _ : UInt64 => UInt64

/-- `NewClientNode` at the time `now`. -/
def NewClientNode (params : ServerParams) (now : Int64) : ClientNode :=
  { params, bufValue := params.BufLimit.toInt64, lastTime := now, sumCost := 0, accepted := ∅ }

/-- `ClientNode.recalcBV`. -/
def ClientNode.recalcBV (node : ClientNode) (now : Int64) : ClientNode :=
  let dt : UInt64 := if now < node.lastTime then 0 else (now - node.lastTime).toUInt64
  let bufValue := node.bufValue + (node.params.MinRecharge * dt / fcTimeConst).toInt64
  let bufValue :=
    if bufValue > node.params.BufLimit.toInt64 then node.params.BufLimit.toInt64 else bufValue
  { node with bufValue, lastTime := now }

/-- `ClientNode.update`, whose update schedule is empty without `UpdateParams`. -/
def ClientNode.update (node : ClientNode) (now : Int64) : ClientNode := node.recalcBV now

/-- `ClientNode.AcceptRequest`: whether the request is accepted and the missing buffer amount. -/
def ClientNode.AcceptRequest (node : ClientNode) (index maxCost : UInt64) (now : Int64) :
    (Bool × UInt64) × ClientNode :=
  let node := node.update now
  if maxCost.toInt64 > node.bufValue then ((false, maxCost - node.bufValue.toUInt64), node)
  else
    let node := { node with
      bufValue := node.bufValue - maxCost.toInt64, sumCost := node.sumCost + maxCost }
    ((true, 0), { node with accepted := node.accepted.insert index node.sumCost })

/-- `ClientNode.RequestProcessed`: the buffer value reported in the reply, with the costs
accepted after the request added back. -/
def ClientNode.RequestProcessed (node : ClientNode) (index : UInt64) (now : Int64) :
    UInt64 × ClientNode :=
  let node := node.update now
  let bv := node.bufValue + (node.sumCost - (node.accepted.lookup index).getD 0).toInt64
  let node := { node with accepted := node.accepted.erase index }
  (if bv < 0 then 0 else bv.toUInt64, node)

/-! ### The client's view of a server -/

/-- `ServerNode`: `pending` maps a request id to `sumCost` after it. -/
structure ServerNode where
  bufEstimate : UInt64
  bufRecharge : Bool
  lastTime : Int64
  params : ServerParams
  sumCost : UInt64
  pending : AList fun _ : UInt64 => UInt64

/-- `NewServerNode` at the time `now`. -/
def NewServerNode (params : ServerParams) (now : Int64) : ServerNode :=
  { bufEstimate := params.BufLimit, bufRecharge := false, lastTime := now, params, sumCost := 0,
    pending := ∅ }

/-- `ServerNode.recalcBLE`. -/
def ServerNode.recalcBLE (node : ServerNode) (now : Int64) : ServerNode :=
  if now < node.lastTime then node
  else
    let node :=
      if node.bufRecharge then
        let dt := (now - node.lastTime).toUInt64
        let bufEstimate := node.bufEstimate + node.params.MinRecharge * dt / fcTimeConst
        if bufEstimate ≥ node.params.BufLimit then
          { node with bufEstimate := node.params.BufLimit, bufRecharge := false }
        else { node with bufEstimate }
      else node
    { node with lastTime := now }

/-- `ServerNode.CanSend`: the wait before a request of the given cost may be sent, and the
relative buffer left after it. -/
def ServerNode.CanSend (node : ServerNode) (maxCost : UInt64) (now : Int64) :
    (Int64 × ℚ) × ServerNode :=
  let node := node.recalcBLE now
  let maxCost := maxCost + safetyMargin * node.params.MinRecharge / fcTimeConst
  let maxCost := if maxCost > node.params.BufLimit then node.params.BufLimit else maxCost
  if node.bufEstimate ≥ maxCost then
    ((0, ((node.bufEstimate - maxCost).toNat : ℚ) / node.params.BufLimit.toNat), node)
  else
    ((((maxCost - node.bufEstimate) * fcTimeConst / node.params.MinRecharge).toInt64, 0), node)

/-- `ServerNode.QueuedRequest`. -/
def ServerNode.QueuedRequest (node : ServerNode) (reqID maxCost : UInt64) (now : Int64) :
    ServerNode :=
  let node := node.recalcBLE now
  let bufEstimate := if node.bufEstimate ≥ maxCost then node.bufEstimate - maxCost else 0
  let sumCost := node.sumCost + maxCost
  { node with bufEstimate, sumCost, pending := node.pending.insert reqID sumCost }

/-- `ServerNode.ReceivedReply`. -/
def ServerNode.ReceivedReply (node : ServerNode) (reqID bv : UInt64) (now : Int64) :
    ServerNode :=
  let node := node.recalcBLE now
  let bv := if bv > node.params.BufLimit then node.params.BufLimit else bv
  match node.pending.lookup reqID with
  | none => node
  | some sc =>
    let node := { node with pending := node.pending.erase reqID }
    let cc := node.sumCost - sc
    let newEstimate := if bv > cc then bv - cc else 0
    -- a reply never lowers the estimate: a lower value can only come from a delayed reply
    let bufEstimate := if newEstimate > node.bufEstimate then newEstimate else node.bufEstimate
    { node with bufEstimate, bufRecharge := bufEstimate < node.params.BufLimit, lastTime := now }

/-! ### One connection -/

/-- The client's `ServerNode`, the server's `ClientNode`, and the replies the server has sent that
the client has not read, by request id. -/
structure Link where
  client : ServerNode
  server : ClientNode
  replies : List (UInt64 × UInt64)

/-- Both ends created at `now` with the same parameters. -/
def Link.new (params : ServerParams) (now : Int64) : Link :=
  { client := NewServerNode params now, server := NewClientNode params now, replies := [] }

/-- What happens on a connection: the client sends a request, which the server gets at once; the
server finishes a request and replies; a reply reaches the client. -/
inductive Event where
  | send (reqID index maxCost : UInt64)
  | process (reqID index : UInt64)
  | deliver (reqID : UInt64)

/-- One event at the time `now`. A send asks `CanSend` first and gives its wait together with
the server's answer. -/
def Link.step (l : Link) (now : Int64) : Event → Link × Option (Int64 × Bool)
  | .send reqID index maxCost =>
    let ((wait, _), client) := l.client.CanSend maxCost now
    let client := client.QueuedRequest reqID maxCost now
    let ((accepted, _), server) := l.server.AcceptRequest index maxCost now
    ({ l with client, server }, some (wait, accepted))
  | .process reqID index =>
    let (bv, server) := l.server.RequestProcessed index now
    ({ l with server, replies := l.replies ++ [(reqID, bv)] }, none)
  | .deliver reqID =>
    match l.replies.lookup reqID with
    | none => (l, none)
    | some bv =>
      ({ l with client := l.client.ReceivedReply reqID bv now,
                replies := l.replies.filter fun r => r.1 != reqID }, none)

/-- A timed run of events: the link after it, and the outcome of each event. -/
def Link.run (l : Link) : List (Int64 × Event) → Link × List (Option (Int64 × Bool))
  | [] => (l, [])
  | (now, e) :: es =>
    let (l', outcome) := l.step now e
    let (l'', outcomes) := l'.run es
    (l'', outcome :: outcomes)

/-- Three unit requests at time 0, the first processed and its reply read at once, the others
processed at 0.6 ms and 1.2 ms, then a request of cost 8 at 2 ms. Every send waits 0, and the
server rejects the last: each of its updates before a full millisecond rounds the recharge down
to nothing, so at 2 ms it has 7 units while the client, updating once, estimates 9. -/
theorem flowControl_rejects_permitted_request :
    let params : ServerParams := ⟨10, 1⟩
    let trace : List (Int64 × Event) :=
      [(0, .send 1 1 1), (0, .send 2 2 1), (0, .send 3 3 1), (0, .process 1 1), (0, .deliver 1),
        (600000, .process 2 2), (1200000, .process 3 3), (2000000, .send 4 4 8)]
    1 ≤ params.MinRecharge ∧ params.BufLimit.toNat < 2 ^ 63 ∧
      ((Link.new params 0).run trace).2 =
        [some (0, true), some (0, true), some (0, true), none, none, none, none, some (0, false)] := by
  decide

/-! ### The client's estimate stays within the buffer limit -/

section Estimate

variable (node : ServerNode) (now : Int64)

@[simp] theorem recalcBLE_params : (node.recalcBLE now).params = node.params := by
  unfold ServerNode.recalcBLE
  split
  · rfl
  · split
    · dsimp only
      split <;> rfl
    · rfl

theorem recalcBLE_le (h : node.bufEstimate ≤ node.params.BufLimit) :
    (node.recalcBLE now).bufEstimate ≤ node.params.BufLimit := by
  unfold ServerNode.recalcBLE
  split
  · exact h
  · split
    · dsimp only
      split
      · exact UInt64.le_refl _
      · exact UInt64.le_of_lt (UInt64.not_le.1 ‹_›)
    · exact h

/-- \`CanSend\` changes the node only by bringing its estimate up to date. -/
@[simp] theorem canSend_snd (maxCost : UInt64) :
    (node.CanSend maxCost now).2 = node.recalcBLE now := by
  unfold ServerNode.CanSend
  dsimp only
  split <;> split <;> rfl

@[simp] theorem queuedRequest_params (reqID maxCost : UInt64) :
    (node.QueuedRequest reqID maxCost now).params = node.params := by
  simp [ServerNode.QueuedRequest]

theorem queuedRequest_le (reqID maxCost : UInt64) (h : node.bufEstimate ≤ node.params.BufLimit) :
    (node.QueuedRequest reqID maxCost now).bufEstimate ≤ node.params.BufLimit := by
  have hr := recalcBLE_le node now h
  simp only [ServerNode.QueuedRequest]
  split
  · exact UInt64.le_trans (UInt64.sub_le ‹_›) hr
  · exact UInt64.zero_le

@[simp] theorem receivedReply_params (reqID bv : UInt64) :
    (node.ReceivedReply reqID bv now).params = node.params := by
  unfold ServerNode.ReceivedReply
  dsimp only
  split <;> simp

/-- A reply sets the estimate to at most the reported value, itself capped at the limit. -/
theorem receivedReply_le (reqID bv : UInt64) (h : node.bufEstimate ≤ node.params.BufLimit) :
    (node.ReceivedReply reqID bv now).bufEstimate ≤ node.params.BufLimit := by
  have hr := recalcBLE_le node now h
  unfold ServerNode.ReceivedReply
  dsimp only
  split
  · exact hr
  · simp only [recalcBLE_params]
    -- the reported value is capped at the limit, and the new estimate is at most that value
    generalize hb : (if bv > node.params.BufLimit then node.params.BufLimit else bv) = bv'
    have hbv : bv' ≤ node.params.BufLimit := by
      rw [← hb]
      split
      · exact UInt64.le_refl _
      · exact UInt64.not_lt.1 ‹_›
    generalize hn : (if bv' > _ then bv' - _ else 0) = newEstimate
    have hnew : newEstimate ≤ node.params.BufLimit := by
      rw [← hn]
      split
      · exact UInt64.le_trans (UInt64.sub_le (UInt64.le_of_lt ‹_›)) hbv
      · exact UInt64.zero_le
    split
    · exact hnew
    · exact hr

end Estimate

/-- The client's estimate never exceeds the buffer limit, and its parameters never change. -/
def Link.EstimateOk (l : Link) : Prop := l.client.bufEstimate ≤ l.client.params.BufLimit

theorem Link.step_estimateOk {l : Link} (h : l.EstimateOk) (now : Int64) (e : Event) :
    (l.step now e).1.EstimateOk ∧ (l.step now e).1.client.params = l.client.params := by
  cases e with
  | send reqID index maxCost =>
    have hc := recalcBLE_le l.client now h
    refine ⟨?_, by simp [Link.step]⟩
    simpa [Link.step, Link.EstimateOk] using
      queuedRequest_le (l.client.recalcBLE now) now reqID maxCost (by simpa using hc)
  | process reqID index => exact ⟨h, rfl⟩
  | deliver reqID =>
    simp only [Link.step]
    split
    · exact ⟨h, rfl⟩
    · exact ⟨by simpa [Link.EstimateOk] using receivedReply_le _ now reqID _ h, by simp⟩

/-- Over any run from two fresh ends, the client's estimate stays within the buffer limit. -/
theorem Link.run_estimateOk {l : Link} (h : l.EstimateOk) :
    ∀ trace : List (Int64 × Event), (l.run trace).1.EstimateOk
  | [] => h
  | (now, e) :: es => by
    simp only [Link.run]
    exact Link.run_estimateOk (Link.step_estimateOk h now e).1 es

theorem Link.new_estimateOk (params : ServerParams) (now : Int64) : (Link.new params now).EstimateOk :=
  UInt64.le_refl _

end Ccmchain.FlowControl
