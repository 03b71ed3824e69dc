import Ccmchain.State.Accounts

/-!
# Applying a message (`core/state_transition.go`, `core/gaspool.go`)

`ApplyMessage` runs `TransitionDb` on a fresh `StateTransition`: it checks the nonce, buys the
message's gas from the block's `GasPool` and from the sender's balance, pays the intrinsic gas,
runs the EVM, refunds what is left (with the refund counter, capped at half the gas used) to the
sender and to the pool, and pays the coinbase for the gas used.

The EVM is a parameter: `Call` and `Create` may run any code on the `StateDB`, and hand back at
most the gas they were given. A Go panic (of the pool, or of the state) is the error of
`TransitionM`; the errors `TransitionDb` returns are part of its result.

The gas pool is not given back on every error: `buyGas` takes `msg.Gas()` from it, and the two
errors `TransitionDb` returns after that, an intrinsic gas above the gas bought and
`ErrInsufficientBalance` from the EVM, return without refunding it.
-/

namespace Ccmchain.Core

open Common State EStateM StateDB

/-- `params.TxGas`. -/
def TxGas : UInt64 := 21000
/-- `params.TxGasContractCreation`. -/
def TxGasContractCreation : UInt64 := 53000
/-- `params.TxDataZeroGas`. -/
def TxDataZeroGas : UInt64 := 4
/-- `params.TxDataNonZeroGas`. -/
def TxDataNonZeroGas : UInt64 := 68

/-- The errors of `core/vm` a state transition tells apart. -/
inductive VmError where
  | outOfGas
  | insufficientBalance
  /-- Any other error of the EVM (`ErrDepth`, a revert, ...), which does not affect
  consensus. -/
  | other (msg : String)
  deriving DecidableEq, Repr

/-- The errors `ApplyMessage` returns. -/
inductive Error where
  | nonceTooHigh
  | nonceTooLow
  | insufficientBalanceForGas
  | gasLimitReached
  | vm (e : VmError)
  deriving DecidableEq, Repr

/-- `Message`: what a state transition reads of the message it applies. -/
structure Message where
  From : Address
  To : Option Address
  GasPrice : Int
  Gas : UInt64
  Value : Int
  Nonce : UInt64
  CheckNonce : Bool
  Data : Bytes

/-- The EVM as `TransitionDb` uses it: the coinbase, whether Homestead is in force at the block,
and `Call` and `Create`, which may run any code on the state but hand back at most the gas they
were given. -/
structure EVM where
  Coinbase : Address
  /-- `ChainConfig().IsHomestead(BlockNumber)`. -/
  homestead : Bool
  Call : Address → Address → Bytes → UInt64 → Int → StateDBM (Bytes × UInt64 × Option VmError)
  Create : Address → Bytes → UInt64 → Int → StateDBM (Bytes × Address × UInt64 × Option VmError)
  call_le : ∀ caller addr input gas value s ret leftOverGas err s',
    Call caller addr input gas value s = .ok (ret, leftOverGas, err) s' → leftOverGas ≤ gas
  create_le : ∀ caller code gas value s ret contractAddr leftOverGas err s',
    Create caller code gas value s = .ok (ret, contractAddr, leftOverGas, err) s' →
      leftOverGas ≤ gas

/-- `Call` and `Create` return from every state: the EVM does not panic. -/
def EVM.Returns (evm : EVM) : Prop :=
  (∀ caller addr input gas value s, ∃ r t, evm.Call caller addr input gas value s = .ok r t) ∧
  ∀ caller code gas value s, ∃ r t, evm.Create caller code gas value s = .ok r t

/-! ### `gaspool.go` -/

/-- `GasPool`: the gas the rest of a block's transactions may use. -/
abbrev GasPool := UInt64

/-- `GasPool.AddGas`: panics past `uint64`. -/
def GasPool.AddGas (gp : GasPool) (amount : UInt64) : Except String GasPool :=
  if gp > MaxUint64 - amount then .error "gas pool pushed above uint64" else .ok (gp + amount)

/-- `GasPool.SubGas`. -/
def GasPool.SubGas (gp : GasPool) (amount : UInt64) : Except Error GasPool :=
  if gp < amount then .error .gasLimitReached else .ok (gp - amount)

/-! ### `state_transition.go` -/

/-- `IntrinsicGas`: the gas a message pays before any code runs, or `ErrOutOfGas` when it
passes `uint64`. -/
def IntrinsicGas (data : Bytes) (contractCreation homestead : Bool) : Except VmError UInt64 := do
  -- Set the starting gas for the raw transaction
  let gas : UInt64 := if contractCreation && homestead then TxGasContractCreation else TxGas
  -- Bump the required gas by the amount of transactional data
  if data.length > 0 then
    -- Zero and non-zero bytes are priced differently
    let nz : UInt64 := data.foldl (fun nz byt => if byt ≠ 0 then nz + 1 else nz) 0
    -- Make sure we don't exceed uint64 for all data combinations
    if (MaxUint64 - gas) / TxDataNonZeroGas < nz then throw .outOfGas
    let gas := gas + nz * TxDataNonZeroGas
    let z := data.length.toUInt64 - nz
    if (MaxUint64 - gas) / TxDataZeroGas < z then throw .outOfGas
    return gas + z * TxDataZeroGas
  else return gas

/-- What `TransitionDb` changes: the gas counters of the `StateTransition`, the `GasPool` it
points to, and the EVM's `StateDB`. -/
structure Transition where
  gas : UInt64
  initialGas : UInt64
  gp : GasPool
  state : StateDB

/-- Methods of a `StateTransition`; an error is a panic. -/
abbrev TransitionM := EStateM String Transition

/-- A `StateDB` method called through `st.state`. -/
def onState {α : Type} (x : StateDBM α) : TransitionM α :=
  zoom Transition.state (fun state st => { st with state := state }) x

/-- `to` (a keyword here): the recipient, the zero address for a contract creation. -/
def toAddress (msg : Message) : Address := msg.To.getD 0

/-- `useGas`. -/
def useGas (amount : UInt64) : TransitionM (Option Error) := do
  let st ← get
  if st.gas < amount then return some (.vm .outOfGas)
  set { st with gas := st.gas - amount }
  return none

/-- `buyGas`: `msg.Gas()` taken from the pool and, at the gas price, from the sender. -/
def buyGas (msg : Message) : TransitionM (Option Error) := do
  let mgval : Int := msg.Gas.toNat * msg.GasPrice
  if (← onState (GetBalance msg.From)) < mgval then return some .insufficientBalanceForGas
  match GasPool.SubGas (← get).gp msg.Gas with
  | .error err => return some err
  | .ok gp =>
    modify fun st => { st with gp := gp, gas := st.gas + msg.Gas, initialGas := msg.Gas }
    onState (SubBalance msg.From mgval)
    return none

/-- `preCheck`: the nonce, then `buyGas`. -/
def preCheck (msg : Message) : TransitionM (Option Error) := do
  -- Make sure this transaction's nonce is correct.
  if msg.CheckNonce then
    let nonce ← onState (GetNonce msg.From)
    if nonce < msg.Nonce then return some .nonceTooHigh
    else if nonce > msg.Nonce then return some .nonceTooLow
  buyGas msg

/-- `gasUsed`. -/
def gasUsed : TransitionM UInt64 := do
  let st ← get
  return st.initialGas - st.gas

/-- `refundGas`: the refund counter, capped at half the gas used, back to the gas left, which
goes back to the sender at the gas price and to the pool. -/
def refundGas (msg : Message) : TransitionM Unit := do
  -- Apply refund counter, capped to half of the used gas.
  let refund := (← gasUsed) / 2
  let counter ← onState GetRefund
  let refund := if refund > counter then counter else refund
  modify fun st => { st with gas := st.gas + refund }
  -- Return CCM for remaining gas, exchanged at the original rate.
  let remaining : Int := (← get).gas.toNat * msg.GasPrice
  onState (AddBalance msg.From remaining)
  -- Also return remaining gas to the block gas counter so it is available for the next
  -- transaction.
  let st ← get
  match GasPool.AddGas st.gp st.gas with
  | .error e => throw e
  | .ok gp => set { st with gp := gp }

/-- The EVM run of `TransitionDb`: `Create` for a message without recipient, else the nonce
bumped and `Call`; the gas left replaces the gas of the transition. -/
def runEVM (evm : EVM) (msg : Message) : TransitionM (Bytes × Option VmError) := do
  let sender := msg.From
  if msg.To.isNone then
    let (ret, _, leftOverGas, vmerr) ← onState (evm.Create sender msg.Data (← get).gas msg.Value)
    modify fun st => { st with gas := leftOverGas }
    return (ret, vmerr)
  else
    -- Increment the nonce for the next transaction
    onState (do SetNonce msg.From ((← GetNonce sender) + 1))
    let (ret, leftOverGas, vmerr) ← onState (evm.Call sender (toAddress msg) msg.Data (← get).gas msg.Value)
    modify fun st => { st with gas := leftOverGas }
    return (ret, vmerr)

/-- `TransitionDb`: the return data, the gas used, whether the EVM failed, and the error. -/
def TransitionDb (evm : EVM) (msg : Message) : TransitionM (Bytes × UInt64 × Bool × Option Error) := do
  if let some err := ← preCheck msg then return ([], 0, false, some err)
  let contractCreation := msg.To.isNone
  -- Pay intrinsic gas
  match IntrinsicGas msg.Data contractCreation evm.homestead with
  | .error err => return ([], 0, false, some (.vm err))
  | .ok gas =>
    if let some err := ← useGas gas then return ([], 0, false, some err)
    let (ret, vmerr) ← runEVM evm msg
    -- The only possible consensus-error would be if there wasn't sufficient balance to make the
    -- transfer happen.
    if vmerr = some .insufficientBalance then return ([], 0, false, some (.vm .insufficientBalance))
    refundGas msg
    onState (AddBalance evm.Coinbase ((← gasUsed).toNat * msg.GasPrice))
    return (ret, ← gasUsed, vmerr.isSome, none)

/-- `ApplyMessage`, on a fresh `StateTransition` over the pool `gp` and the state `state`. -/
def ApplyMessage (evm : EVM) (msg : Message) (gp : GasPool) (state : StateDB) :
    EStateM.Result String Transition (Bytes × UInt64 × Bool × Option Error) :=
  TransitionDb evm msg ⟨0, 0, gp, state⟩

/-! ### One lemma per step -/

/-- The errors `preCheck` returns, before any gas is bought. -/
def Error.beforeBuy : Error → Bool
  | .vm _ => false
  | _ => true

/-- Why `preCheck` refuses a message, judged on the transition it starts from. -/
def Refused (msg : Message) (st : Transition) : Error → Prop
  | .nonceTooHigh => msg.CheckNonce = true ∧ (view st.state).nonce msg.From < msg.Nonce
  | .nonceTooLow => msg.CheckNonce = true ∧ msg.Nonce < (view st.state).nonce msg.From
  | .insufficientBalanceForGas => (view st.state).balance msg.From < msg.Gas.toNat * msg.GasPrice
  | .gasLimitReached => st.gp < msg.Gas
  | .vm _ => False

/-- What the checks before the EVM leave: on an error, the reason and the counters as they
were; otherwise `msg.Gas()` moved from the pool to the transition and paid for by the sender at
the gas price. -/
def Bought (msg : Message) (st st' : Transition) : Option Error → Prop
  | some e => Refused msg st e ∧ st'.gp = st.gp ∧ st'.gas = st.gas ∧ st'.initialGas = st.initialGas
  | none => msg.Gas.toNat * msg.GasPrice ≤ (view st.state).balance msg.From ∧ msg.Gas ≤ st.gp ∧
      st'.gp = st.gp - msg.Gas ∧ st'.gas = st.gas + msg.Gas ∧ st'.initialGas = msg.Gas ∧
      ∀ b, (view st'.state).balance b =
        (view st.state).balance b - if b = msg.From then msg.Gas.toNat * msg.GasPrice else 0

theorem Refused.beforeBuy {msg : Message} {st : Transition} {e : Error} (h : Refused msg st e) :
    e.beforeBuy = true := by
  cases e with
  | vm e => exact h.elim
  | _ => rfl

section Steps

variable {msg : Message} {st st' : Transition}

theorem onState_of_ok {α : Type} {x : StateDBM α} {a : α} {t : StateDB}
    (h : x st.state = .ok a t) : onState x st = .ok a { st with state := t } :=
  zoom_of_ok h

theorem onState_eq_ok {α : Type} {x : StateDBM α} {a : α} :
    onState x st = .ok a st' ↔ ∃ t, x st.state = .ok a t ∧ { st with state := t } = st' :=
  zoom_eq_ok

theorem useGas_eq (amount : UInt64) (st : Transition) :
    useGas amount st = if st.gas < amount then .ok (some (.vm .outOfGas)) st
      else .ok none { st with gas := st.gas - amount } := by
  unfold useGas
  simp only [get_bind_apply]
  split_ifs <;> rfl

theorem buyGas_spec (msg : Message) (st : Transition) :
    ∃ r st', buyGas msg st = .ok r st' ∧ st'.state.db = st.state.db ∧ Bought msg st st' r := by
  unfold buyGas
  rw [bind_of_ok (onState_of_ok (getBalance_eq st.state msg.From)), ite_apply_state]
  split_ifs with hbal
  · exact ⟨_, _, rfl, rfl, hbal, rfl, rfl, rfl⟩
  simp only [get_bind_apply, GasPool.SubGas]
  split_ifs with hgp
  · exact ⟨_, _, rfl, rfl, hgp, rfl, rfl, rfl⟩
  -- the gas is bought: the pool pays it, and the sender pays its price
  obtain ⟨s₂, h₂, -⟩ := subBalance_grows (s := { st.state with stateObjects := loadObjects st.state msg.From })
    (a := msg.From) (msg.Gas.toNat * msg.GasPrice)
  simp only [modify_bind_apply]
  rw [bind_of_ok (onState_of_ok h₂)]
  have hbal₂ := balance_subBalance h₂
  refine ⟨none, _, rfl, (hbal₂ msg.From).1, Int.not_lt.mp hbal, by simpa using hgp, rfl, rfl, rfl,
    fun b => ?_⟩
  rw [(hbal₂ b).2, view_loadObjects]

theorem Refused.of_view {st₁ : Transition} {e : Error} (h : Refused msg st₁ e)
    (hgp : st₁.gp = st.gp) (hv : view st₁.state = view st.state) : Refused msg st e := by
  cases e with
  | vm e => exact h.elim
  | _ => simpa only [Refused, ← hgp, ← hv] using h

/-- Loading into caches before the checks changes nothing they are judged by. -/
theorem Bought.of_view {st₁ : Transition} {r : Option Error} (h : Bought msg st₁ st' r)
    (hgp : st₁.gp = st.gp) (hgas : st₁.gas = st.gas) (hinit : st₁.initialGas = st.initialGas)
    (hv : view st₁.state = view st.state) : Bought msg st st' r := by
  cases r with
  | some e =>
    obtain ⟨he, h₁, h₂, h₃⟩ := h
    exact ⟨he.of_view hgp hv, h₁.trans hgp, h₂.trans hgas, h₃.trans hinit⟩
  | none =>
    obtain ⟨hb, h₀, h₁, h₂, h₃, h₄⟩ := h
    exact ⟨hv ▸ hb, hgp ▸ h₀, hgp ▸ h₁, hgas ▸ h₂, h₃, fun b => hv ▸ h₄ b⟩

theorem preCheck_spec (msg : Message) (st : Transition) :
    ∃ r st', preCheck msg st = .ok r st' ∧ st'.state.db = st.state.db ∧ Bought msg st st' r := by
  unfold preCheck
  cases hc : msg.CheckNonce
  · simpa using buyGas_spec msg st
  simp only [if_true]
  rw [bind_of_ok (onState_of_ok (getNonce_eq st.state msg.From))]
  split_ifs with hhigh hlow
  · exact ⟨_, _, rfl, rfl, ⟨hc, hhigh⟩, rfl, rfl, rfl⟩
  · exact ⟨_, _, rfl, rfl, ⟨hc, hlow⟩, rfl, rfl, rfl⟩
  · obtain ⟨r, st', h, hdb, hb⟩ := buyGas_spec msg { st with state := { st.state with stateObjects := loadObjects st.state msg.From } }
    exact ⟨r, st', h, hdb, hb.of_view rfl rfl rfl (view_loadObjects _ _)⟩

/-- The EVM run changes only the state and the gas left, which it never raises. -/
theorem runEVM_spec {evm : EVM} {r : Bytes × Option VmError} (h : runEVM evm msg st = .ok r st') :
    st'.gp = st.gp ∧ st'.initialGas = st.initialGas ∧ st'.gas ≤ st.gas := by
  unfold runEVM at h
  split at h
  · simp only [get_bind_apply] at h
    obtain ⟨⟨ret, addr, left, vmerr⟩, st₁, h₁, h₂⟩ := bind_eq_ok.mp h
    obtain ⟨t, hc, rfl⟩ := onState_eq_ok.mp h₁
    simp only [modify_bind_apply, pure_apply, Result.ok.injEq] at h₂
    rw [← h₂.2]
    exact ⟨rfl, rfl, evm.create_le _ _ _ _ _ _ _ _ _ _ hc⟩
  · -- the nonce is bumped first, which changes only the state
    obtain ⟨u, st₁, h₁, h₂⟩ := bind_eq_ok.mp h
    obtain ⟨t₁, -, rfl⟩ := onState_eq_ok.mp h₁
    simp only [get_bind_apply] at h₂
    obtain ⟨⟨ret, left, vmerr⟩, st₂, h₃, h₄⟩ := bind_eq_ok.mp h₂
    obtain ⟨t₂, hc, rfl⟩ := onState_eq_ok.mp h₃
    simp only [modify_bind_apply, pure_apply, Result.ok.injEq] at h₄
    rw [← h₄.2]
    exact ⟨rfl, rfl, evm.call_le _ _ _ _ _ _ _ _ _ _ hc⟩

/-- The pool takes back gas it gave, without passing `uint64`. -/
theorem addGas_of_lt {gp amount : UInt64} (h : gp.toNat + amount.toNat < 2 ^ 64) :
    ∃ gp', GasPool.AddGas gp amount = .ok gp' ∧ gp'.toNat = gp.toNat + amount.toNat := by
  have hmax : ¬ gp > MaxUint64 - amount := by
    rw [gt_iff_lt, UInt64.lt_iff_toNat_lt, UInt64.toNat_sub_of_le _ _
      (UInt64.le_iff_toNat_le.mpr (by rw [toNat_maxUint64]; omega)), toNat_maxUint64]
    omega
  refine ⟨gp + amount, by simp [GasPool.AddGas, hmax], ?_⟩
  rw [UInt64.toNat_add]
  exact Nat.mod_eq_of_lt h

/-- The refund `refundGas` adds: the counter, capped at half of the gas used. -/
theorem toNat_refund {initial gas counter : UInt64} (hle : gas ≤ initial) :
    (if (initial - gas) / 2 > counter then counter else (initial - gas) / 2).toNat =
      min ((initial.toNat - gas.toNat) / 2) counter.toNat := by
  have hsub : (initial - gas).toNat = initial.toNat - gas.toNat := UInt64.toNat_sub_of_le _ _ hle
  split_ifs with h
  · rw [gt_iff_lt, UInt64.lt_iff_toNat_lt, UInt64.toNat_div, hsub] at h
    simp only [UInt64.reduceToNat] at h
    omega
  · rw [gt_iff_lt, UInt64.lt_iff_toNat_lt, UInt64.toNat_div, hsub] at h
    simp only [UInt64.reduceToNat] at h
    rw [UInt64.toNat_div, hsub]
    simp only [UInt64.reduceToNat]
    omega

/-- `refundGas` adds the capped refund to the gas left, pays the gas left back to the sender at the
gas price, and puts it back in the pool. -/
theorem refundGas_spec (msg : Message) (st : Transition) (hle : st.gas ≤ st.initialGas)
    (hfit : st.gp.toNat + st.initialGas.toNat < 2 ^ 64) :
    ∃ st', refundGas msg st = .ok () st' ∧ st'.state.db = st.state.db ∧
      st'.initialGas = st.initialGas ∧
      st'.gas.toNat = st.gas.toNat + min ((st.initialGas.toNat - st.gas.toNat) / 2) st.state.refund.toNat ∧
      st'.gp.toNat = st.gp.toNat + st'.gas.toNat ∧
      ∀ b, (view st'.state).balance b =
        (view st.state).balance b + if b = msg.From then st'.gas.toNat * msg.GasPrice else 0 := by
  have hused : gasUsed st = .ok (st.initialGas - st.gas) st := rfl
  have hcounter : onState GetRefund st = .ok st.state.refund st := rfl
  unfold refundGas
  rw [bind_of_ok hused, bind_of_ok hcounter]
  simp only [modify_bind_apply, get_bind_apply]
  generalize hrefund : (if (st.initialGas - st.gas) / 2 > st.state.refund then st.state.refund
    else (st.initialGas - st.gas) / 2) = refund
  have hgas : (st.gas + refund).toNat = st.gas.toNat +
      min ((st.initialGas.toNat - st.gas.toNat) / 2) st.state.refund.toNat := by
    have hle' := UInt64.le_iff_toNat_le.mp hle
    rw [UInt64.toNat_add, ← hrefund, toNat_refund hle]
    apply Nat.mod_eq_of_lt
    omega
  -- the sender is paid for the gas left, and the pool takes it back without overflowing
  obtain ⟨s₂, h₂, -⟩ := addBalance_grows st.state msg.From ((st.gas + refund).toNat * msg.GasPrice)
  have hbal := balance_addBalance h₂
  obtain ⟨gp', hadd, hgp'⟩ := @addGas_of_lt st.gp (st.gas + refund)
    (by rw [hgas]; have := UInt64.le_iff_toNat_le.mp hle; omega)
  have h₂' : onState (AddBalance msg.From ((st.gas + refund).toNat * msg.GasPrice))
      { st with gas := st.gas + refund } = .ok () { st with gas := st.gas + refund, state := s₂ } :=
    onState_of_ok h₂
  -- the pool's match is rewritten over the exact state: reducing it otherwise unfolds the
  -- comparison with MaxUint64 in unary
  have hadd' : GasPool.AddGas ({ st with gas := st.gas + refund, state := s₂ } : Transition).gp
      ({ st with gas := st.gas + refund, state := s₂ } : Transition).gas = .ok gp' := hadd
  rw [bind_of_ok h₂', get_bind_apply, hadd']
  exact ⟨_, rfl, (hbal msg.From).1, rfl, hgas, hgp', fun b => (hbal b).2⟩

theorem runEVM_returns {evm : EVM} (hevm : evm.Returns) (msg : Message) (st : Transition) :
    ∃ r st', runEVM evm msg st = .ok r st' := by
  unfold runEVM
  split
  · obtain ⟨r, t, h⟩ := hevm.2 msg.From msg.Data st.gas msg.Value st.state
    simp only [get_bind_apply]
    rw [bind_of_ok (onState_of_ok h)]
    exact ⟨_, _, rfl⟩
  · obtain ⟨t₁, h₁, -⟩ := setNonce_grows (s := { st.state with stateObjects := loadObjects st.state msg.From })
      (a := msg.From) ((view st.state).nonce msg.From + 1)
    have hbump : (do SetNonce msg.From ((← GetNonce msg.From) + 1) : StateDBM Unit) st.state =
        .ok () t₁ := by
      rw [bind_of_ok (getNonce_eq st.state msg.From)]
      exact h₁
    rw [bind_of_ok (onState_of_ok hbump), get_bind_apply]
    obtain ⟨r, t, h⟩ := hevm.1 msg.From (toAddress msg) msg.Data st.gas msg.Value t₁
    rw [bind_of_ok (onState_of_ok h)]
    exact ⟨_, _, rfl⟩

end Steps

/-! ### The gas pool and the fees -/

/-- What `ApplyMessage` from the pool `gp` and the state `state` leaves, by the error it returns.
A refusal of `preCheck` leaves the pool as it was. Every later error keeps `msg.Gas()` out of
the pool. Success takes from the pool exactly the gas used, which is at most `msg.Gas()` and at
least half the intrinsic gas (the refund may take it below the intrinsic gas itself); around the
EVM run (from `before` to `after`), the sender pays `msg.Gas()` at the gas price up front and
gets back the gas left and the capped refund, and the coinbase gets the gas used. -/
def Accounted (evm : EVM) (msg : Message) (gp : GasPool) (state : StateDB) :
    Bytes × UInt64 × Bool × Option Error → Transition → Prop
  | (_, _, _, some e), st' =>
    if e.beforeBuy then Refused msg ⟨0, 0, gp, state⟩ e ∧ st'.gp = gp
    else msg.Gas ≤ gp ∧ st'.gp.toNat + msg.Gas.toNat = gp.toNat
  | (ret, usedGas, failed, none), st' =>
    ∃ gas vmerr before after, IntrinsicGas msg.Data msg.To.isNone evm.homestead = .ok gas ∧
      gas ≤ msg.Gas ∧ before.gas = msg.Gas - gas ∧
      runEVM evm msg before = .ok (ret, vmerr) after ∧ failed = vmerr.isSome ∧
      gas.toNat ≤ 2 * usedGas.toNat ∧ usedGas ≤ msg.Gas ∧
      st'.gp.toNat + usedGas.toNat = gp.toNat ∧
      (msg.Gas - usedGas).toNat = after.gas.toNat +
        min ((msg.Gas.toNat - after.gas.toNat) / 2) after.state.refund.toNat ∧
      (∀ b, (view before.state).balance b =
        (view state).balance b - if b = msg.From then msg.Gas.toNat * msg.GasPrice else 0) ∧
      ∀ b, (view st'.state).balance b = (view after.state).balance b +
        (if b = msg.From then (msg.Gas - usedGas).toNat * msg.GasPrice else 0) +
        (if b = evm.Coinbase then usedGas.toNat * msg.GasPrice else 0)

/-- `ApplyMessage` returns, under an EVM that does, and accounts for the gas pool and the fees as
`Accounted` says, for every message, pool and state. -/
theorem applyMessage_accounted {evm : EVM} (hevm : evm.Returns) (msg : Message) (gp : GasPool)
    (state : StateDB) :
    ∃ r st', ApplyMessage evm msg gp state = .ok r st' ∧ Accounted evm msg gp state r st' := by
  obtain ⟨r, st₁, h₁, -, hb⟩ := preCheck_spec msg ⟨0, 0, gp, state⟩
  unfold ApplyMessage TransitionDb
  rw [bind_of_ok h₁]
  cases r with
  | some e =>
    obtain ⟨he, hgp, -, -⟩ := hb
    refine ⟨_, _, rfl, ?_⟩
    simp only [Accounted, he.beforeBuy, if_true]
    exact ⟨he, hgp⟩
  | none =>
    obtain ⟨-, hle, hgp₁, hgas₁, hinit₁, hbal₁⟩ := hb
    simp only at hgp₁ hgas₁ hle
    rw [UInt64.zero_add] at hgas₁
    -- every error after the purchase keeps `msg.Gas()` out of the pool
    have hkept : msg.Gas ≤ gp ∧ st₁.gp.toNat + msg.Gas.toNat = gp.toNat := by
      refine ⟨hle, ?_⟩
      rw [hgp₁, UInt64.toNat_sub_of_le _ _ hle]
      have := UInt64.le_iff_toNat_le.mp hle
      omega
    simp only
    cases hig : IntrinsicGas msg.Data msg.To.isNone evm.homestead with
    | error err =>
      refine ⟨_, _, rfl, ?_⟩
      simpa [Accounted, Error.beforeBuy] using hkept
    | ok g =>
      simp only
      rw [bind_apply, useGas_eq]
      split_ifs with hlt
      · refine ⟨_, _, rfl, ?_⟩
        simpa [Accounted, Error.beforeBuy] using hkept
      simp only
      obtain ⟨⟨ret, vmerr⟩, st₃, h₃⟩ := runEVM_returns hevm msg { st₁ with gas := st₁.gas - g }
      rw [bind_of_ok h₃]
      obtain ⟨hgp₃, hinit₃, hgas₃⟩ := runEVM_spec h₃
      simp only at hgp₃ hinit₃ hgas₃
      rw [ite_apply_state]
      split_ifs with hins
      · refine ⟨_, _, rfl, ?_⟩
        simpa [Accounted, Error.beforeBuy, hgp₃] using hkept
      -- the gas left and refunded goes back to the sender and to the pool
      have hg := UInt64.le_iff_toNat_le.mp (UInt64.not_lt.mp hlt)
      have hle₃ : st₃.gas ≤ st₃.initialGas := by
        rw [UInt64.le_iff_toNat_le, hinit₃, hinit₁]
        have := UInt64.le_iff_toNat_le.mp hgas₃
        rw [UInt64.toNat_sub_of_le _ _ (UInt64.not_lt.mp hlt), hgas₁] at this
        omega
      obtain ⟨st₄, h₄, -, hinit₄, hgas₄, hgp₄, hbal₄⟩ := refundGas_spec msg st₃ hle₃ (by
        rw [hgp₃, hinit₃, hinit₁, hkept.2]
        exact gp.toNat_lt)
      rw [bind_of_ok h₄, bind_of_ok (rfl : gasUsed st₄ = .ok (st₄.initialGas - st₄.gas) st₄)]
      -- the coinbase is paid for the gas used
      obtain ⟨s₅, h₅, -⟩ := addBalance_grows (s := st₄.state) (a := evm.Coinbase)
        ((st₄.initialGas - st₄.gas).toNat * msg.GasPrice)
      have hbal₅ := balance_addBalance h₅
      rw [bind_of_ok (onState_of_ok h₅)]
      refine ⟨_, _, rfl, ?_⟩
      -- the arithmetic of the gas, on naturals
      rw [hinit₃, hinit₁] at hgas₄
      rw [hinit₄, hinit₃, hinit₁] at hbal₅ ⊢
      have hsub := UInt64.le_iff_toNat_le.mp hgas₃
      rw [UInt64.toNat_sub_of_le _ _ (UInt64.not_lt.mp hlt), hgas₁] at hsub
      rw [hgas₁] at hg
      have hle₄ : st₄.gas ≤ msg.Gas := by
        rw [UInt64.le_iff_toNat_le, hgas₄]
        omega
      have hused : (msg.Gas - st₄.gas).toNat = msg.Gas.toNat - st₄.gas.toNat :=
        UInt64.toNat_sub_of_le _ _ hle₄
      have hleft : (msg.Gas - (msg.Gas - st₄.gas)).toNat = st₄.gas.toNat := by
        rw [UInt64.toNat_sub_of_le _ _ (UInt64.sub_le hle₄), hused]
        omega
      refine ⟨g, vmerr, { st₁ with gas := st₁.gas - g }, st₃, hig, hgas₁ ▸ UInt64.not_lt.mp hlt,
        by rw [hgas₁], h₃, rfl, ?_, UInt64.sub_le hle₄, ?_, ?_, fun b => hbal₁ b, fun b => ?_⟩
      · rw [hused, hgas₄]
        omega
      · rw [hgp₄, hgp₃, hused, hgas₄]
        omega
      · rw [hleft, hgas₄]
      · rw [(hbal₅ b).2, (hbal₄ b), hleft]

/-- A message whose gas does not cover the intrinsic gas fails after `buyGas`: `ApplyMessage`
returns `ErrOutOfGas` with the pool short of the 20000 gas bought, whatever the EVM, from a fresh
state over any database. The miner's `commitTransaction` reverts the state on that error but not
the pool. -/
theorem applyMessage_error_takes_gas (evm : EVM) (db : Database) :
    ∃ st', ApplyMessage evm ⟨1, some 2, 0, 20000, 0, 0, false, []⟩ 100000
      (StateDB.New db fun _ => none) = .ok ([], 0, false, some (.vm .outOfGas)) st' ∧
      st'.gp = 80000 := by
  obtain ⟨r, st₁, h₁, -, hb⟩ := preCheck_spec ⟨1, some 2, 0, 20000, 0, 0, false, []⟩
    ⟨0, 0, 100000, StateDB.New db fun _ => none⟩
  cases r with
  | some e =>
    -- a fresh state refuses nothing: the gas is free and the pool holds it
    obtain ⟨he, -⟩ := hb
    have hbal : (view (StateDB.New db fun _ => none)).balance 1 = 0 := rfl
    cases e with
    | insufficientBalanceForGas =>
      simp only [Refused] at he
      rw [hbal] at he
      exact absurd he (by decide)
    | gasLimitReached => exact absurd (show (100000 : UInt64) < 20000 from he) (by decide)
    | nonceTooHigh => exact absurd he.1 (by decide)
    | nonceTooLow => exact absurd he.1 (by decide)
    | vm e => exact he.elim
  | none =>
    obtain ⟨-, -, hgp₁, hgas₁, -, -⟩ := hb
    simp only at hgp₁ hgas₁
    unfold ApplyMessage TransitionDb
    rw [bind_of_ok h₁]
    simp only
    rw [show IntrinsicGas ([] : Bytes) (some (2 : Address)).isNone evm.homestead = .ok TxGas from rfl]
    simp only
    rw [bind_apply, useGas_eq, if_pos (by rw [hgas₁]; decide)]
    exact ⟨_, rfl, by rw [hgp₁]; decide⟩

end Ccmchain.Core
