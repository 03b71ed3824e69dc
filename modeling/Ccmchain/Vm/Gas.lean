import Ccmchain.Common.Math
import Ccmchain.Lib.Except

/-!
# `core/vm/gas.go`, `gas_table.go`, `memory.go`: memory expansion and call gas

`memoryGasCost` charges for memory in words of 32 bytes. The total fee of `w` words is
`memoryFee w = 3 * w + w * w / 512`, and the charge for growing the memory to `w` words is that
fee less the one already paid (`lastGasCost`). Requests above `0x1FFFFFFFE0` bytes are refused,
so the words stay below `2 ^ 32` and the fee fits in a `uint64`: a run of requests from a new
memory pays, in all, the fee of the largest request (`expandAll_telescopes`).

`callGas` gives a call all but one 64th of the gas left after its base cost (EIP-150), capped
at the gas the caller asked for. The four call gas functions add it to the base cost with an
overflow check. The stack items they read are arguments here: the interpreter checks the stack
before it charges gas.
-/

namespace Ccmchain.Vm

open Common

/-- `errGasUintOverflow`. -/
def errGasUintOverflow : String := "gas uint64 overflow"

/-- `params.CallValueTransferGas`. -/
def CallValueTransferGas : UInt64 := 9000

/-- `params.CallNewAccountGas`. -/
def CallNewAccountGas : UInt64 := 25000

/-- `params.MemoryGas`. -/
def MemoryGas : UInt64 := 3

/-- `params.QuadCoeffDiv`. -/
def QuadCoeffDiv : UInt64 := 512

/-- `params.GasTable`, the fields the call gas reads. -/
structure GasTable where
  Calls : UInt64
  CreateBySuicide : UInt64

/-! ### Memory -/

/-- `Memory`. -/
structure Memory where
  store : List UInt8
  lastGasCost : UInt64

/-- `NewMemory`. -/
def NewMemory : Memory := ⟨[], 0⟩

/-- `Memory.Len`. -/
def Memory.Len (m : Memory) : Nat := m.store.length

/-- `Memory.Resize`: grows the store with zero bytes. -/
def Memory.Resize (m : Memory) (size : UInt64) : Memory :=
  if m.Len.toUInt64 < size then { m with store := m.store ++ List.replicate (size - m.Len.toUInt64).toNat 0 }
  else m

/-- `toWordSize`. -/
def toWordSize (size : UInt64) : UInt64 :=
  if size > MaxUint64 - 31 then MaxUint64 / 32 + 1 else (size + 31) / 32

/-- `memoryGasCost`: the fee for growing the memory to `newMemSize` bytes. -/
def memoryGasCost (mem : Memory) (newMemSize : UInt64) : Except String (UInt64 × Memory) :=
  if newMemSize = 0 then pure (0, mem)
  else if newMemSize > 0x1FFFFFFFE0 then throw errGasUintOverflow
  else
    let newMemSizeWords := toWordSize newMemSize
    let newMemSize := newMemSizeWords * 32
    if newMemSize > mem.Len.toUInt64 then
      let square := newMemSizeWords * newMemSizeWords
      let linCoef := newMemSizeWords * MemoryGas
      let quadCoef := square / QuadCoeffDiv
      let newTotalFee := linCoef + quadCoef
      let fee := newTotalFee - mem.lastGasCost
      pure (fee, { mem with lastGasCost := newTotalFee })
    else pure (0, mem)

/-- One memory request of the interpreter loop: the charge for `size` bytes, then, when it
succeeds, the memory grown to the whole words of `size`. -/
def expandMemory (mem : Memory) (size : UInt64) : Except String (UInt64 × Memory) := do
  let (fee, mem) ← memoryGasCost mem size
  pure (fee, mem.Resize (toWordSize size * 32))

/-- Requests made one after another on one memory: the outcome of each, and the memory after
them all. A refused request leaves the memory as it was. -/
def Memory.expandAll (mem : Memory) : List UInt64 → List (Except String UInt64) × Memory
  | [] => ([], mem)
  | size :: sizes =>
    match expandMemory mem size with
    | .ok (fee, mem') =>
      let (outcomes, last) := mem'.expandAll sizes
      (.ok fee :: outcomes, last)
    | .error e =>
      let (outcomes, last) := mem.expandAll sizes
      (.error e :: outcomes, last)

/-! ### Call gas -/

/-- `callGas`. -/
def callGas (gasTable : GasTable) (availableGas base : UInt64) (callCost : Int) :
    Except String UInt64 :=
  let legacy : Except String UInt64 :=
    if !IsUint64 callCost then throw errGasUintOverflow else pure (Uint64 callCost)
  if gasTable.CreateBySuicide > 0 then
    let availableGas := availableGas - base
    let gas := availableGas - availableGas / 64
    if !IsUint64 callCost || gas < Uint64 callCost then pure gas else legacy
  else legacy

/-- The lines the four call gas functions end with: the base cost `gas + extra` with an overflow
check, and the gas the call may pass on (`evm.callGasTemp`) added to it with another. -/
def withCallGas (gt : GasTable) (contractGas : UInt64) (callCost : Int) (gas extra : UInt64) :
    Except String (UInt64 × UInt64) := do
  let (gas, overflow) := SafeAdd gas extra
  if overflow then throw errGasUintOverflow
  let callGasTemp ← callGas gt contractGas gas callCost
  let (gas, overflow) := SafeAdd gas callGasTemp
  if overflow then throw errGasUintOverflow
  pure (gas, callGasTemp)

/-- What `gasCall` asks of the EVM: the EIP-158 rules at the current block, and which accounts
of the state exist and which are empty. -/
structure CallEnv where
  eip158 : Bool
  Exist : Address → Bool
  Empty : Address → Bool

/-- `gasCall`, with `stack.Back(0)`, `Back(1)` and `Back(2)` as `callCost`, `addr` and `value`:
the gas and `callGasTemp`, and the memory after the charge. -/
def gasCall (gt : GasTable) (env : CallEnv) (contractGas : UInt64) (callCost addr value : Int)
    (mem : Memory) (memorySize : UInt64) : Except String (UInt64 × UInt64 × Memory) := do
  let transfersValue := value ≠ 0
  let address := BigToAddress addr
  let gas := gt.Calls
  let gas :=
    if env.eip158 then
      if transfersValue ∧ env.Empty address then gas + CallNewAccountGas else gas
    else if !env.Exist address then gas + CallNewAccountGas else gas
  let gas := if transfersValue then gas + CallValueTransferGas else gas
  let (memoryGas, mem) ← memoryGasCost mem memorySize
  let (gas, callGasTemp) ← withCallGas gt contractGas callCost gas memoryGas
  pure (gas, callGasTemp, mem)

/-- `gasCallCode`, with `stack.Back(0)` and `Back(2)` as `callCost` and `value`. -/
def gasCallCode (gt : GasTable) (contractGas : UInt64) (callCost value : Int) (mem : Memory)
    (memorySize : UInt64) : Except String (UInt64 × UInt64 × Memory) := do
  let gas := gt.Calls
  let gas := if value ≠ 0 then gas + CallValueTransferGas else gas
  let (memoryGas, mem) ← memoryGasCost mem memorySize
  let (gas, callGasTemp) ← withCallGas gt contractGas callCost gas memoryGas
  pure (gas, callGasTemp, mem)

/-- `gasDelegateCall`, with `stack.Back(0)` as `callCost`. -/
def gasDelegateCall (gt : GasTable) (contractGas : UInt64) (callCost : Int) (mem : Memory)
    (memorySize : UInt64) : Except String (UInt64 × UInt64 × Memory) := do
  let (gas, mem) ← memoryGasCost mem memorySize
  let (gas, callGasTemp) ← withCallGas gt contractGas callCost gas gt.Calls
  pure (gas, callGasTemp, mem)

/-- `gasStaticCall`, with `stack.Back(0)` as `callCost`. -/
def gasStaticCall (gt : GasTable) (contractGas : UInt64) (callCost : Int) (mem : Memory)
    (memorySize : UInt64) : Except String (UInt64 × UInt64 × Memory) := do
  let (gas, mem) ← memoryGasCost mem memorySize
  let (gas, callGasTemp) ← withCallGas gt contractGas callCost gas gt.Calls
  pure (gas, callGasTemp, mem)

/-! ### What the call gas comes to -/

/-- Under EIP-150 a call gets the gas it asks for, but at most all but one 64th of the gas left
after its base cost. -/
theorem callGas_eip150 {gt : GasTable} (hgt : 0 < gt.CreateBySuicide) {availableGas base : UInt64}
    (hbase : base ≤ availableGas) (callCost : Nat) :
    ∃ gas, callGas gt availableGas base callCost = .ok gas ∧
      gas.toNat = min callCost
        ((availableGas.toNat - base.toNat) - (availableGas.toNat - base.toNat) / 64) := by
  have hleft : (availableGas - base).toNat = availableGas.toNat - base.toNat :=
    UInt64.toNat_sub_of_le _ _ hbase
  have hdiv : (availableGas - base) / 64 ≤ availableGas - base := by
    rw [UInt64.le_iff_toNat_le, UInt64.toNat_div]
    exact Nat.div_le_self _ _
  have hgas : ((availableGas - base) - (availableGas - base) / 64).toNat =
      (availableGas.toNat - base.toNat) - (availableGas.toNat - base.toNat) / 64 := by
    rw [UInt64.toNat_sub_of_le _ _ hdiv, UInt64.toNat_div, hleft]
    rfl
  unfold callGas
  simp only [gt_iff_lt, hgt, if_true]
  set gas := (availableGas - base) - (availableGas - base) / 64 with hgas_def
  have hbound := gas.toNat_lt
  cases hu : IsUint64 callCost
  · have hfit : ¬callCost < 2 ^ 64 := by simpa [isUint64_natCast] using hu
    exact ⟨gas, by simp, by omega⟩
  · have hfit : callCost < 2 ^ 64 := by simpa [isUint64_natCast] using hu
    have hv := toNat_uint64_natCast hfit
    by_cases hlt : gas < Uint64 callCost
    · refine ⟨gas, by simp [hlt], ?_⟩
      rw [UInt64.lt_iff_toNat_lt, hv] at hlt
      omega
    · refine ⟨Uint64 callCost, by simp [hlt], ?_⟩
      rw [UInt64.lt_iff_toNat_lt, hv] at hlt
      omega

/-- Before EIP-150 a call gets the gas it asks for, when that fits in 64 bits. -/
theorem callGas_legacy {gt : GasTable} (hgt : gt.CreateBySuicide = 0) (availableGas base : UInt64)
    (callCost : Nat) :
    callGas gt availableGas base callCost =
      if callCost < 2 ^ 64 then .ok callCost.toUInt64 else .error errGasUintOverflow := by
  unfold callGas
  rw [if_neg (by simp [hgt])]
  cases hu : IsUint64 callCost
  · have hfit : ¬callCost < 2 ^ 64 := by simpa [isUint64_natCast] using hu
    rw [if_neg hfit]
    rfl
  · have hfit : callCost < 2 ^ 64 := by simpa [isUint64_natCast] using hu
    rw [if_pos hfit]
    rfl

theorem safeAdd_eq_no_overflow {x y sum : UInt64} (h : SafeAdd x y = (sum, false)) :
    sum.toNat = x.toNat + y.toNat := by
  simpa [h] using toNat_safeAdd (x := x) (y := y) (by simp [h])

/-- Both sums are exact, or the charge fails: neither wraps. -/
theorem withCallGas_eq_ok {gt : GasTable} {contractGas : UInt64} {callCost : Int}
    {gas extra total temp : UInt64}
    (h : withCallGas gt contractGas callCost gas extra = .ok (total, temp)) :
    ∃ base, base.toNat = gas.toNat + extra.toNat ∧ callGas gt contractGas base callCost = .ok temp ∧
      total.toNat = base.toNat + temp.toNat := by
  unfold withCallGas at h
  rcases hbase : SafeAdd gas extra with ⟨base, _ | _⟩
  case true => simp [hbase] at h
  rw [hbase] at h
  obtain ⟨temp', hcall, h⟩ := Except.bind_eq_ok_iff.1 (by simpa using h)
  rcases htotal : SafeAdd base temp' with ⟨total', _ | _⟩
  case true => simp [htotal] at h
  obtain ⟨rfl, rfl⟩ : total' = total ∧ temp' = temp := by simpa [htotal] using h
  exact ⟨base, safeAdd_eq_no_overflow hbase, hcall, safeAdd_eq_no_overflow htotal⟩

theorem gasCall_eq_ok {gt : GasTable} {env : CallEnv} {contractGas : UInt64}
    {callCost addr value : Int} {mem : Memory} {memorySize : UInt64} {gas temp : UInt64}
    {mem' : Memory}
    (h : gasCall gt env contractGas callCost addr value mem memorySize = .ok (gas, temp, mem')) :
    ∃ base, callGas gt contractGas base callCost = .ok temp ∧ gas.toNat = base.toNat + temp.toNat := by
  unfold gasCall at h
  obtain ⟨⟨memoryGas, mem₁⟩, -, h⟩ := Except.bind_eq_ok_iff.1 h
  obtain ⟨⟨total, temp'⟩, hcharge, h⟩ := Except.bind_eq_ok_iff.1 h
  obtain ⟨rfl, rfl, -⟩ : total = gas ∧ temp' = temp ∧ mem₁ = mem' := by simpa using h
  obtain ⟨base, -, hcall, hsum⟩ := withCallGas_eq_ok hcharge
  exact ⟨base, hcall, hsum⟩

theorem gasCallCode_eq_ok {gt : GasTable} {contractGas : UInt64} {callCost value : Int}
    {mem : Memory} {memorySize : UInt64} {gas temp : UInt64} {mem' : Memory}
    (h : gasCallCode gt contractGas callCost value mem memorySize = .ok (gas, temp, mem')) :
    ∃ base, callGas gt contractGas base callCost = .ok temp ∧ gas.toNat = base.toNat + temp.toNat := by
  unfold gasCallCode at h
  obtain ⟨⟨memoryGas, mem₁⟩, -, h⟩ := Except.bind_eq_ok_iff.1 h
  obtain ⟨⟨total, temp'⟩, hcharge, h⟩ := Except.bind_eq_ok_iff.1 h
  obtain ⟨rfl, rfl, -⟩ : total = gas ∧ temp' = temp ∧ mem₁ = mem' := by simpa using h
  obtain ⟨base, -, hcall, hsum⟩ := withCallGas_eq_ok hcharge
  exact ⟨base, hcall, hsum⟩

theorem gasDelegateCall_eq_ok {gt : GasTable} {contractGas : UInt64} {callCost : Int}
    {mem : Memory} {memorySize : UInt64} {gas temp : UInt64} {mem' : Memory}
    (h : gasDelegateCall gt contractGas callCost mem memorySize = .ok (gas, temp, mem')) :
    ∃ base, callGas gt contractGas base callCost = .ok temp ∧ gas.toNat = base.toNat + temp.toNat := by
  unfold gasDelegateCall at h
  obtain ⟨⟨memoryGas, mem₁⟩, -, h⟩ := Except.bind_eq_ok_iff.1 h
  obtain ⟨⟨total, temp'⟩, hcharge, h⟩ := Except.bind_eq_ok_iff.1 h
  obtain ⟨rfl, rfl, -⟩ : total = gas ∧ temp' = temp ∧ mem₁ = mem' := by simpa using h
  obtain ⟨base, -, hcall, hsum⟩ := withCallGas_eq_ok hcharge
  exact ⟨base, hcall, hsum⟩

theorem gasStaticCall_eq_ok {gt : GasTable} {contractGas : UInt64} {callCost : Int}
    {mem : Memory} {memorySize : UInt64} {gas temp : UInt64} {mem' : Memory}
    (h : gasStaticCall gt contractGas callCost mem memorySize = .ok (gas, temp, mem')) :
    ∃ base, callGas gt contractGas base callCost = .ok temp ∧ gas.toNat = base.toNat + temp.toNat := by
  unfold gasStaticCall at h
  obtain ⟨⟨memoryGas, mem₁⟩, -, h⟩ := Except.bind_eq_ok_iff.1 h
  obtain ⟨⟨total, temp'⟩, hcharge, h⟩ := Except.bind_eq_ok_iff.1 h
  obtain ⟨rfl, rfl, -⟩ : total = gas ∧ temp' = temp ∧ mem₁ = mem' := by simpa using h
  obtain ⟨base, -, hcall, hsum⟩ := withCallGas_eq_ok hcharge
  exact ⟨base, hcall, hsum⟩

/-- `callGas` under EIP-150 is the gas asked for capped at all but one 64th of what is left after
the base cost, and before it the gas asked for when that fits in 64 bits; the four call gas
functions add it to their base cost exactly. -/
theorem callGas_all_but_one_64th (gt : GasTable) (availableGas base : UInt64) (callCost : Nat) :
    (0 < gt.CreateBySuicide → base ≤ availableGas →
      ∃ gas, callGas gt availableGas base callCost = .ok gas ∧
        gas.toNat = min callCost
          ((availableGas.toNat - base.toNat) - (availableGas.toNat - base.toNat) / 64)) ∧
    (gt.CreateBySuicide = 0 →
      callGas gt availableGas base callCost =
        if callCost < 2 ^ 64 then .ok callCost.toUInt64 else .error errGasUintOverflow) ∧
    (∀ env contractGas callCost addr value mem memorySize gas temp mem',
      gasCall gt env contractGas callCost addr value mem memorySize = .ok (gas, temp, mem') →
        ∃ base, callGas gt contractGas base callCost = .ok temp ∧
          gas.toNat = base.toNat + temp.toNat) ∧
    (∀ contractGas callCost value mem memorySize gas temp mem',
      gasCallCode gt contractGas callCost value mem memorySize = .ok (gas, temp, mem') →
        ∃ base, callGas gt contractGas base callCost = .ok temp ∧
          gas.toNat = base.toNat + temp.toNat) ∧
    (∀ contractGas callCost mem memorySize gas temp mem',
      gasDelegateCall gt contractGas callCost mem memorySize = .ok (gas, temp, mem') →
        ∃ base, callGas gt contractGas base callCost = .ok temp ∧
          gas.toNat = base.toNat + temp.toNat) ∧
    (∀ contractGas callCost mem memorySize gas temp mem',
      gasStaticCall gt contractGas callCost mem memorySize = .ok (gas, temp, mem') →
        ∃ base, callGas gt contractGas base callCost = .ok temp ∧
          gas.toNat = base.toNat + temp.toNat) :=
  ⟨fun hgt hbase => callGas_eip150 hgt hbase callCost,
    fun hgt => callGas_legacy hgt availableGas base callCost,
    fun _ _ _ _ _ _ _ _ _ _ h => gasCall_eq_ok h,
    fun _ _ _ _ _ _ _ _ h => gasCallCode_eq_ok h,
    fun _ _ _ _ _ _ _ h => gasDelegateCall_eq_ok h,
    fun _ _ _ _ _ _ _ h => gasStaticCall_eq_ok h⟩

theorem callGas_all_but_one_64th_at :
    (∃ gas, callGas ⟨700, 25000⟩ 100000 700 50000 = .ok gas ∧
      gas.toNat = min 50000 ((100000 - 700) - (100000 - 700) / 64)) ∧
    callGas ⟨40, 0⟩ 100000 700 50000 =
      if 50000 < 2 ^ 64 then .ok (50000 : Nat).toUInt64 else .error errGasUintOverflow :=
  ⟨(callGas_all_but_one_64th ⟨700, 25000⟩ 100000 700 50000).1 (by decide) (by decide),
    (callGas_all_but_one_64th ⟨40, 0⟩ 100000 700 50000).2.1 rfl⟩

/-! ### Memory expansion over a run -/

/-- `C(w)`: the total fee of a memory of `w` words, as `memoryGasCost` computes it. -/
def memoryFee (w : Nat) : Nat := w * MemoryGas.toNat + w * w / QuadCoeffDiv.toNat

theorem memoryFee_mono {v w : Nat} (h : v ≤ w) : memoryFee v ≤ memoryFee w := by
  unfold memoryFee
  have hsq : v * v / QuadCoeffDiv.toNat ≤ w * w / QuadCoeffDiv.toNat :=
    Nat.div_le_div_right (Nat.mul_le_mul h h)
  have hlin : v * MemoryGas.toNat ≤ w * MemoryGas.toNat := Nat.mul_le_mul_right _ h
  omega

theorem toNat_toWordSize {size : UInt64} (h : size.toNat ≤ 0x1FFFFFFFE0) :
    (toWordSize size).toNat = (size.toNat + 31) / 32 := by
  have hmax : (MaxUint64 - 31).toNat = 2 ^ 64 - 32 := rfl
  have hle : ¬size > MaxUint64 - 31 := by
    rw [gt_iff_lt, UInt64.lt_iff_toNat_lt, hmax]
    omega
  rw [toWordSize, if_neg hle, UInt64.toNat_div, UInt64.toNat_add]
  have h31 : (31 : UInt64).toNat = 31 := rfl
  have h32 : (32 : UInt64).toNat = 32 := rfl
  rw [h31, h32, Nat.mod_eq_of_lt (by omega)]

theorem toNat_toWordSize_mul {size : UInt64} (h : size.toNat ≤ 0x1FFFFFFFE0) :
    (toWordSize size * 32).toNat = (size.toNat + 31) / 32 * 32 := by
  have h32 : (32 : UInt64).toNat = 32 := rfl
  rw [UInt64.toNat_mul, toNat_toWordSize h, h32, Nat.mod_eq_of_lt (by omega)]

theorem not_gt_of_toNat_le {size : UInt64} (h : size.toNat ≤ 0x1FFFFFFFE0) :
    ¬size > 0x1FFFFFFFE0 := by
  rw [gt_iff_lt, UInt64.lt_iff_toNat_lt]
  exact Nat.not_lt.2 h

theorem Memory.toNat_len {m : Memory} (hm : m.Len < 2 ^ 64) : m.Len.toUInt64.toNat = m.Len := by
  simpa using Nat.mod_eq_of_lt hm

@[simp] theorem Memory.lastGasCost_resize (m : Memory) (size : UInt64) :
    (m.Resize size).lastGasCost = m.lastGasCost := by
  unfold Memory.Resize
  split <;> rfl

theorem Memory.len_resize {m : Memory} (hm : m.Len < 2 ^ 64) (size : UInt64) :
    (m.Resize size).Len = max m.Len size.toNat := by
  have hlen := Memory.toNat_len hm
  unfold Memory.Resize
  split
  · rename_i h
    rw [UInt64.lt_iff_toNat_lt, hlen] at h
    have hsub := UInt64.toNat_sub_of_le size m.Len.toUInt64 (UInt64.le_iff_toNat_le.2 (by omega))
    simp only [Memory.Len, List.length_append, List.length_replicate] at hsub hlen ⊢
    omega
  · rename_i h
    rw [UInt64.lt_iff_toNat_lt, hlen] at h
    omega

theorem Memory.resize_of_le {m : Memory} (hm : m.Len < 2 ^ 64) {size : UInt64}
    (h : size.toNat ≤ m.Len) : m.Resize size = m := by
  unfold Memory.Resize
  rw [if_neg (by rw [UInt64.lt_iff_toNat_lt, Memory.toNat_len hm]; omega)]

/-- What a run keeps of a memory between requests: whole words, no more than `memoryGasCost`
accepts, and the fee of those words paid. -/
structure Memory.Charged (mem : Memory) : Prop where
  whole_words : mem.Len % 32 = 0
  le_max : mem.Len ≤ 0x1FFFFFFFE0
  paid : mem.lastGasCost.toNat = memoryFee (mem.Len / 32)

theorem newMemory_charged : NewMemory.Charged := ⟨rfl, by decide, rfl⟩

theorem Memory.Charged.len_lt {mem : Memory} (hmem : mem.Charged) : mem.Len < 2 ^ 64 := by
  have := hmem.le_max
  omega

/-- The rounded request passes the end of a charged memory exactly when it asks for more words
than the memory has. -/
theorem Memory.Charged.rounded_gt_iff {mem : Memory} (hmem : mem.Charged) {size : UInt64}
    (hsize : size.toNat ≤ 0x1FFFFFFFE0) :
    toWordSize size * 32 > mem.Len.toUInt64 ↔ mem.Len / 32 < (size.toNat + 31) / 32 := by
  rw [gt_iff_lt, UInt64.lt_iff_toNat_lt, Memory.toNat_len hmem.len_lt, toNat_toWordSize_mul hsize]
  have := hmem.whole_words
  omega

/-- The total fee of fewer than `2 ^ 32` words is computed without wrapping. -/
theorem toNat_totalFee {w : UInt64} (hw : w.toNat < 2 ^ 32) :
    (w * MemoryGas + w * w / QuadCoeffDiv).toNat = memoryFee w.toNat := by
  have hsq : w.toNat * w.toNat < 2 ^ 64 :=
    calc w.toNat * w.toNat < 2 ^ 32 * 2 ^ 32 := Nat.mul_lt_mul'' hw hw
      _ = 2 ^ 64 := by norm_num
  have hmg : MemoryGas.toNat = 3 := rfl
  have hqd : QuadCoeffDiv.toNat = 512 := rfl
  have hquot : w.toNat * w.toNat / 512 < 2 ^ 55 := by omega
  simp only [memoryFee, UInt64.toNat_add, UInt64.toNat_mul, UInt64.toNat_div, hmg, hqd,
    Nat.mod_eq_of_lt hsq]
  rw [Nat.mod_eq_of_lt (by omega : w.toNat * 3 < 2 ^ 64), Nat.mod_eq_of_lt (by omega)]

theorem memoryGasCost_of_gt (mem : Memory) {size : UInt64} (h : 0x1FFFFFFFE0 < size.toNat) :
    memoryGasCost mem size = .error errGasUintOverflow := by
  have h0 : size ≠ 0 := by
    rintro rfl
    simp at h
  have hgt : size > 0x1FFFFFFFE0 := by
    rw [gt_iff_lt, UInt64.lt_iff_toNat_lt]
    exact h
  simp only [memoryGasCost, if_neg h0, if_pos hgt]
  rfl

/-- A request within the memory is free and changes nothing. -/
theorem memoryGasCost_of_words_le {mem : Memory} (hmem : mem.Charged) {size : UInt64}
    (hsize : size.toNat ≤ 0x1FFFFFFFE0) (hkeep : (size.toNat + 31) / 32 ≤ mem.Len / 32) :
    memoryGasCost mem size = .ok (0, mem) := by
  by_cases h0 : size = 0
  · simp [memoryGasCost, h0]
  have hkeep' := (hmem.rounded_gt_iff hsize).not.2 (Nat.not_lt.2 hkeep)
  simp only [memoryGasCost, if_neg h0, if_neg (not_gt_of_toNat_le hsize), if_neg hkeep']
  rfl

/-- A request past the memory charges the fee of the new words less the one already paid. -/
theorem memoryGasCost_of_lt_words {mem : Memory} (hmem : mem.Charged) {size : UInt64}
    (hsize : size.toNat ≤ 0x1FFFFFFFE0) (hgrow : mem.Len / 32 < (size.toNat + 31) / 32) :
    ∃ fee total, memoryGasCost mem size = .ok (fee, { mem with lastGasCost := total }) ∧
      total.toNat = memoryFee ((size.toNat + 31) / 32) ∧
      fee.toNat + memoryFee (mem.Len / 32) = total.toNat := by
  have h0 : size ≠ 0 := by
    rintro rfl
    simp at hgrow
  simp only [memoryGasCost, if_neg h0, if_neg (not_gt_of_toNat_le hsize),
    if_pos ((hmem.rounded_gt_iff hsize).2 hgrow)]
  have hw := toNat_toWordSize hsize
  have htotal := toNat_totalFee (w := toWordSize size) (by rw [hw]; omega)
  rw [hw] at htotal
  -- the fee already paid is that of fewer words, so the subtraction does not wrap
  have hpaid : mem.lastGasCost.toNat ≤ memoryFee ((size.toNat + 31) / 32) := by
    rw [hmem.paid]
    exact memoryFee_mono hgrow.le
  refine ⟨_, _, rfl, htotal, ?_⟩
  rw [UInt64.toNat_sub_of_le _ _ (UInt64.le_iff_toNat_le.2 (by rw [htotal]; exact hpaid)),
    htotal, ← hmem.paid]
  omega

/-- One request on a charged memory within the bound: the memory grows to the words asked for
and stays charged, and the fee is what the new total adds to the old. -/
theorem expandMemory_of_le {mem : Memory} (hmem : mem.Charged) {size : UInt64}
    (hsize : size.toNat ≤ 0x1FFFFFFFE0) :
    ∃ fee mem', expandMemory mem size = .ok (fee, mem') ∧ mem'.Charged ∧
      mem'.Len / 32 = max (mem.Len / 32) ((size.toNat + 31) / 32) ∧
      fee.toNat + memoryFee (mem.Len / 32) = memoryFee (mem'.Len / 32) := by
  have hmax := hmem.le_max
  have hwhole := hmem.whole_words
  have hround := toNat_toWordSize_mul hsize
  rcases Nat.lt_or_ge (mem.Len / 32) ((size.toNat + 31) / 32) with hgrow | hkeep
  · obtain ⟨fee, total, hcost, htotal, hfee⟩ := memoryGasCost_of_lt_words hmem hsize hgrow
    have hlen : (({ mem with lastGasCost := total } : Memory).Resize (toWordSize size * 32)).Len =
        (size.toNat + 31) / 32 * 32 := by
      rw [Memory.len_resize (m := { mem with lastGasCost := total }) hmem.len_lt, hround]
      change max mem.Len _ = _
      omega
    refine ⟨fee, ({ mem with lastGasCost := total } : Memory).Resize (toWordSize size * 32),
      by simp [expandMemory, hcost], ⟨?_, ?_, ?_⟩, ?_, ?_⟩
    · rw [hlen]
      omega
    · rw [hlen]
      omega
    · rw [Memory.lastGasCost_resize, hlen, htotal]
      congr 1
      omega
    · rw [hlen]
      omega
    · rw [hlen, hfee, htotal]
      congr 1
      omega
  · have hresize : mem.Resize (toWordSize size * 32) = mem :=
      Memory.resize_of_le hmem.len_lt (by rw [hround]; omega)
    refine ⟨0, mem, by simp [expandMemory, memoryGasCost_of_words_le hmem hsize hkeep, hresize],
      hmem, by omega, by simp⟩

/-- A request above `0x1FFFFFFFE0` bytes is refused. -/
theorem expandMemory_of_gt (mem : Memory) {size : UInt64} (h : 0x1FFFFFFFE0 < size.toNat) :
    expandMemory mem size = .error errGasUintOverflow := by
  simp [expandMemory, memoryGasCost_of_gt mem h]

/-- The fees of the requests that succeeded. -/
def feeTotal : List (Except String UInt64) → Nat
  | [] => 0
  | .ok fee :: outcomes => fee.toNat + feeTotal outcomes
  | .error _ :: outcomes => feeTotal outcomes

/-- The most words an accepted request asks for. -/
def requestedWords : List UInt64 → Nat
  | [] => 0
  | size :: sizes =>
    if size.toNat ≤ 0x1FFFFFFFE0 then max ((size.toNat + 31) / 32) (requestedWords sizes)
    else requestedWords sizes

theorem Memory.expandAll_cons_ok {mem mem' : Memory} {size fee : UInt64}
    (h : expandMemory mem size = .ok (fee, mem')) (sizes : List UInt64) :
    mem.expandAll (size :: sizes) = (.ok fee :: (mem'.expandAll sizes).1, (mem'.expandAll sizes).2) := by
  simp [Memory.expandAll, h]

theorem Memory.expandAll_cons_error {mem : Memory} {size : UInt64} {e : String}
    (h : expandMemory mem size = .error e) (sizes : List UInt64) :
    mem.expandAll (size :: sizes) = (.error e :: (mem.expandAll sizes).1, (mem.expandAll sizes).2) := by
  simp [Memory.expandAll, h]

/-- A run of requests on a charged memory: each is refused exactly when it asks for more than
`0x1FFFFFFFE0` bytes, the memory ends charged and as large as the largest request, and the fees
add up to the growth of the total fee. -/
theorem Memory.expandAll_charged {mem : Memory} (hmem : mem.Charged) (sizes : List UInt64) :
    List.Forall₂ (fun size outcome =>
        if size.toNat ≤ 0x1FFFFFFFE0 then ∃ fee, outcome = .ok fee
        else outcome = .error errGasUintOverflow)
      sizes (mem.expandAll sizes).1 ∧
    (mem.expandAll sizes).2.Charged ∧
    (mem.expandAll sizes).2.Len / 32 = max (mem.Len / 32) (requestedWords sizes) ∧
    feeTotal (mem.expandAll sizes).1 + memoryFee (mem.Len / 32) =
      memoryFee ((mem.expandAll sizes).2.Len / 32) := by
  induction sizes generalizing mem with
  | nil => simp [Memory.expandAll, feeTotal, requestedWords, hmem]
  | cons size sizes ih =>
    by_cases hsize : size.toNat ≤ 0x1FFFFFFFE0
    · obtain ⟨fee, mem', hstep, hmem', hlen, hfee⟩ := expandMemory_of_le hmem hsize
      obtain ⟨hout, hlast, hlastLen, hfees⟩ := ih hmem'
      rw [Memory.expandAll_cons_ok hstep]
      refine ⟨.cons (by simp [hsize]) hout, hlast, ?_, ?_⟩
      · rw [hlastLen, hlen, requestedWords, if_pos hsize]
        omega
      · rw [feeTotal, ← hfees]
        omega
    · have hstep := expandMemory_of_gt mem (Nat.lt_of_not_le hsize)
      obtain ⟨hout, hlast, hlastLen, hfees⟩ := ih hmem
      rw [Memory.expandAll_cons_error hstep]
      refine ⟨.cons (by simp [hsize]) hout, hlast, ?_, ?_⟩
      · rw [hlastLen, requestedWords, if_neg hsize]
      · rw [feeTotal, hfees]

/-- From a new memory, the fees of a run add up to `C(w) - C(0)` for the largest request `w`,
and the memory stays charged after every prefix of the run. -/
theorem expandAll_telescopes (sizes : List UInt64) :
    List.Forall₂ (fun size outcome =>
        if size.toNat ≤ 0x1FFFFFFFE0 then ∃ fee, outcome = .ok fee
        else outcome = .error errGasUintOverflow)
      sizes (NewMemory.expandAll sizes).1 ∧
    feeTotal (NewMemory.expandAll sizes).1 = memoryFee (requestedWords sizes) - memoryFee 0 ∧
    ∀ k, (NewMemory.expandAll (sizes.take k)).2.lastGasCost.toNat =
      memoryFee ((NewMemory.expandAll (sizes.take k)).2.Len / 32) := by
  obtain ⟨hout, -, hlen, hfees⟩ := Memory.expandAll_charged newMemory_charged sizes
  refine ⟨hout, ?_, fun k => (Memory.expandAll_charged newMemory_charged (sizes.take k)).2.1.paid⟩
  have hzero : NewMemory.Len / 32 = 0 := rfl
  rw [hlen, hzero, Nat.zero_max] at hfees
  rw [← hfees]
  omega

end Ccmchain.Vm
