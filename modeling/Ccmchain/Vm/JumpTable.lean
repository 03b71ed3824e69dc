import Ccmchain.Vm.Instructions
import Ccmchain.Vm.Analysis

/-!
# `core/vm/jump_table.go` and `stack_table.go`: the stack bounds of the jump tables

`Run` checks the stack against an operation's `minStack` and `maxStack` before it runs it. What
the operation then does to the stack is a sequence of stack calls: the `Back` reads of its memory
size and dynamic gas functions, then the pops, peeks, pushes, dups and swaps of its execute
function. The model keeps of each Go function exactly these calls, one list for each path through
it where its paths call differently. On lengths each call is a check and a shift (`runLen`), so
what an operation needs at `minStack` it has at every longer stack, and the longest stack it
leaves is the one it leaves from `maxStack`.
-/

namespace Ccmchain.Vm

/-- `params.StackLimit`. -/
def StackLimit : Nat := 1024

/-- A call an operation makes on the stack. -/
inductive StackCall
  | pop
  | peek
  | push
  | back (n : Nat)
  | swap (n : Nat)
  | dup (n : Nat)
  deriving DecidableEq, Repr

namespace StackCall

/-- The call on a stack; `none` is an index out of range, a Go panic. What is pushed does not
matter to the bounds, and is zero. -/
def run : StackCall → Stack → Option Stack
  | pop, st => st.pop.map Prod.snd
  | peek, st => st.peek.map fun _ => st
  | push, st => some (st.push 0)
  | back n, st => (st.Back n).map fun _ => st
  | swap n, st => st.swap n
  | dup n, st => st.dup n

/-- The call on the length of the stack. -/
def runLen : StackCall → Nat → Option Nat
  | pop, n => if 1 ≤ n then some (n - 1) else none
  | peek, n => if 1 ≤ n then some n else none
  | push, n => some (n + 1)
  | back k, n => if k < n then some n else none
  | swap k, n => if 1 ≤ k ∧ k ≤ n then some n else none
  | dup k, n => if 1 ≤ k ∧ k ≤ n then some (n + 1) else none

theorem map_len_of_isSome_iff {α : Type} {x : Option α} {f : α → Nat} {P : Prop} [Decidable P]
    {m : Nat} (hiff : x.isSome ↔ P) (hlen : ∀ a ∈ x, f a = m) :
    x.map f = if P then some m else none := by
  cases x with
  | none =>
    have hP : ¬P := fun hP => by simpa using hiff.mpr hP
    simp [hP]
  | some a =>
    have hP : P := hiff.mp rfl
    simp [hP, hlen a rfl]

theorem map_len_run (c : StackCall) (st : Stack) : (c.run st).map Stack.len = c.runLen st.len := by
  cases c with
  | pop =>
    rw [run, Option.map_map, runLen]
    refine map_len_of_isSome_iff (by simpa using Stack.pop_isSome_iff st) ?_
    rintro ⟨ret, st'⟩ h
    have := Stack.len_of_pop h
    simp only [Function.comp_apply]
    omega
  | peek =>
    rw [run, Option.map_map, runLen]
    exact map_len_of_isSome_iff (by simpa using Stack.peek_isSome_iff st) (by simp)
  | push => simp [run, runLen]
  | back n =>
    rw [run, Option.map_map, runLen]
    exact map_len_of_isSome_iff (by simpa using Stack.back_isSome_iff st n) (by simp)
  | swap n =>
    rw [run, runLen]
    exact map_len_of_isSome_iff (Stack.swap_isSome_iff st n) fun _ h => Stack.len_of_swap h
  | dup n =>
    rw [run, runLen]
    exact map_len_of_isSome_iff (Stack.dup_isSome_iff st n) fun _ h => Stack.len_of_dup h

/-- A call that runs on a stack runs on a longer one, and leaves it longer by as much. -/
theorem runLen_add {c : StackCall} {n m : Nat} (h : c.runLen n = some m) (k : Nat) :
    c.runLen (n + k) = some (m + k) := by
  cases c <;> simp only [runLen, Option.ite_none_right_eq_some, Option.some.injEq] at h ⊢ <;> omega

end StackCall

/-- The calls one after another. -/
def runCalls : List StackCall → Stack → Option Stack
  | [], st => some st
  | c :: cs, st => c.run st >>= runCalls cs

/-- The calls one after another, on the length of the stack. -/
def runLenCalls : List StackCall → Nat → Option Nat
  | [], n => some n
  | c :: cs, n => c.runLen n >>= runLenCalls cs

theorem map_len_runCalls (cs : List StackCall) (st : Stack) :
    (runCalls cs st).map Stack.len = runLenCalls cs st.len := by
  induction cs generalizing st with
  | nil => rfl
  | cons c cs ih =>
    simp only [runCalls, runLenCalls, ← c.map_len_run st]
    cases c.run st with
    | none => rfl
    | some st' => simp [ih]

theorem runLenCalls_add {cs : List StackCall} {n m : Nat} (h : runLenCalls cs n = some m)
    (k : Nat) : runLenCalls cs (n + k) = some (m + k) := by
  induction cs generalizing n with
  | nil =>
    simp only [runLenCalls, Option.some.injEq] at h
    simp [runLenCalls, h]
  | cons c cs ih =>
    simp only [runLenCalls, Option.bind_eq_bind, Option.bind_eq_some_iff] at h ⊢
    obtain ⟨n', hc, hcs⟩ := h
    exact ⟨n' + k, StackCall.runLen_add hc k, ih hcs⟩

/-! ### Operations and the stack table -/

/-- `operation`, with the fields the stack bounds concern: the calls of `execute` on each of its
paths, the `Back` reads of `dynamicGas` and `memorySize` on their longest path (the others stop
early), the bounds `Run` checks, and `valid`. The defaults are Go's zero `operation`. -/
structure Operation where
  execute : List (List StackCall) := []
  dynamicGas : List StackCall := []
  minStack : Nat := 0
  maxStack : Nat := 0
  memorySize : List StackCall := []
  valid : Bool := false

def minStack (pops _push : Nat) : Nat := pops
def maxStack (pop push : Nat) : Nat := StackLimit + pop - push
def minSwapStack (n : Nat) : Nat := minStack n n
def maxSwapStack (n : Nat) : Nat := maxStack n n
def minDupStack (n : Nat) : Nat := minStack n (n + 1)
def maxDupStack (n : Nat) : Nat := maxStack n (n + 1)

/-! ### Opcodes (`opcodes.go`) -/

def STOP : UInt8 := 0x00
def ADD : UInt8 := 0x01
def MUL : UInt8 := 0x02
def SUB : UInt8 := 0x03
def DIV : UInt8 := 0x04
def SDIV : UInt8 := 0x05
def MOD : UInt8 := 0x06
def SMOD : UInt8 := 0x07
def ADDMOD : UInt8 := 0x08
def MULMOD : UInt8 := 0x09
def EXP : UInt8 := 0x0a
def SIGNEXTEND : UInt8 := 0x0b
def LT : UInt8 := 0x10
def GT : UInt8 := 0x11
def SLT : UInt8 := 0x12
def SGT : UInt8 := 0x13
def EQ : UInt8 := 0x14
def ISZERO : UInt8 := 0x15
def AND : UInt8 := 0x16
def OR : UInt8 := 0x17
def XOR : UInt8 := 0x18
def NOT : UInt8 := 0x19
def BYTE : UInt8 := 0x1a
def SHL : UInt8 := 0x1b
def SHR : UInt8 := 0x1c
def SAR : UInt8 := 0x1d
def SHA3 : UInt8 := 0x20
def ADDRESS : UInt8 := 0x30
def BALANCE : UInt8 := 0x31
def ORIGIN : UInt8 := 0x32
def CALLER : UInt8 := 0x33
def CALLVALUE : UInt8 := 0x34
def CALLDATALOAD : UInt8 := 0x35
def CALLDATASIZE : UInt8 := 0x36
def CALLDATACOPY : UInt8 := 0x37
def CODESIZE : UInt8 := 0x38
def CODECOPY : UInt8 := 0x39
def GASPRICE : UInt8 := 0x3a
def EXTCODESIZE : UInt8 := 0x3b
def EXTCODECOPY : UInt8 := 0x3c
def RETURNDATASIZE : UInt8 := 0x3d
def RETURNDATACOPY : UInt8 := 0x3e
def EXTCODEHASH : UInt8 := 0x3f
def BLOCKHASH : UInt8 := 0x40
def COINBASE : UInt8 := 0x41
def TIMESTAMP : UInt8 := 0x42
def NUMBER : UInt8 := 0x43
def DIFFICULTY : UInt8 := 0x44
def GASLIMIT : UInt8 := 0x45
def POP : UInt8 := 0x50
def MLOAD : UInt8 := 0x51
def MSTORE : UInt8 := 0x52
def MSTORE8 : UInt8 := 0x53
def SLOAD : UInt8 := 0x54
def SSTORE : UInt8 := 0x55
def JUMP : UInt8 := 0x56
def JUMPI : UInt8 := 0x57
def PC : UInt8 := 0x58
def MSIZE : UInt8 := 0x59
def GAS : UInt8 := 0x5a
def PUSH2 : UInt8 := 0x61
def PUSH3 : UInt8 := 0x62
def PUSH4 : UInt8 := 0x63
def PUSH5 : UInt8 := 0x64
def PUSH6 : UInt8 := 0x65
def PUSH7 : UInt8 := 0x66
def PUSH8 : UInt8 := 0x67
def PUSH9 : UInt8 := 0x68
def PUSH10 : UInt8 := 0x69
def PUSH11 : UInt8 := 0x6a
def PUSH12 : UInt8 := 0x6b
def PUSH13 : UInt8 := 0x6c
def PUSH14 : UInt8 := 0x6d
def PUSH15 : UInt8 := 0x6e
def PUSH16 : UInt8 := 0x6f
def PUSH17 : UInt8 := 0x70
def PUSH18 : UInt8 := 0x71
def PUSH19 : UInt8 := 0x72
def PUSH20 : UInt8 := 0x73
def PUSH21 : UInt8 := 0x74
def PUSH22 : UInt8 := 0x75
def PUSH23 : UInt8 := 0x76
def PUSH24 : UInt8 := 0x77
def PUSH25 : UInt8 := 0x78
def PUSH26 : UInt8 := 0x79
def PUSH27 : UInt8 := 0x7a
def PUSH28 : UInt8 := 0x7b
def PUSH29 : UInt8 := 0x7c
def PUSH30 : UInt8 := 0x7d
def PUSH31 : UInt8 := 0x7e
def DUP1 : UInt8 := 0x80
def DUP2 : UInt8 := 0x81
def DUP3 : UInt8 := 0x82
def DUP4 : UInt8 := 0x83
def DUP5 : UInt8 := 0x84
def DUP6 : UInt8 := 0x85
def DUP7 : UInt8 := 0x86
def DUP8 : UInt8 := 0x87
def DUP9 : UInt8 := 0x88
def DUP10 : UInt8 := 0x89
def DUP11 : UInt8 := 0x8a
def DUP12 : UInt8 := 0x8b
def DUP13 : UInt8 := 0x8c
def DUP14 : UInt8 := 0x8d
def DUP15 : UInt8 := 0x8e
def DUP16 : UInt8 := 0x8f
def SWAP1 : UInt8 := 0x90
def SWAP2 : UInt8 := 0x91
def SWAP3 : UInt8 := 0x92
def SWAP4 : UInt8 := 0x93
def SWAP5 : UInt8 := 0x94
def SWAP6 : UInt8 := 0x95
def SWAP7 : UInt8 := 0x96
def SWAP8 : UInt8 := 0x97
def SWAP9 : UInt8 := 0x98
def SWAP10 : UInt8 := 0x99
def SWAP11 : UInt8 := 0x9a
def SWAP12 : UInt8 := 0x9b
def SWAP13 : UInt8 := 0x9c
def SWAP14 : UInt8 := 0x9d
def SWAP15 : UInt8 := 0x9e
def SWAP16 : UInt8 := 0x9f
def LOG0 : UInt8 := 0xa0
def LOG1 : UInt8 := 0xa1
def LOG2 : UInt8 := 0xa2
def LOG3 : UInt8 := 0xa3
def LOG4 : UInt8 := 0xa4
def CREATE : UInt8 := 0xf0
def CALL : UInt8 := 0xf1
def CALLCODE : UInt8 := 0xf2
def RETURN : UInt8 := 0xf3
def DELEGATECALL : UInt8 := 0xf4
def CREATE2 : UInt8 := 0xf5
def STATICCALL : UInt8 := 0xfa
def REVERT : UInt8 := 0xfd
def SELFDESTRUCT : UInt8 := 0xff

/-! ### The stack calls of the Go functions

`x, y := stack.pop(), stack.peek()` is `[.pop, .peek]`; a function whose branches make the same
calls has one path. -/

namespace Calls

def opStop : List (List StackCall) := [[]]
def opAdd : List (List StackCall) := [[.pop, .peek]]
def opSub : List (List StackCall) := [[.pop, .peek]]
def opMul : List (List StackCall) := [[.pop, .pop, .push]]
def opDiv : List (List StackCall) := [[.pop, .peek]]
def opSdiv : List (List StackCall) := [[.pop, .pop, .push]]
def opMod : List (List StackCall) := [[.pop, .pop, .push]]
def opSmod : List (List StackCall) := [[.pop, .pop, .push]]
def opExp : List (List StackCall) := [[.pop, .pop, .push]]
/-- `opSignExtend` pops the number and pushes it back extended only when `back < 31`. -/
def opSignExtend : List (List StackCall) := [[.pop, .pop, .push], [.pop]]
def opNot : List (List StackCall) := [[.peek]]
def opLt : List (List StackCall) := [[.pop, .peek]]
def opGt : List (List StackCall) := [[.pop, .peek]]
def opSlt : List (List StackCall) := [[.pop, .peek]]
def opSgt : List (List StackCall) := [[.pop, .peek]]
def opEq : List (List StackCall) := [[.pop, .peek]]
def opIszero : List (List StackCall) := [[.peek]]
def opAnd : List (List StackCall) := [[.pop, .pop, .push]]
def opOr : List (List StackCall) := [[.pop, .peek]]
def opXor : List (List StackCall) := [[.pop, .peek]]
def opByte : List (List StackCall) := [[.pop, .peek]]
def opAddmod : List (List StackCall) := [[.pop, .pop, .pop, .push]]
def opMulmod : List (List StackCall) := [[.pop, .pop, .pop, .push]]
def opSHL : List (List StackCall) := [[.pop, .peek]]
def opSHR : List (List StackCall) := [[.pop, .peek]]
def opSAR : List (List StackCall) := [[.pop, .pop, .push]]
def opSha3 : List (List StackCall) := [[.pop, .pop, .push]]
def opAddress : List (List StackCall) := [[.push]]
def opBalance : List (List StackCall) := [[.peek]]
def opOrigin : List (List StackCall) := [[.push]]
def opCaller : List (List StackCall) := [[.push]]
def opCallValue : List (List StackCall) := [[.push]]
def opCallDataLoad : List (List StackCall) := [[.pop, .push]]
def opCallDataSize : List (List StackCall) := [[.push]]
def opCallDataCopy : List (List StackCall) := [[.pop, .pop, .pop]]
def opReturnDataSize : List (List StackCall) := [[.push]]
def opReturnDataCopy : List (List StackCall) := [[.pop, .pop, .pop]]
def opExtCodeSize : List (List StackCall) := [[.peek]]
def opCodeSize : List (List StackCall) := [[.push]]
def opCodeCopy : List (List StackCall) := [[.pop, .pop, .pop]]
def opExtCodeCopy : List (List StackCall) := [[.pop, .pop, .pop, .pop]]
def opExtCodeHash : List (List StackCall) := [[.peek]]
def opGasprice : List (List StackCall) := [[.push]]
def opBlockhash : List (List StackCall) := [[.pop, .push]]
def opCoinbase : List (List StackCall) := [[.push]]
def opTimestamp : List (List StackCall) := [[.push]]
def opNumber : List (List StackCall) := [[.push]]
def opDifficulty : List (List StackCall) := [[.push]]
def opGasLimit : List (List StackCall) := [[.push]]
def opPop : List (List StackCall) := [[.pop]]
def opMload : List (List StackCall) := [[.pop, .push]]
def opMstore : List (List StackCall) := [[.pop, .pop]]
def opMstore8 : List (List StackCall) := [[.pop, .pop]]
def opSload : List (List StackCall) := [[.peek]]
def opSstore : List (List StackCall) := [[.pop, .pop]]
def opJump : List (List StackCall) := [[.pop]]
def opJumpi : List (List StackCall) := [[.pop, .pop]]
def opJumpdest : List (List StackCall) := [[]]
def opPc : List (List StackCall) := [[.push]]
def opMsize : List (List StackCall) := [[.push]]
def opGas : List (List StackCall) := [[.push]]
def opCreate : List (List StackCall) := [[.pop, .pop, .pop, .push]]
def opCreate2 : List (List StackCall) := [[.pop, .pop, .pop, .pop, .push]]
/-- `opCall` pops the gas into the pool, then the six other arguments. -/
def opCall : List (List StackCall) := [[.pop, .pop, .pop, .pop, .pop, .pop, .pop, .push]]
def opCallCode : List (List StackCall) := [[.pop, .pop, .pop, .pop, .pop, .pop, .pop, .push]]
def opDelegateCall : List (List StackCall) := [[.pop, .pop, .pop, .pop, .pop, .pop, .push]]
def opStaticCall : List (List StackCall) := [[.pop, .pop, .pop, .pop, .pop, .pop, .push]]
def opReturn : List (List StackCall) := [[.pop, .pop]]
def opRevert : List (List StackCall) := [[.pop, .pop]]
def opSuicide : List (List StackCall) := [[.pop]]
/-- `makeLog(size)`: the memory offset and size, then `size` topics. -/
def makeLog (size : Nat) : List (List StackCall) := [[.pop, .pop] ++ List.replicate size .pop]
def opPush1 : List (List StackCall) := [[.push]]
def makePush (_size _pushByteSize : Nat) : List (List StackCall) := [[.push]]
def makeDup (size : Nat) : List (List StackCall) := [[.dup size]]
/-- `makeSwap(size)` increments `size` before it builds the function: `SWAPn` swaps the top with
the item `n` below it. -/
def makeSwap (size : Nat) : List (List StackCall) := [[.swap (size + 1)]]

def memorySha3 : List StackCall := [.back 0, .back 1]
def memoryCallDataCopy : List StackCall := [.back 0, .back 2]
def memoryReturnDataCopy : List StackCall := [.back 0, .back 2]
def memoryCodeCopy : List StackCall := [.back 0, .back 2]
def memoryExtCodeCopy : List StackCall := [.back 1, .back 3]
def memoryMLoad : List StackCall := [.back 0]
def memoryMStore8 : List StackCall := [.back 0]
def memoryMStore : List StackCall := [.back 0]
def memoryCreate : List StackCall := [.back 1, .back 2]
def memoryCreate2 : List StackCall := [.back 1, .back 2]
def memoryCall : List StackCall := [.back 5, .back 6, .back 3, .back 4]
def memoryDelegateCall : List StackCall := [.back 4, .back 5, .back 2, .back 3]
def memoryStaticCall : List StackCall := [.back 4, .back 5, .back 2, .back 3]
def memoryReturn : List StackCall := [.back 0, .back 1]
def memoryRevert : List StackCall := [.back 0, .back 1]
def memoryLog : List StackCall := [.back 0, .back 1]

def gasCallDataCopy : List StackCall := [.back 2]
def gasReturnDataCopy : List StackCall := [.back 2]
def gasSStore : List StackCall := [.back 1, .back 0]
def makeGasLog (_n : Nat) : List StackCall := [.back 1]
def gasSha3 : List StackCall := [.back 1]
def gasCodeCopy : List StackCall := [.back 2]
def gasExtCodeCopy : List StackCall := [.back 3]
def gasExtCodeHash : List StackCall := []
def gasMLoad : List StackCall := []
def gasMStore8 : List StackCall := []
def gasMStore : List StackCall := []
def gasCreate : List StackCall := []
def gasCreate2 : List StackCall := [.back 2]
def gasBalance : List StackCall := []
def gasExtCodeSize : List StackCall := []
def gasSLoad : List StackCall := []
/-- `gasExp` reads `stack.data[stack.len()-2]`, which is `Back(1)`. -/
def gasExp : List StackCall := [.back 1]
def gasCall : List StackCall := [.back 2, .back 1, .back 0]
def gasCallCode : List StackCall := [.back 2, .back 0]
def gasReturn : List StackCall := []
def gasRevert : List StackCall := []
def gasSuicide : List StackCall := [.back 0]
def gasDelegateCall : List StackCall := [.back 0]
def gasStaticCall : List StackCall := [.back 0]

end Calls

/-! ### The jump tables -/

/-- A `[256]operation`, as the entries written into it, the last written first; an opcode
without an entry holds the zero `operation`, which is not valid. -/
abbrev JumpTable := List (UInt8 × Operation)

/-- `instructionSet[op]`. -/
def JumpTable.get (jt : JumpTable) (op : UInt8) : Operation := (jt.lookup op).getD {}

/-- `instructionSet[op] = o`. -/
def JumpTable.set (jt : JumpTable) (op : UInt8) (o : Operation) : JumpTable := (op, o) :: jt

/-- `newFrontierInstructionSet`. -/
def newFrontierInstructionSet : JumpTable := [
  (STOP, {
    execute := Calls.opStop, minStack := minStack 0 0, maxStack := maxStack 0 0, valid := true }),
  (ADD, {
    execute := Calls.opAdd, minStack := minStack 2 1, maxStack := maxStack 2 1, valid := true }),
  (MUL, {
    execute := Calls.opMul, minStack := minStack 2 1, maxStack := maxStack 2 1, valid := true }),
  (SUB, {
    execute := Calls.opSub, minStack := minStack 2 1, maxStack := maxStack 2 1, valid := true }),
  (DIV, {
    execute := Calls.opDiv, minStack := minStack 2 1, maxStack := maxStack 2 1, valid := true }),
  (SDIV, {
    execute := Calls.opSdiv, minStack := minStack 2 1, maxStack := maxStack 2 1, valid := true }),
  (MOD, {
    execute := Calls.opMod, minStack := minStack 2 1, maxStack := maxStack 2 1, valid := true }),
  (SMOD, {
    execute := Calls.opSmod, minStack := minStack 2 1, maxStack := maxStack 2 1, valid := true }),
  (ADDMOD, {
    execute := Calls.opAddmod, minStack := minStack 3 1, maxStack := maxStack 3 1, valid := true }),
  (MULMOD, {
    execute := Calls.opMulmod, minStack := minStack 3 1, maxStack := maxStack 3 1, valid := true }),
  (EXP, {
    execute := Calls.opExp, dynamicGas := Calls.gasExp, minStack := minStack 2 1,
    maxStack := maxStack 2 1, valid := true }),
  (SIGNEXTEND, {
    execute := Calls.opSignExtend, minStack := minStack 2 1, maxStack := maxStack 2 1,
    valid := true }),
  (LT, {
    execute := Calls.opLt, minStack := minStack 2 1, maxStack := maxStack 2 1, valid := true }),
  (GT, {
    execute := Calls.opGt, minStack := minStack 2 1, maxStack := maxStack 2 1, valid := true }),
  (SLT, {
    execute := Calls.opSlt, minStack := minStack 2 1, maxStack := maxStack 2 1, valid := true }),
  (SGT, {
    execute := Calls.opSgt, minStack := minStack 2 1, maxStack := maxStack 2 1, valid := true }),
  (EQ, {
    execute := Calls.opEq, minStack := minStack 2 1, maxStack := maxStack 2 1, valid := true }),
  (ISZERO, {
    execute := Calls.opIszero, minStack := minStack 1 1, maxStack := maxStack 1 1, valid := true }),
  (AND, {
    execute := Calls.opAnd, minStack := minStack 2 1, maxStack := maxStack 2 1, valid := true }),
  (XOR, {
    execute := Calls.opXor, minStack := minStack 2 1, maxStack := maxStack 2 1, valid := true }),
  (OR, {
    execute := Calls.opOr, minStack := minStack 2 1, maxStack := maxStack 2 1, valid := true }),
  (NOT, {
    execute := Calls.opNot, minStack := minStack 1 1, maxStack := maxStack 1 1, valid := true }),
  (BYTE, {
    execute := Calls.opByte, minStack := minStack 2 1, maxStack := maxStack 2 1, valid := true }),
  (SHA3, {
    execute := Calls.opSha3, dynamicGas := Calls.gasSha3, minStack := minStack 2 1,
    maxStack := maxStack 2 1, memorySize := Calls.memorySha3, valid := true }),
  (ADDRESS, {
    execute := Calls.opAddress, minStack := minStack 0 1, maxStack := maxStack 0 1,
    valid := true }),
  (BALANCE, {
    execute := Calls.opBalance, dynamicGas := Calls.gasBalance, minStack := minStack 1 1,
    maxStack := maxStack 1 1, valid := true }),
  (ORIGIN, {
    execute := Calls.opOrigin, minStack := minStack 0 1, maxStack := maxStack 0 1, valid := true }),
  (CALLER, {
    execute := Calls.opCaller, minStack := minStack 0 1, maxStack := maxStack 0 1, valid := true }),
  (CALLVALUE, {
    execute := Calls.opCallValue, minStack := minStack 0 1, maxStack := maxStack 0 1,
    valid := true }),
  (CALLDATALOAD, {
    execute := Calls.opCallDataLoad, minStack := minStack 1 1, maxStack := maxStack 1 1,
    valid := true }),
  (CALLDATASIZE, {
    execute := Calls.opCallDataSize, minStack := minStack 0 1, maxStack := maxStack 0 1,
    valid := true }),
  (CALLDATACOPY, {
    execute := Calls.opCallDataCopy, dynamicGas := Calls.gasCallDataCopy, minStack := minStack 3 0,
    maxStack := maxStack 3 0, memorySize := Calls.memoryCallDataCopy, valid := true }),
  (CODESIZE, {
    execute := Calls.opCodeSize, minStack := minStack 0 1, maxStack := maxStack 0 1,
    valid := true }),
  (CODECOPY, {
    execute := Calls.opCodeCopy, dynamicGas := Calls.gasCodeCopy, minStack := minStack 3 0,
    maxStack := maxStack 3 0, memorySize := Calls.memoryCodeCopy, valid := true }),
  (GASPRICE, {
    execute := Calls.opGasprice, minStack := minStack 0 1, maxStack := maxStack 0 1,
    valid := true }),
  (EXTCODESIZE, {
    execute := Calls.opExtCodeSize, dynamicGas := Calls.gasExtCodeSize, minStack := minStack 1 1,
    maxStack := maxStack 1 1, valid := true }),
  (EXTCODECOPY, {
    execute := Calls.opExtCodeCopy, dynamicGas := Calls.gasExtCodeCopy, minStack := minStack 4 0,
    maxStack := maxStack 4 0, memorySize := Calls.memoryExtCodeCopy, valid := true }),
  (BLOCKHASH, {
    execute := Calls.opBlockhash, minStack := minStack 1 1, maxStack := maxStack 1 1,
    valid := true }),
  (COINBASE, {
    execute := Calls.opCoinbase, minStack := minStack 0 1, maxStack := maxStack 0 1,
    valid := true }),
  (TIMESTAMP, {
    execute := Calls.opTimestamp, minStack := minStack 0 1, maxStack := maxStack 0 1,
    valid := true }),
  (NUMBER, {
    execute := Calls.opNumber, minStack := minStack 0 1, maxStack := maxStack 0 1, valid := true }),
  (DIFFICULTY, {
    execute := Calls.opDifficulty, minStack := minStack 0 1, maxStack := maxStack 0 1,
    valid := true }),
  (GASLIMIT, {
    execute := Calls.opGasLimit, minStack := minStack 0 1, maxStack := maxStack 0 1,
    valid := true }),
  (POP, {
    execute := Calls.opPop, minStack := minStack 1 0, maxStack := maxStack 1 0, valid := true }),
  (MLOAD, {
    execute := Calls.opMload, dynamicGas := Calls.gasMLoad, minStack := minStack 1 1,
    maxStack := maxStack 1 1, memorySize := Calls.memoryMLoad, valid := true }),
  (MSTORE, {
    execute := Calls.opMstore, dynamicGas := Calls.gasMStore, minStack := minStack 2 0,
    maxStack := maxStack 2 0, memorySize := Calls.memoryMStore, valid := true }),
  (MSTORE8, {
    execute := Calls.opMstore8, dynamicGas := Calls.gasMStore8, minStack := minStack 2 0,
    maxStack := maxStack 2 0, memorySize := Calls.memoryMStore8, valid := true }),
  (SLOAD, {
    execute := Calls.opSload, dynamicGas := Calls.gasSLoad, minStack := minStack 1 1,
    maxStack := maxStack 1 1, valid := true }),
  (SSTORE, {
    execute := Calls.opSstore, dynamicGas := Calls.gasSStore, minStack := minStack 2 0,
    maxStack := maxStack 2 0, valid := true }),
  (JUMP, {
    execute := Calls.opJump, minStack := minStack 1 0, maxStack := maxStack 1 0, valid := true }),
  (JUMPI, {
    execute := Calls.opJumpi, minStack := minStack 2 0, maxStack := maxStack 2 0, valid := true }),
  (PC, {
    execute := Calls.opPc, minStack := minStack 0 1, maxStack := maxStack 0 1, valid := true }),
  (MSIZE, {
    execute := Calls.opMsize, minStack := minStack 0 1, maxStack := maxStack 0 1, valid := true }),
  (GAS, {
    execute := Calls.opGas, minStack := minStack 0 1, maxStack := maxStack 0 1, valid := true }),
  (JUMPDEST, {
    execute := Calls.opJumpdest, minStack := minStack 0 0, maxStack := maxStack 0 0,
    valid := true }),
  (PUSH1, {
    execute := Calls.opPush1, minStack := minStack 0 1, maxStack := maxStack 0 1, valid := true }),
  (PUSH2, {
    execute := Calls.makePush 2 2, minStack := minStack 0 1, maxStack := maxStack 0 1,
    valid := true }),
  (PUSH3, {
    execute := Calls.makePush 3 3, minStack := minStack 0 1, maxStack := maxStack 0 1,
    valid := true }),
  (PUSH4, {
    execute := Calls.makePush 4 4, minStack := minStack 0 1, maxStack := maxStack 0 1,
    valid := true }),
  (PUSH5, {
    execute := Calls.makePush 5 5, minStack := minStack 0 1, maxStack := maxStack 0 1,
    valid := true }),
  (PUSH6, {
    execute := Calls.makePush 6 6, minStack := minStack 0 1, maxStack := maxStack 0 1,
    valid := true }),
  (PUSH7, {
    execute := Calls.makePush 7 7, minStack := minStack 0 1, maxStack := maxStack 0 1,
    valid := true }),
  (PUSH8, {
    execute := Calls.makePush 8 8, minStack := minStack 0 1, maxStack := maxStack 0 1,
    valid := true }),
  (PUSH9, {
    execute := Calls.makePush 9 9, minStack := minStack 0 1, maxStack := maxStack 0 1,
    valid := true }),
  (PUSH10, {
    execute := Calls.makePush 10 10, minStack := minStack 0 1, maxStack := maxStack 0 1,
    valid := true }),
  (PUSH11, {
    execute := Calls.makePush 11 11, minStack := minStack 0 1, maxStack := maxStack 0 1,
    valid := true }),
  (PUSH12, {
    execute := Calls.makePush 12 12, minStack := minStack 0 1, maxStack := maxStack 0 1,
    valid := true }),
  (PUSH13, {
    execute := Calls.makePush 13 13, minStack := minStack 0 1, maxStack := maxStack 0 1,
    valid := true }),
  (PUSH14, {
    execute := Calls.makePush 14 14, minStack := minStack 0 1, maxStack := maxStack 0 1,
    valid := true }),
  (PUSH15, {
    execute := Calls.makePush 15 15, minStack := minStack 0 1, maxStack := maxStack 0 1,
    valid := true }),
  (PUSH16, {
    execute := Calls.makePush 16 16, minStack := minStack 0 1, maxStack := maxStack 0 1,
    valid := true }),
  (PUSH17, {
    execute := Calls.makePush 17 17, minStack := minStack 0 1, maxStack := maxStack 0 1,
    valid := true }),
  (PUSH18, {
    execute := Calls.makePush 18 18, minStack := minStack 0 1, maxStack := maxStack 0 1,
    valid := true }),
  (PUSH19, {
    execute := Calls.makePush 19 19, minStack := minStack 0 1, maxStack := maxStack 0 1,
    valid := true }),
  (PUSH20, {
    execute := Calls.makePush 20 20, minStack := minStack 0 1, maxStack := maxStack 0 1,
    valid := true }),
  (PUSH21, {
    execute := Calls.makePush 21 21, minStack := minStack 0 1, maxStack := maxStack 0 1,
    valid := true }),
  (PUSH22, {
    execute := Calls.makePush 22 22, minStack := minStack 0 1, maxStack := maxStack 0 1,
    valid := true }),
  (PUSH23, {
    execute := Calls.makePush 23 23, minStack := minStack 0 1, maxStack := maxStack 0 1,
    valid := true }),
  (PUSH24, {
    execute := Calls.makePush 24 24, minStack := minStack 0 1, maxStack := maxStack 0 1,
    valid := true }),
  (PUSH25, {
    execute := Calls.makePush 25 25, minStack := minStack 0 1, maxStack := maxStack 0 1,
    valid := true }),
  (PUSH26, {
    execute := Calls.makePush 26 26, minStack := minStack 0 1, maxStack := maxStack 0 1,
    valid := true }),
  (PUSH27, {
    execute := Calls.makePush 27 27, minStack := minStack 0 1, maxStack := maxStack 0 1,
    valid := true }),
  (PUSH28, {
    execute := Calls.makePush 28 28, minStack := minStack 0 1, maxStack := maxStack 0 1,
    valid := true }),
  (PUSH29, {
    execute := Calls.makePush 29 29, minStack := minStack 0 1, maxStack := maxStack 0 1,
    valid := true }),
  (PUSH30, {
    execute := Calls.makePush 30 30, minStack := minStack 0 1, maxStack := maxStack 0 1,
    valid := true }),
  (PUSH31, {
    execute := Calls.makePush 31 31, minStack := minStack 0 1, maxStack := maxStack 0 1,
    valid := true }),
  (PUSH32, {
    execute := Calls.makePush 32 32, minStack := minStack 0 1, maxStack := maxStack 0 1,
    valid := true }),
  (DUP1, {
    execute := Calls.makeDup 1, minStack := minDupStack 1, maxStack := maxDupStack 1,
    valid := true }),
  (DUP2, {
    execute := Calls.makeDup 2, minStack := minDupStack 2, maxStack := maxDupStack 2,
    valid := true }),
  (DUP3, {
    execute := Calls.makeDup 3, minStack := minDupStack 3, maxStack := maxDupStack 3,
    valid := true }),
  (DUP4, {
    execute := Calls.makeDup 4, minStack := minDupStack 4, maxStack := maxDupStack 4,
    valid := true }),
  (DUP5, {
    execute := Calls.makeDup 5, minStack := minDupStack 5, maxStack := maxDupStack 5,
    valid := true }),
  (DUP6, {
    execute := Calls.makeDup 6, minStack := minDupStack 6, maxStack := maxDupStack 6,
    valid := true }),
  (DUP7, {
    execute := Calls.makeDup 7, minStack := minDupStack 7, maxStack := maxDupStack 7,
    valid := true }),
  (DUP8, {
    execute := Calls.makeDup 8, minStack := minDupStack 8, maxStack := maxDupStack 8,
    valid := true }),
  (DUP9, {
    execute := Calls.makeDup 9, minStack := minDupStack 9, maxStack := maxDupStack 9,
    valid := true }),
  (DUP10, {
    execute := Calls.makeDup 10, minStack := minDupStack 10, maxStack := maxDupStack 10,
    valid := true }),
  (DUP11, {
    execute := Calls.makeDup 11, minStack := minDupStack 11, maxStack := maxDupStack 11,
    valid := true }),
  (DUP12, {
    execute := Calls.makeDup 12, minStack := minDupStack 12, maxStack := maxDupStack 12,
    valid := true }),
  (DUP13, {
    execute := Calls.makeDup 13, minStack := minDupStack 13, maxStack := maxDupStack 13,
    valid := true }),
  (DUP14, {
    execute := Calls.makeDup 14, minStack := minDupStack 14, maxStack := maxDupStack 14,
    valid := true }),
  (DUP15, {
    execute := Calls.makeDup 15, minStack := minDupStack 15, maxStack := maxDupStack 15,
    valid := true }),
  (DUP16, {
    execute := Calls.makeDup 16, minStack := minDupStack 16, maxStack := maxDupStack 16,
    valid := true }),
  (SWAP1, {
    execute := Calls.makeSwap 1, minStack := minSwapStack 2, maxStack := maxSwapStack 2,
    valid := true }),
  (SWAP2, {
    execute := Calls.makeSwap 2, minStack := minSwapStack 3, maxStack := maxSwapStack 3,
    valid := true }),
  (SWAP3, {
    execute := Calls.makeSwap 3, minStack := minSwapStack 4, maxStack := maxSwapStack 4,
    valid := true }),
  (SWAP4, {
    execute := Calls.makeSwap 4, minStack := minSwapStack 5, maxStack := maxSwapStack 5,
    valid := true }),
  (SWAP5, {
    execute := Calls.makeSwap 5, minStack := minSwapStack 6, maxStack := maxSwapStack 6,
    valid := true }),
  (SWAP6, {
    execute := Calls.makeSwap 6, minStack := minSwapStack 7, maxStack := maxSwapStack 7,
    valid := true }),
  (SWAP7, {
    execute := Calls.makeSwap 7, minStack := minSwapStack 8, maxStack := maxSwapStack 8,
    valid := true }),
  (SWAP8, {
    execute := Calls.makeSwap 8, minStack := minSwapStack 9, maxStack := maxSwapStack 9,
    valid := true }),
  (SWAP9, {
    execute := Calls.makeSwap 9, minStack := minSwapStack 10, maxStack := maxSwapStack 10,
    valid := true }),
  (SWAP10, {
    execute := Calls.makeSwap 10, minStack := minSwapStack 11, maxStack := maxSwapStack 11,
    valid := true }),
  (SWAP11, {
    execute := Calls.makeSwap 11, minStack := minSwapStack 12, maxStack := maxSwapStack 12,
    valid := true }),
  (SWAP12, {
    execute := Calls.makeSwap 12, minStack := minSwapStack 13, maxStack := maxSwapStack 13,
    valid := true }),
  (SWAP13, {
    execute := Calls.makeSwap 13, minStack := minSwapStack 14, maxStack := maxSwapStack 14,
    valid := true }),
  (SWAP14, {
    execute := Calls.makeSwap 14, minStack := minSwapStack 15, maxStack := maxSwapStack 15,
    valid := true }),
  (SWAP15, {
    execute := Calls.makeSwap 15, minStack := minSwapStack 16, maxStack := maxSwapStack 16,
    valid := true }),
  (SWAP16, {
    execute := Calls.makeSwap 16, minStack := minSwapStack 17, maxStack := maxSwapStack 17,
    valid := true }),
  (LOG0, {
    execute := Calls.makeLog 0, dynamicGas := Calls.makeGasLog 0, minStack := minStack 2 0,
    maxStack := maxStack 2 0, memorySize := Calls.memoryLog, valid := true }),
  (LOG1, {
    execute := Calls.makeLog 1, dynamicGas := Calls.makeGasLog 1, minStack := minStack 3 0,
    maxStack := maxStack 3 0, memorySize := Calls.memoryLog, valid := true }),
  (LOG2, {
    execute := Calls.makeLog 2, dynamicGas := Calls.makeGasLog 2, minStack := minStack 4 0,
    maxStack := maxStack 4 0, memorySize := Calls.memoryLog, valid := true }),
  (LOG3, {
    execute := Calls.makeLog 3, dynamicGas := Calls.makeGasLog 3, minStack := minStack 5 0,
    maxStack := maxStack 5 0, memorySize := Calls.memoryLog, valid := true }),
  (LOG4, {
    execute := Calls.makeLog 4, dynamicGas := Calls.makeGasLog 4, minStack := minStack 6 0,
    maxStack := maxStack 6 0, memorySize := Calls.memoryLog, valid := true }),
  (CREATE, {
    execute := Calls.opCreate, dynamicGas := Calls.gasCreate, minStack := minStack 3 1,
    maxStack := maxStack 3 1, memorySize := Calls.memoryCreate, valid := true }),
  (CALL, {
    execute := Calls.opCall, dynamicGas := Calls.gasCall, minStack := minStack 7 1,
    maxStack := maxStack 7 1, memorySize := Calls.memoryCall, valid := true }),
  (CALLCODE, {
    execute := Calls.opCallCode, dynamicGas := Calls.gasCallCode, minStack := minStack 7 1,
    maxStack := maxStack 7 1, memorySize := Calls.memoryCall, valid := true }),
  (RETURN, {
    execute := Calls.opReturn, dynamicGas := Calls.gasReturn, minStack := minStack 2 0,
    maxStack := maxStack 2 0, memorySize := Calls.memoryReturn, valid := true }),
  (SELFDESTRUCT, {
    execute := Calls.opSuicide, dynamicGas := Calls.gasSuicide, minStack := minStack 1 0,
    maxStack := maxStack 1 0, valid := true })]

/-- `newHomesteadInstructionSet`. -/
def newHomesteadInstructionSet : JumpTable :=
  newFrontierInstructionSet
    |>.set DELEGATECALL {
      execute := Calls.opDelegateCall, dynamicGas := Calls.gasDelegateCall,
      minStack := minStack 6 1, maxStack := maxStack 6 1, memorySize := Calls.memoryDelegateCall,
      valid := true }

/-- `newByzantiumInstructionSet`. -/
def newByzantiumInstructionSet : JumpTable :=
  newHomesteadInstructionSet
    |>.set STATICCALL {
      execute := Calls.opStaticCall, dynamicGas := Calls.gasStaticCall, minStack := minStack 6 1,
      maxStack := maxStack 6 1, memorySize := Calls.memoryStaticCall, valid := true }
    |>.set RETURNDATASIZE {
      execute := Calls.opReturnDataSize, minStack := minStack 0 1, maxStack := maxStack 0 1,
      valid := true }
    |>.set RETURNDATACOPY {
      execute := Calls.opReturnDataCopy, dynamicGas := Calls.gasReturnDataCopy,
      minStack := minStack 3 0, maxStack := maxStack 3 0, memorySize := Calls.memoryReturnDataCopy,
      valid := true }
    |>.set REVERT {
      execute := Calls.opRevert, dynamicGas := Calls.gasRevert, minStack := minStack 2 0,
      maxStack := maxStack 2 0, memorySize := Calls.memoryRevert, valid := true }

/-- `newConstantinopleInstructionSet`. -/
def newConstantinopleInstructionSet : JumpTable :=
  newByzantiumInstructionSet
    |>.set SHL {
      execute := Calls.opSHL, minStack := minStack 2 1, maxStack := maxStack 2 1, valid := true }
    |>.set SHR {
      execute := Calls.opSHR, minStack := minStack 2 1, maxStack := maxStack 2 1, valid := true }
    |>.set SAR {
      execute := Calls.opSAR, minStack := minStack 2 1, maxStack := maxStack 2 1, valid := true }
    |>.set EXTCODEHASH {
      execute := Calls.opExtCodeHash, dynamicGas := Calls.gasExtCodeHash, minStack := minStack 1 1,
      maxStack := maxStack 1 1, valid := true }
    |>.set CREATE2 {
      execute := Calls.opCreate2, dynamicGas := Calls.gasCreate2, minStack := minStack 4 1,
      maxStack := maxStack 4 1, memorySize := Calls.memoryCreate2, valid := true }

/-! ### The bounds `Run` checks are enough -/

/-- The checks `Run` makes before it runs an operation: the opcode is valid and the stack length
lies within the operation's bounds. -/
def validateOp (jt : JumpTable) (op : UInt8) (stack : Stack) : Except String Operation :=
  let operation := jt.get op
  if !operation.valid then
    .error ("invalid opcode 0x" ++ String.ofList (Nat.toDigits 16 op.toNat))
  else if stack.len < operation.minStack then
    .error ("stack underflow (" ++ toString stack.len ++ " <=> " ++ toString operation.minStack ++
      ")")
  else if stack.len > operation.maxStack then
    .error ("stack limit reached " ++ toString stack.len ++ " (" ++ toString operation.maxStack ++
      ")")
  else .ok operation

/-- The stack calls `Run` makes for an operation along one path of its `execute`: the read of the
value a `CALL` would transfer, which it makes in read-only mode, the reads of `memorySize` and
`dynamicGas`, and the path. -/
def Operation.pathCalls (o : Operation) (op : UInt8) (path : List StackCall) : List StackCall :=
  (if op = CALL then [.back 2] else []) ++ o.memorySize ++ o.dynamicGas ++ path

/-- What the bounds of an operation have to give each path: at `minStack` every call finds its
items, and from `maxStack` the stack ends within `StackLimit`. -/
def Operation.boundsFit (o : Operation) (op : UInt8) : Bool :=
  o.execute.all fun path =>
    (runLenCalls (o.pathCalls op path) o.minStack).isSome &&
      (runLenCalls (o.pathCalls op path) o.maxStack).all (· ≤ StackLimit)

theorem Operation.boundsFit_sound {o : Operation} {op : UInt8} (h : o.boundsFit op = true)
    {stack : Stack} (hmin : o.minStack ≤ stack.len) (hmax : stack.len ≤ o.maxStack) :
    ∀ path ∈ o.execute, ∃ st', runCalls (o.pathCalls op path) stack = some st' ∧
      st'.len ≤ StackLimit := by
  intro path hpath
  simp only [boundsFit, List.all_eq_true, Bool.and_eq_true] at h
  obtain ⟨hlo, hhi⟩ := h path hpath
  obtain ⟨m, hm⟩ := Option.isSome_iff_exists.mp hlo
  -- every length from `minStack` on is `minStack` shifted
  have hshift : ∀ n, o.minStack ≤ n →
      runLenCalls (o.pathCalls op path) n = some (m + (n - o.minStack)) := by
    intro n hn
    have := runLenCalls_add hm (n - o.minStack)
    rwa [Nat.add_sub_cancel' hn] at this
  rw [hshift o.maxStack (hmin.trans hmax), Option.all_some, decide_eq_true_eq] at hhi
  have hrun := map_len_runCalls (o.pathCalls op path) stack
  rw [hshift stack.len hmin, Option.map_eq_some_iff] at hrun
  obtain ⟨st', hst', hlen⟩ := hrun
  exact ⟨st', hst', by omega⟩

/-- `SWAP1` declared with `minSwapStack(1)`, one short of the two items its swap reaches. -/
example :
    ({ execute := Calls.makeSwap 1, minStack := minSwapStack 1, maxStack := maxSwapStack 1,
       valid := true } : Operation).boundsFit SWAP1 = false := by
  decide

theorem JumpTable.mem_of_get_valid {jt : JumpTable} {op : UInt8} (h : (jt.get op).valid = true) :
    (op, jt.get op) ∈ jt := by
  induction jt with
  | nil => simp [get] at h
  | cons e jt ih =>
    obtain ⟨k, o⟩ := e
    by_cases hk : op = k
    · subst hk
      simp [get]
    · have hb : (op == k) = false := by simpa using hk
      have hget : JumpTable.get ((k, o) :: jt) op = JumpTable.get jt op := by
        simp only [get, List.lookup_cons, hb]
      rw [hget] at h ⊢
      exact List.mem_cons_of_mem _ (ih h)

theorem validateOp_eq_ok {jt : JumpTable} {op : UInt8} {stack : Stack} {o : Operation}
    (h : validateOp jt op stack = .ok o) :
    o = jt.get op ∧ o.valid = true ∧ o.minStack ≤ stack.len ∧ stack.len ≤ o.maxStack := by
  dsimp only [validateOp] at h
  split_ifs at h with hv hlo hhi
  cases h
  simp only [Bool.not_eq_true', Bool.not_eq_false] at hv
  exact ⟨rfl, hv, by omega, by omega⟩

theorem newConstantinopleInstructionSet_boundsFit :
    ∀ e ∈ newConstantinopleInstructionSet, e.2.boundsFit e.1 = true := by
  decide +kernel

theorem JumpTable.mem_set {jt : JumpTable} {e : UInt8 × Operation} (op : UInt8) (o : Operation)
    (h : e ∈ jt) : e ∈ jt.set op o :=
  List.mem_cons_of_mem _ h

/-- Each instruction set extends the one before it, so its entries are all Constantinople's. -/
theorem mem_newConstantinopleInstructionSet {e : UInt8 × Operation}
    (h : e ∈ newFrontierInstructionSet ∨ e ∈ newHomesteadInstructionSet ∨
      e ∈ newByzantiumInstructionSet ∨ e ∈ newConstantinopleInstructionSet) :
    e ∈ newConstantinopleInstructionSet := by
  have hhomestead : ∀ e ∈ newFrontierInstructionSet, e ∈ newHomesteadInstructionSet :=
    fun _ he => JumpTable.mem_set _ _ he
  have hbyzantium : ∀ e ∈ newHomesteadInstructionSet, e ∈ newByzantiumInstructionSet :=
    fun _ he => JumpTable.mem_set _ _ (JumpTable.mem_set _ _ (JumpTable.mem_set _ _
      (JumpTable.mem_set _ _ he)))
  have hconstantinople : ∀ e ∈ newByzantiumInstructionSet, e ∈ newConstantinopleInstructionSet :=
    fun _ he => JumpTable.mem_set _ _ (JumpTable.mem_set _ _ (JumpTable.mem_set _ _
      (JumpTable.mem_set _ _ (JumpTable.mem_set _ _ he))))
  rcases h with h | h | h | h
  · exact hconstantinople _ (hbyzantium _ (hhomestead _ h))
  · exact hconstantinople _ (hbyzantium _ h)
  · exact hconstantinople _ h
  · exact h

/-- In each of the four instruction sets, an operation that passes `Run`'s checks on a stack finds
every item it reads, pops, dups or swaps along each path of its execute function, and leaves at
most `StackLimit` items. -/
theorem jumpTable_stack_bounds_sound (jt : JumpTable)
    (hjt : jt = newFrontierInstructionSet ∨ jt = newHomesteadInstructionSet ∨
      jt = newByzantiumInstructionSet ∨ jt = newConstantinopleInstructionSet)
    (op : UInt8) (stack : Stack) (o : Operation) (h : validateOp jt op stack = .ok o) :
    ∀ path ∈ o.execute, ∃ st', runCalls (o.pathCalls op path) stack = some st' ∧
      st'.len ≤ StackLimit := by
  obtain ⟨rfl, hvalid, hmin, hmax⟩ := validateOp_eq_ok h
  have hmem : (op, jt.get op) ∈ newConstantinopleInstructionSet := by
    have hjt' := JumpTable.mem_of_get_valid hvalid
    apply mem_newConstantinopleInstructionSet
    rcases hjt with rfl | rfl | rfl | rfl
    · exact .inl hjt'
    · exact .inr (.inl hjt')
    · exact .inr (.inr (.inl hjt'))
    · exact .inr (.inr (.inr hjt'))
  exact Operation.boundsFit_sound (newConstantinopleInstructionSet_boundsFit _ hmem) hmin hmax

theorem jumpTable_stack_bounds_sound_swap1 :
    ∃ st', runCalls ((newFrontierInstructionSet.get SWAP1).pathCalls SWAP1 [.swap 2]) ⟨[1, 2]⟩ =
      some st' ∧ st'.len ≤ StackLimit :=
  jumpTable_stack_bounds_sound _ (.inl rfl) SWAP1 ⟨[1, 2]⟩ _ rfl _ (by decide +kernel)

/-- The `opExp` of `instructions.go` changes the length of the stack as the calls of
`Calls.opExp` say. -/
theorem opExp_runLen (stack : Stack) :
    ∀ path ∈ Calls.opExp, (opExp stack).map Stack.len = runLenCalls path stack.len := by
  intro path hpath
  simp only [Calls.opExp, List.mem_singleton] at hpath
  subst hpath
  obtain ⟨data⟩ := stack
  rcases List.eq_nil_or_concat data with rfl | ⟨data, b, rfl⟩
  · rfl
  · rcases List.eq_nil_or_concat data with rfl | ⟨rest, e, rfl⟩
    · -- one item: the second pop fails
      simp [opExp, Stack.pop, runLenCalls, StackCall.runLen, Stack.len]
    · rw [List.concat_eq_append, List.concat_eq_append, List.append_assoc, List.singleton_append,
        opExp_eq]
      simp [runLenCalls, StackCall.runLen, Stack.len]

end Ccmchain.Vm
