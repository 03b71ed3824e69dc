import Ccmchain.Signer.TypedData
import Ccmchain.Lib.Except

/-!
# `accounts/abi`: types, values and packing

An ABI type is the `Type` struct of `type.go`, here one constructor per `T` tag with the fields
that tag uses (`Elem`, `Size`, `TupleElems`). A Go value handed to `Pack` or returned by
`UnpackValues` is a `Value`: integers of every width are `Int`, byte arrays and slices are byte
lists, arrays and slices of other types are lists, structs are their fields in order.

A call ends with a value, a returned `error`, or a runtime panic; `Fault` keeps the two
failures apart, and every slicing expression of the source goes through `slice`, which panics
out of range as Go does (the model gives a slice no capacity beyond its length).
-/

namespace Ccmchain.Abi

open Common

/-- `Type`: an ABI type. `NewType` builds every constructor but `HashTy` and `FixedPointTy`. -/
inductive AbiType where
  | IntTy (size : Nat)
  | UintTy (size : Nat)
  | BoolTy
  | StringTy
  | SliceTy (elem : AbiType)
  | ArrayTy (elem : AbiType) (size : Nat)
  | TupleTy (elems : List AbiType)
  | AddressTy
  | FixedBytesTy (size : Nat)
  | BytesTy
  | HashTy
  | FixedPointTy
  | FunctionTy
  deriving Repr

/-- `Argument`: a named argument of a method or an event. -/
structure Argument where
  Name : String
  «Type» : AbiType
  Indexed : Bool
  deriving Repr

/-- `Arguments`. -/
abbrev Arguments := List Argument

/-- `Arguments.NonIndexed`. -/
def Arguments.NonIndexed (arguments : Arguments) : Arguments :=
  arguments.filter fun arg => !arg.Indexed

/-- A Go value of an ABI type. -/
inductive Value where
  | int (v : Int)
  | bool (b : Bool)
  | string (s : Bytes)
  | bytes (b : Bytes)
  | address (a : Address)
  | hash (h : Hash)
  | array (elems : List Value)
  | tuple (fields : List Value)
  deriving Repr

/-- How a call fails: a returned `error`, or a runtime panic. -/
inductive Fault where
  | error (msg : String)
  | panic (msg : String)
  deriving Repr, DecidableEq

/-- A fault that is a panic. -/
def Fault.IsPanic : Fault → Prop
  | .panic _ => True
  | .error _ => False

/-- Go's `s[low:high]`, out of range a panic. -/
def slice (s : Bytes) (low high : Int) : Except Fault Bytes :=
  if 0 ≤ low ∧ low ≤ high ∧ high ≤ s.length then
    pure ((s.drop low.toNat).take (high - low).toNat)
  else throw (.panic "runtime error: slice bounds out of range")

/-- Go's `s[low:]`. -/
def sliceFrom (s : Bytes) (low : Int) : Except Fault Bytes :=
  slice s low s.length

/-! ### `type.go` -/

/-- `requiresLengthPrefix`. -/
def AbiType.requiresLengthPrefix : AbiType → Bool
  | .StringTy | .BytesTy | .SliceTy _ => true
  | _ => false

/-- `t.T == ArrayTy`. -/
def AbiType.isArray : AbiType → Bool
  | .ArrayTy .. => true
  | _ => false

mutual
/-- `isDynamicType`. -/
def isDynamicType : AbiType → Bool
  | .TupleTy elems => anyDynamicType elems
  | .StringTy | .BytesTy | .SliceTy _ => true
  | .ArrayTy elem _ => isDynamicType elem
  | _ => false

/-- The loop of `isDynamicType` over the elements of a tuple. -/
def anyDynamicType : List AbiType → Bool
  | [] => false
  | elem :: elems => isDynamicType elem || anyDynamicType elems
end

mutual
/-- `getTypeSize`: the bytes a static type takes in place, and 32 (an offset) for a dynamic
one. An array of a static type that is not an array counts 32 bytes an element. -/
def getTypeSize : AbiType → Nat
  | .ArrayTy elem size =>
    if !isDynamicType elem then
      if elem.isArray then size * getTypeSize elem else size * 32
    else 32
  | .TupleTy elems => if !anyDynamicType elems then sumTypeSizes elems else 32
  | _ => 32

/-- The loop of `getTypeSize` over the elements of a tuple. -/
def sumTypeSizes : List AbiType → Nat
  | [] => 0
  | elem :: elems => getTypeSize elem + sumTypeSizes elems
end

@[simp] theorem anyDynamicType_eq_any (elems : List AbiType) :
    anyDynamicType elems = elems.any isDynamicType := by
  induction elems with
  | nil => rfl
  | cons elem elems ih => simp [anyDynamicType, ih]

@[simp] theorem sumTypeSizes_eq_sum (elems : List AbiType) :
    sumTypeSizes elems = (elems.map getTypeSize).sum := by
  induction elems with
  | nil => rfl
  | cons elem elems ih => simp [sumTypeSizes, ih]

/-- The static arrays and tuples are encoded in place; `UnpackValues` and `forTupleUnpack`
advance `virtualArgs` past the words they take beyond the first. -/
def virtualArgsAfter (elem : AbiType) (virtualArgs : Int) : Int :=
  match elem with
  | .ArrayTy .. | .TupleTy _ =>
    if !isDynamicType elem then virtualArgs + ((getTypeSize elem / 32 : Nat) : Int) - 1
    else virtualArgs
  | _ => virtualArgs

mutual
/-- The Go value has the Go type of the ABI type and is within its range: the domain of
`Pack`. -/
def fits : AbiType → Value → Bool
  | .IntTy size, .int v => -2 ^ (size - 1) ≤ v && v < 2 ^ (size - 1)
  | .UintTy size, .int v => 0 ≤ v && v < 2 ^ size
  | .BoolTy, .bool _ => true
  | .StringTy, .string _ => true
  | .SliceTy elem, .array vs => vs.all fun v => fits elem v
  | .ArrayTy elem size, .array vs => vs.length == size && vs.all fun v => fits elem v
  | .TupleTy elems, .tuple fields => fitsFields elems fields
  | .AddressTy, .address _ => true
  | .FixedBytesTy size, .bytes b => b.length == size
  | .BytesTy, .bytes _ => true
  | .HashTy, .hash _ => true
  | .FunctionTy, .bytes b => b.length == 24
  | _, _ => false

/-- `fits` field by field. -/
def fitsFields : List AbiType → List Value → Bool
  | [], [] => true
  | elem :: elems, field :: fields => fits elem field && fitsFields elems fields
  | _, _ => false
end

/-! ### `pack.go` and `Type.pack` -/

/-- `packNum`: the 256-bit two's complement word of an integer of any kind. -/
def packNum (n : Int) : Bytes := Signer.U256Bytes n

/-- `packBytesSlice`: the length, then the bytes padded to whole words. -/
def packBytesSlice (bytes : Bytes) (l : Nat) : Bytes :=
  packNum l ++ RightPadBytes bytes ((l + 31) / 32 * 32)

/-- `packElement`. -/
def packElement : AbiType → Value → Except Fault Bytes
  | .IntTy _, .int n | .UintTy _, .int n => pure (packNum n)
  | .StringTy, .string s => pure (packBytesSlice s s.length)
  | .AddressTy, .address a => pure (List.replicate 12 0 ++ a.Bytes)
  | .BoolTy, .bool b => pure (Signer.PaddedBigBytes (if b then 1 else 0) 32)
  | .BytesTy, .bytes b => pure (packBytesSlice b b.length)
  | .FixedBytesTy _, .bytes b | .FunctionTy, .bytes b => pure (RightPadBytes b 32)
  | _, _ => throw (.panic "abi: fatal error")

/-- `typeCheck`: the kind of the value against the type, and the length of a fixed array or
fixed bytes. The elements of an array are checked when they are packed. -/
def typeCheck : AbiType → Value → Bool
  | .IntTy _, .int _ | .UintTy _, .int _ => true
  | .BoolTy, .bool _ | .StringTy, .string _ => true
  | .SliceTy _, .array _ => true
  | .ArrayTy _ size, .array vs => vs.length == size
  | .TupleTy _, .tuple _ => true
  | .AddressTy, .address _ | .HashTy, .hash _ => true
  | .FixedBytesTy size, .bytes b => b.length == size
  | .BytesTy, .bytes _ | .FunctionTy, .bytes _ => true
  | _, _ => false

/-- `typeErr`; the model has no reflect types to print in it. -/
def typeErr : Fault := .error "abi: cannot use %v as type %v as argument"

/-- The element loop of `Type.pack` for a slice or an array over the packed elements: in place,
or, for dynamic elements, their offsets in the head and the encodings in the tail. -/
def packElems (offsetReq : Bool) : List Bytes → Bytes × Nat × Bytes → Bytes × Nat × Bytes
  | [], acc => acc
  | val :: vals, (ret, offset, tail) =>
    if !offsetReq then packElems offsetReq vals (ret ++ val, offset, tail)
    else packElems offsetReq vals (ret ++ packNum offset, offset + val.length, tail ++ val)

mutual
/-- `Type.pack`. -/
def AbiType.pack (t : AbiType) (v : Value) : Except Fault Bytes := do
  if !typeCheck t v then throw typeErr
  match t, v with
  | .SliceTy elem, .array vs | .ArrayTy elem _, .array vs =>
    let ret := if t.requiresLengthPrefix then packNum vs.length else []
    let offsetReq := isDynamicType elem
    let offset := if offsetReq then getTypeSize elem * vs.length else 0
    let vals ← vs.mapM fun v => elem.pack v
    let (ret, _, tail) := packElems offsetReq vals (ret, offset, [])
    pure (ret ++ tail)
  | .TupleTy elems, .tuple fields =>
    let (ret, tail) ← packTuple elems fields (sumTypeSizes elems) [] []
    pure (ret ++ tail)
  | t, v => packElement t v

/-- The loop of `Type.pack` over the fields of a tuple: a static field in place, a dynamic one
as an offset in the head and its encoding in the tail. -/
def packTuple : List AbiType → List Value → Nat → Bytes → Bytes → Except Fault (Bytes × Bytes)
  | [], _, _, ret, tail => pure (ret, tail)
  | elem :: elems, fields, offset, ret, tail => do
    let some field := fields.head?
      | throw (.error "field %s for tuple not found in the given struct")
    let val ← elem.pack field
    if isDynamicType elem then
      packTuple elems fields.tail (offset + val.length) (ret ++ packNum offset) (tail ++ val)
    else packTuple elems fields.tail offset (ret ++ val) tail
end

/-- `Arguments.Pack`: its loop over the arguments is the one over the fields of a tuple. -/
def Arguments.Pack (arguments : Arguments) (args : List Value) : Except Fault Bytes := do
  if args.length ≠ arguments.length then
    throw (.error ("argument count mismatch: " ++ toString args.length ++ " for " ++
      toString arguments.length))
  let types := arguments.map (·.«Type»)
  let (ret, variableInput) ← packTuple types args (sumTypeSizes types) [] []
  pure (ret ++ variableInput)

end Ccmchain.Abi
