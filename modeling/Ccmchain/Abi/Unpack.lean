import Ccmchain.Abi.Type

/-!
# `accounts/abi/unpack.go`: decoding return data and logs

`toGoType` reads the value of a type at a byte index of the output: a static value in place, a
dynamic one through the offset at the index. Arrays and slices go through `forEachUnpack`,
tuples and argument lists through the loop of `forTupleUnpack`, which steps `virtualArgs` past
static arrays and tuples encoded in place.

The offsets of length-prefixed values (`lengthPrefixPointsTo`) and of dynamic tuples
(`tuplePointsTo`) are checked against the length of the output before they are used. The
offset of a fixed-size array of dynamic elements is not: it is sliced from as it is read.
-/

namespace Ccmchain.Abi

open Common

/-! ### Reading words -/

/-- The integer kinds `reflectIntKindAndType` chooses: native ones for the sizes 8, 16, 32 and
64, a `*big.Int` (`Ptr`) for every other size. -/
inductive IntKind where
  | Uint8 | Uint16 | Uint32 | Uint64 | Int8 | Int16 | Int32 | Int64 | Ptr
  deriving Repr, DecidableEq

/-- `reflectIntKindAndType`, its kind. -/
def reflectIntKind (unsigned : Bool) (size : Nat) : IntKind :=
  match size, unsigned with
  | 8, true => .Uint8
  | 8, false => .Int8
  | 16, true => .Uint16
  | 16, false => .Int16
  | 32, true => .Uint32
  | 32, false => .Int32
  | 64, true => .Uint64
  | 64, false => .Int64
  | _, _ => .Ptr

/-- The kind `NewType` records for an integer type. -/
def AbiType.intKind : AbiType → IntKind
  | .IntTy size => reflectIntKind false size
  | .UintTy size => reflectIntKind true size
  | _ => .Ptr

/-- `binary.BigEndian.UintN(b[len(b)-n:])`. -/
def lastBytesValue (n : Nat) (b : Bytes) : Nat := BigEndian.toNat (b.drop (b.length - n))

/-- `intN(v)`: the `bits`-bit two's complement reading of `v`. -/
def toSigned (bits v : Nat) : Int := if v < 2 ^ (bits - 1) then v else (v : Int) - 2 ^ bits

/-- `maxInt256`. -/
def maxInt256 : Nat := 2 ^ 255 - 1

/-- `readInteger`. -/
def readInteger (typ : AbiType) (kind : IntKind) (b : Bytes) : Int :=
  match kind with
  | .Uint8 => lastBytesValue 1 b
  | .Uint16 => lastBytesValue 2 b
  | .Uint32 => lastBytesValue 4 b
  | .Uint64 => lastBytesValue 8 b
  | .Int8 => toSigned 8 (lastBytesValue 1 b)
  | .Int16 => toSigned 16 (lastBytesValue 2 b)
  | .Int32 => toSigned 32 (lastBytesValue 4 b)
  | .Int64 => toSigned 64 (lastBytesValue 8 b)
  | .Ptr =>
    let ret := BigEndian.toNat b
    match typ with
    | .UintTy _ => ret
    -- on the EVM a word above `maxInt256` is a negative number
    | _ => if ret > maxInt256 then (ret : Int) - 2 ^ 256 else ret

/-- `errBadBool`. -/
def errBadBool : Fault := .error "abi: improperly encoded boolean value"

/-- `readBool`. -/
def readBool (word : Bytes) : Except Fault Bool :=
  if (word.take 31).any (· != 0) then throw errBadBool
  else if word[31]? = some 0 then pure false
  else if word[31]? = some 1 then pure true
  else throw errBadBool

/-- A byte slice as `%v` prints it. -/
def formatBytes (b : Bytes) : String :=
  "[" ++ " ".intercalate (b.map fun x => toString x) ++ "]"

/-- `readFunctionType` of a word; its test of the type holds at its only call. -/
def readFunctionType (word : Bytes) : Except Fault Bytes :=
  if BigEndian.toNat ((word.drop 24).take 8) ≠ 0 then
    throw (.error ("abi: got improperly encoded function type, got " ++ formatBytes word))
  else pure (word.take 24)

/-- `readFixedBytes` of a word; its test of the type holds at its only call. -/
def readFixedBytes (size : Nat) (word : Bytes) : Except Fault Bytes :=
  slice word 0 size

/-! ### Offsets -/

/-- `lengthPrefixPointsTo`: the start and the length of the value whose length word the offset
at `index` points to. -/
def lengthPrefixPointsTo (index : Int) (output : Bytes) : Except Fault (Nat × Nat) := do
  let bigOffsetEnd := BigEndian.toNat (← slice output index (index + 32)) + 32
  let outputLength := output.length
  if bigOffsetEnd > outputLength then
    throw (.error ("abi: cannot marshal in to go slice: offset " ++ toString bigOffsetEnd ++
      " would go over slice boundary (len=" ++ toString outputLength ++ ")"))
  if BitLen bigOffsetEnd > 63 then
    throw (.error ("abi offset larger than int64: " ++ toString bigOffsetEnd))
  let offsetEnd := bigOffsetEnd
  let lengthBig := BigEndian.toNat (← slice output (offsetEnd - 32) offsetEnd)
  let totalSize := bigOffsetEnd + lengthBig
  if BitLen totalSize > 63 then
    throw (.error ("abi: length larger than int64: " ++ toString totalSize))
  if totalSize > outputLength then
    throw (.error ("abi: cannot marshal in to go type: length insufficient " ++
      toString outputLength ++ " require " ++ toString totalSize))
  pure (bigOffsetEnd, lengthBig)

/-- `tuplePointsTo`: the offset at `index`. -/
def tuplePointsTo (index : Int) (output : Bytes) : Except Fault Nat := do
  let offset := BigEndian.toNat (← slice output index (index + 32))
  let outputLen := output.length
  if offset > output.length then
    throw (.error ("abi: cannot marshal in to go slice: offset " ++ toString offset ++
      " would go over slice boundary (len=" ++ toString outputLen ++ ")"))
  if BitLen offset > 63 then
    throw (.error ("abi offset larger than int64: " ++ toString offset))
  pure offset

/-! ### Decoding -/

/-- `forEachUnpack` for a slice or an array of `elem`, with `toGoType` at `elem` passed in as
`unpackElem`. Its callers pass a slice or array type and a size that is not negative, so its
first and third errors cannot arise. -/
def forEachUnpack (elem : AbiType) (unpackElem : Int → Bytes → Except Fault Value)
    (output : Bytes) (start size : Nat) : Except Fault Value := do
  if start + 32 * size > output.length then
    throw (.error ("abi: cannot marshal in to go array: offset " ++ toString output.length ++
      " would go over slice boundary (len=" ++ toString (start + 32 * size) ++ ")"))
  let elemSize := getTypeSize elem
  let refSlice ← (List.range size).mapM fun j => unpackElem (start + j * elemSize : Nat) output
  pure (.array refSlice)

mutual
/-- `toGoType`. -/
def toGoType (index : Int) (t : AbiType) (output : Bytes) : Except Fault Value := do
  if index + 32 > output.length then
    throw (.error ("abi: cannot marshal in to go type: length insufficient " ++
      toString output.length ++ " require " ++ toString (index + 32)))
  let (returnOutput, begin, length) ← do
    if t.requiresLengthPrefix then
      let (begin, length) ← lengthPrefixPointsTo index output
      pure ([], begin, length)
    else
      let returnOutput ← slice output index (index + 32)
      pure (returnOutput, 0, 0)
  match t with
  | .TupleTy elems =>
    if isDynamicType t then do
      let begin ← tuplePointsTo index output
      .tuple <$> forTupleUnpack (← sliceFrom output begin) elems 0 0
    else .tuple <$> forTupleUnpack (← sliceFrom output index) elems 0 0
  | .SliceTy elem =>
    forEachUnpack elem (fun i out => toGoType i elem out) (← sliceFrom output begin) 0 length
  | .ArrayTy elem size =>
    if isDynamicType elem then do
      let offset := toInt64 (BigEndian.toNat (returnOutput.drop (returnOutput.length - 8)))
      forEachUnpack elem (fun i out => toGoType i elem out) (← sliceFrom output offset) 0 size
    else forEachUnpack elem (fun i out => toGoType i elem out) (← sliceFrom output index) 0 size
  | .StringTy => .string <$> slice output begin (begin + length)
  | .IntTy _ | .UintTy _ => pure (.int (readInteger t t.intKind returnOutput))
  | .BoolTy => .bool <$> readBool returnOutput
  | .AddressTy => pure (.address (BytesToAddress returnOutput))
  | .HashTy => pure (.hash (BytesToHash returnOutput))
  | .BytesTy => .bytes <$> slice output begin (begin + length)
  | .FixedBytesTy size => .bytes <$> readFixedBytes size returnOutput
  | .FunctionTy => .bytes <$> readFunctionType returnOutput
  | .FixedPointTy => throw (.error "abi: unknown type 11")

/-- `forTupleUnpack` from the element at `index` on. -/
def forTupleUnpack (output : Bytes) : List AbiType → Nat → Int → Except Fault (List Value)
  | [], _, _ => pure []
  | elem :: elems, index, virtualArgs => do
    let marshalledValue ← toGoType ((index + virtualArgs) * 32) elem output
    let rest ← forTupleUnpack output elems (index + 1) (virtualArgsAfter elem virtualArgs)
    pure (marshalledValue :: rest)
end

/-- `Arguments.UnpackValues`: its loop over the non-indexed arguments is the one of
`forTupleUnpack` over their types. -/
def Arguments.UnpackValues (arguments : Arguments) (data : Bytes) : Except Fault (List Value) :=
  forTupleUnpack data (arguments.NonIndexed.map (·.«Type»)) 0 0

end Ccmchain.Abi

namespace Ccmchain.Abi

open Common

/-! ### Slicing -/

theorem slice_eq_ok {s : Bytes} {low high : Int} (h0 : 0 ≤ low) (hle : low ≤ high)
    (hhigh : high ≤ s.length) :
    slice s low high = .ok ((s.drop low.toNat).take (high - low).toNat) := by
  simp [slice, h0, hle, hhigh]

theorem slice_eq_panic {s : Bytes} {low high : Int} (h : ¬ (0 ≤ low ∧ low ≤ high ∧ high ≤ s.length)) :
    slice s low high = .error (.panic "runtime error: slice bounds out of range") := by
  simp only [slice, if_neg h]
  rfl

/-- The word at `index`, in bounds. -/
theorem slice_word {output : Bytes} {index : Int} (h0 : 0 ≤ index)
    (hlen : index + 32 ≤ output.length) :
    slice output index (index + 32) = .ok ((output.drop index.toNat).take 32) := by
  rw [slice_eq_ok h0 (by omega) hlen]
  simp

theorem length_word {output : Bytes} {index : Int} (h0 : 0 ≤ index)
    (hlen : index + 32 ≤ output.length) : ((output.drop index.toNat).take 32).length = 32 := by
  simp only [List.length_take, List.length_drop]
  omega

/-! ### A fixed-size array of dynamic elements -/

/-- `toGoType` at a fixed-size array of dynamic elements, inside the output: the offset is the
last 8 bytes of the word at `index`, read as an `int64`, and the output is sliced from it. -/
theorem toGoType_dynamicArray {index : Int} {elem : AbiType} {size : Nat} {output : Bytes}
    (hdyn : isDynamicType elem = true) (h0 : 0 ≤ index) (hlen : index + 32 ≤ output.length) :
    toGoType index (.ArrayTy elem size) output = (do
      let offset := toInt64 (BigEndian.toNat (((output.drop index.toNat).take 32).drop 24))
      forEachUnpack elem (fun i out => toGoType i elem out) (← sliceFrom output offset) 0 size) := by
  have hfit : ¬ (index + 32 > output.length) := by omega
  rw [toGoType]
  simp only [hfit, AbiType.requiresLengthPrefix, Bool.false_eq_true, ↓reduceIte,
    slice_word h0 hlen, Except.ok_bind, Except.pure_eq_ok, length_word h0 hlen, hdyn]

theorem unpackValues_panics_on_array_offset (name : String) (elem : AbiType) (size : Nat)
    (data : Bytes) (hdyn : isDynamicType elem = true) (hlen : 32 ≤ data.length)
    (hoff : ¬ (0 ≤ toInt64 (BigEndian.toNat ((data.take 32).drop 24)) ∧
      toInt64 (BigEndian.toNat ((data.take 32).drop 24)) ≤ data.length)) :
    Arguments.UnpackValues [⟨name, .ArrayTy elem size, false⟩] data =
      .error (.panic "runtime error: slice bounds out of range") := by
  have harray := @toGoType_dynamicArray 0 elem size data hdyn (le_refl 0) (by simpa using hlen)
  have hpanic : sliceFrom data (toInt64 (BigEndian.toNat ((data.take 32).drop 24))) =
      .error (.panic "runtime error: slice bounds out of range") :=
    slice_eq_panic (by simpa using hoff)
  simp only [List.drop_zero, Int.toNat_zero] at harray
  simp [Arguments.UnpackValues, Arguments.NonIndexed, forTupleUnpack, harray, hpanic]

theorem unpackValues_panics_on_string_array :
    isDynamicType .StringTy = true ∧ 32 ≤ (List.replicate 31 0 ++ [64] : Bytes).length ∧
    ¬ (0 ≤ toInt64 (BigEndian.toNat (((List.replicate 31 0 ++ [64] : Bytes).take 32).drop 24)) ∧
      toInt64 (BigEndian.toNat (((List.replicate 31 0 ++ [64] : Bytes).take 32).drop 24)) ≤
        (List.replicate 31 0 ++ [64] : Bytes).length) ∧
    Arguments.UnpackValues [⟨"values", .ArrayTy .StringTy 1, false⟩] (List.replicate 31 0 ++ [64]) =
      .error (.panic "runtime error: slice bounds out of range") :=
  ⟨rfl, by decide, by decide +kernel,
    unpackValues_panics_on_array_offset "values" .StringTy 1 _ rfl (by decide) (by decide +kernel)⟩

/-! ### A static array of static tuples -/

set_option maxRecDepth 20000 in
theorem unpackValues_misreads_argument_after_tuple_array :
    let arguments : Arguments :=
      [⟨"pairs", .ArrayTy (.TupleTy [.UintTy 256, .UintTy 256]) 2, false⟩,
        ⟨"last", .UintTy 256, false⟩]
    let values : List Value := [.array [.tuple [.int 1, .int 2], .tuple [.int 3, .int 4]], .int 5]
    fitsFields (arguments.map (·.«Type»)) values = true ∧
    getTypeSize (.ArrayTy (.TupleTy [.UintTy 256, .UintTy 256]) 2) = 64 ∧
    arguments.Pack values = .ok (([1, 2, 3, 4, 5] : List Int).flatMap packNum) ∧
    arguments.UnpackValues (([1, 2, 3, 4, 5] : List Int).flatMap packNum) =
      .ok [.array [.tuple [.int 1, .int 2], .tuple [.int 3, .int 4]], .int 3] := by
  refine ⟨?_, ?_, ?_, ?_⟩
  · decide
  · decide
  · rfl
  · rfl

end Ccmchain.Abi
