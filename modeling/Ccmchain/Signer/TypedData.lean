import Mathlib.Data.List.AList
import Mathlib.Data.List.Sort
import Mathlib.Data.Rat.Defs
import Ccmchain.Common.Math
import Ccmchain.Common.Types
import Ccmchain.Lib.BigEndian

/-!
# Typed-data hashing (`signer/core/signed_data.go`)

`EncodeData` writes the type hash of a struct type and then one word per member: primitive
members by `EncodePrimitiveValue`, struct members as the hash of their own encoding, arrays as the
hash of their elements' encodings. `EncodeType` lists the struct type and the struct types it
depends on (`Dependencies`), which `TypeHash` hashes. Every call of `EncodeData` first checks the
types with `validate`.

Go strings are `String`s, read as lists of characters by the `strings` and `strconv` helpers
below; every type name that passes `validate` is ASCII, so characters are bytes there. A message
is a `map[string]interface{}`: its values are the `Value`s that the encoders accept or reject by
their Go types. `Keccak256` is a parameter.
-/

namespace Ccmchain.Signer

open Common (Bytes)

/-! ### Go's string helpers -/

/-- `strings.HasPrefix`. -/
def hasPrefix (s pre : String) : Bool := pre.toList.isPrefixOf s.toList

/-- `strings.HasSuffix`. -/
def hasSuffix (s suf : String) : Bool := suf.toList.isSuffixOf s.toList

/-- `strings.TrimPrefix`. -/
def trimPrefix (s pre : String) : String :=
  if hasPrefix s pre then String.ofList (s.toList.drop pre.toList.length) else s

/-- `strings.TrimSuffix`. -/
def trimSuffix (s suf : String) : String :=
  if hasSuffix s suf then String.ofList (s.toList.take (s.toList.length - suf.toList.length))
  else s

/-- The value of a nonempty string of digits in `base`. -/
def digitsValue (base : Nat) (ds : List Char) : Option Nat :=
  if ds = [] then none
  else ds.foldlM (fun n c =>
    let d := if c.isDigit then c.toNat - '0'.toNat
      else if 'a' ≤ c ∧ c ≤ 'z' then c.toNat - 'a'.toNat + 10
      else if 'A' ≤ c ∧ c ≤ 'Z' then c.toNat - 'A'.toNat + 10
      else base
    if d < base then some (n * base + d) else none) 0

/-- A sign and the digits of a number in `base`, as `strconv` and `big.Int.SetString` read them. -/
def signedValue (base : Nat) : List Char → Option Int
  | '+' :: ds => (digitsValue base ds).map Int.ofNat
  | '-' :: ds => (digitsValue base ds).map fun n => -(n : Int)
  | ds => (digitsValue base ds).map Int.ofNat

/-- `strconv.Atoi`: a decimal `int`. -/
def Atoi (s : String) : Option Int :=
  (signedValue 10 s.toList).filter fun n => -2 ^ 63 ≤ n ∧ n < 2 ^ 63

/-- `math.ParseBig256`, which `HexOrDecimal256.UnmarshalText` calls: decimal, or hexadecimal
after `0x`, of at most 256 bits; the empty string is zero. -/
def ParseBig256 (s : String) : Option Int :=
  let v := match s.toList with
    | [] => some 0
    | '0' :: 'x' :: ds => signedValue 16 ds
    | '0' :: 'X' :: ds => signedValue 16 ds
    | ds => signedValue 10 ds
  v.filter fun n => Common.BitLen n ≤ 256

/-- `isHexCharacter`. -/
def isHexCharacter (c : Char) : Bool :=
  ('0' ≤ c && c ≤ '9') || ('a' ≤ c && c ≤ 'f') || ('A' ≤ c && c ≤ 'F')

/-- `IsHexAddress`: forty hexadecimal digits, after an optional `0x`. -/
def IsHexAddress (s : String) : Bool :=
  let s := match s.toList with
    | '0' :: 'x' :: cs => cs
    | '0' :: 'X' :: cs => cs
    | cs => cs
  s.length = 40 && s.all isHexCharacter

/-- `HexToAddress(s).Bytes()` for a string that `IsHexAddress` accepts. -/
def HexToAddressBytes (s : String) : Bytes :=
  let s := match s.toList with
    | '0' :: 'x' :: cs => cs
    | '0' :: 'X' :: cs => cs
    | cs => cs
  Common.bytesOf 20 ((digitsValue 16 s).getD 0)

/-- `math.PaddedBigBytes`: the big-endian bytes of `|bigint|`, padded on the left to `n` bytes
unless they are `n` bytes or more already. -/
def PaddedBigBytes (bigint : Int) (n : Nat) : Bytes :=
  if Common.BitLen bigint / 8 ≥ n then BigEndian.ofNat bigint.natAbs
  else Common.bytesOf n bigint.natAbs

/-- `abi.U256`: the 256-bit two's-complement word. -/
def U256Bytes (n : Int) : Bytes := PaddedBigBytes (Common.U256 n) 32

/-! ### Typed data -/

/-- `Type`: a member of a struct type, its name and its type. -/
structure Field where
  Name : String
  «Type» : String
  deriving DecidableEq

/-- `Types`, from struct type names to their members. -/
abbrev Types := AList fun _ : String => List Field

/-- `TypedDataDomain`, with `ChainId` as the integer it holds or `nil`. -/
structure TypedDataDomain where
  Name : String
  Version : String
  ChainId : Option Int
  VerifyingContract : String
  Salt : String

/-- `TypedData`, without the message, which the encoders are given as an argument. -/
structure TypedData where
  Types : Types
  PrimaryType : String
  Domain : TypedDataDomain

/-- The Go values a message holds (`interface{}`): those the JSON decoder makes (`string`,
`float64`, `bool`, `[]interface{}`, `map[string]interface{}`) and the three the encoders also
take (`*math.HexOrDecimal256`, `hexutil.Bytes`, `[]byte`). A `float64` is its value. -/
inductive Value where
  | string (s : String)
  | float (x : ℚ)
  | bool (b : Bool)
  | array (items : List Value)
  | map (entries : List (String × Value))
  | bigInt (n : Int)
  | hexBytes (b : Bytes)
  | bytes (b : Bytes)

mutual

/-- The nesting depth of arrays and maps in a value. -/
def Value.depth : Value → Nat
  | .array items => Value.depthList items + 1
  | .map entries => Value.depthMap entries + 1
  | _ => 0

/-- The greatest depth of a list of values. -/
def Value.depthList : List Value → Nat
  | [] => 0
  | v :: vs => max v.depth (Value.depthList vs)

/-- The greatest depth of the values of a map. -/
def Value.depthMap : List (String × Value) → Nat
  | [] => 0
  | (_, v) :: m => max v.depth (Value.depthMap m)

end

/-- `isArray`. -/
def Field.isArray (t : Field) : Bool := hasSuffix t.«Type» "[]"

/-- `typeName`: the type without a trailing `[]`. -/
def Field.typeName (t : Field) : String :=
  if hasSuffix t.«Type» "[]" then trimSuffix t.«Type» "[]" else t.«Type»

/-- `isReferenceType`: a type with a leading upper-case letter. Go's `unicode.IsUpper` also takes
non-ASCII letters; `validate` rejects such a type either way. -/
def Field.isReferenceType (t : Field) : Bool :=
  match t.«Type».toList with
  | [] => false
  | c :: _ => c.isUpper

/-- `typedDataReferenceTypeRegexp`, `^[A-Z](\w*)(\[\])?$`. -/
def matchesReferenceType (s : String) : Bool :=
  let isWord (c : Char) : Bool := c.isAlphanum || c = '_'
  match s.toList with
  | c :: rest =>
    c.isUpper &&
      (rest.all isWord || (hasSuffix (String.ofList rest) "[]" && (rest.take (rest.length - 2)).all isWord))
  | [] => false

/-- The types `isPrimitiveTypeValid` accepts. -/
def primitiveTypes : List String :=
  ["address", "address[]", "bool", "bool[]", "string", "string[]",
    "bytes", "bytes[]", "bytes1", "bytes1[]", "bytes2", "bytes2[]", "bytes3", "bytes3[]",
    "bytes4", "bytes4[]", "bytes5", "bytes5[]", "bytes6", "bytes6[]", "bytes7", "bytes7[]",
    "bytes8", "bytes8[]", "bytes9", "bytes9[]", "bytes10", "bytes10[]", "bytes11", "bytes11[]",
    "bytes12", "bytes12[]", "bytes13", "bytes13[]", "bytes14", "bytes14[]", "bytes15", "bytes15[]",
    "bytes16", "bytes16[]", "bytes17", "bytes17[]", "bytes18", "bytes18[]", "bytes19", "bytes19[]",
    "bytes20", "bytes20[]", "bytes21", "bytes21[]", "bytes22", "bytes22[]", "bytes23", "bytes23[]",
    "bytes24", "bytes24[]", "bytes25", "bytes25[]", "bytes26", "bytes26[]", "bytes27", "bytes27[]",
    "bytes28", "bytes28[]", "bytes29", "bytes29[]", "bytes30", "bytes30[]", "bytes31", "bytes31[]",
    "int", "int[]", "int8", "int8[]", "int16", "int16[]", "int32", "int32[]", "int64", "int64[]",
    "int128", "int128[]", "int256", "int256[]",
    "uint", "uint[]", "uint8", "uint8[]", "uint16", "uint16[]", "uint32", "uint32[]",
    "uint64", "uint64[]", "uint128", "uint128[]", "uint256", "uint256[]"]

/-- `isPrimitiveTypeValid`. -/
def isPrimitiveTypeValid (primitiveType : String) : Bool := primitiveType ∈ primitiveTypes

/-- The checks of `Types.validate` on member `i` of the type `typeKey`. -/
def validateField (t : Types) (typeKey : String) (i : Nat) (typeObj : Field) :
    Except String Unit :=
  let ty := typeObj.«Type»
  if ty.isEmpty then throw ("type " ++ typeKey ++ ":" ++ toString i ++ ": empty Type")
  else if typeObj.Name.isEmpty then throw ("type " ++ typeKey ++ ":" ++ toString i ++ ": empty Name")
  else if typeKey = ty then throw ("type '" ++ ty ++ "' cannot reference itself")
  else if typeObj.isReferenceType then
    if typeObj.typeName ∉ t then throw ("reference type '" ++ ty ++ "' is undefined")
    else if !matchesReferenceType ty then throw ("unknown reference type '" ++ ty)
    else pure ()
  else if !isPrimitiveTypeValid ty then throw ("unknown type '" ++ ty ++ "'")
  else pure ()

/-- `Types.validate`. Go visits the map in a random order; which error it returns then varies,
whether it returns one does not. -/
def Types.validate (t : Types) : Except String Unit :=
  t.entries.forM fun e => do
    if e.1.isEmpty then throw "empty type key"
    (e.2.zipIdx).forM fun (typeObj, i) => validateField t e.1 i typeObj

/-- `TypedDataDomain.validate`. -/
def TypedDataDomain.validate (domain : TypedDataDomain) : Except String Unit :=
  if domain.ChainId.isNone then throw "chainId must be specified according to EIP-155"
  else if domain.Name.isEmpty && domain.Version.isEmpty && domain.VerifyingContract.isEmpty &&
      domain.Salt.isEmpty then throw "domain is undefined"
  else pure ()

/-- `TypedData.validate`. -/
def TypedData.validate (typedData : TypedData) : Except String Unit := do
  typedData.Types.validate
  typedData.Domain.validate

/-- `Dependencies` with a bound on its recursion. A nested call either returns at once or adds a
key of `t` that `found` lacks, so one more than the number of keys is never reached. -/
def dependencies (t : Types) : Nat → String → List String → List String
  | 0, _, found => found
  | fuel + 1, primaryType, found =>
    if primaryType ∈ found then found
    else match t.lookup primaryType with
      | none => found
      | some fields =>
        fields.foldl (fun found field =>
            (dependencies t fuel field.«Type» found).foldl
              (fun found dep => if dep ∈ found then found else found ++ [dep]) found)
          (found ++ [primaryType])

/-- `Dependencies`: the struct types reachable from `primaryType` through the member types as
they are written, in the order they are first met. -/
def TypedData.Dependencies (typedData : TypedData) (primaryType : String) (found : List String) :
    List String :=
  dependencies typedData.Types (typedData.Types.entries.length + 1) primaryType found

/-- `EncodeType`: the primary type and then its dependencies in order, each as its name and its
members in parentheses. The buffer is built as characters; every byte `Truncate` drops is an ASCII
`,` or `(`. -/
def TypedData.EncodeType (typedData : TypedData) (primaryType : String) : Bytes :=
  -- Get dependencies primary first, then alphabetical
  let deps := match typedData.Dependencies primaryType [] with
    | [] => []
    | _ :: slicedDeps => primaryType :: slicedDeps.insertionSort fun a b => decide (a ≤ b)
  -- Format as a string with fields
  let buffer := deps.foldl (fun buffer dep =>
      let buffer := buffer ++ dep.toList ++ ['(']
      let buffer := ((typedData.Types.lookup dep).getD []).foldl
        (fun buffer obj => buffer ++ obj.«Type».toList ++ [' '] ++ obj.Name.toList ++ [',']) buffer
      buffer.dropLast ++ [')'])
    []
  (String.ofList buffer).toUTF8.toList

section Encode

variable (Keccak256 : Bytes → Bytes)

/-- `TypeHash`. -/
def TypedData.TypeHash (typedData : TypedData) (primaryType : String) : Bytes :=
  Keccak256 (typedData.EncodeType primaryType)

/-- `dataMismatchError`, without the rendering of the value. -/
def dataMismatchError (encType : String) : String :=
  "provided data doesn't match type '" ++ encType ++ "'"

/-- `parseInteger`: the integer a value holds, of at most the type's number of bits. -/
def parseInteger (encType : String) (encValue : Option Value) : Except String Int := do
  let signed := hasPrefix encType "int"
  let length : Int ← if encType = "int" ∨ encType = "uint" then pure 256 else
    let lengthStr := if hasPrefix encType "uint" then trimPrefix encType "uint"
      else trimPrefix encType "int"
    match Atoi lengthStr with
    | some n => pure n
    | none => throw ("invalid size on integer: " ++ lengthStr)
  let b ← match encValue with
    | some (.bigInt n) => pure n
    | some (.string v) =>
      match ParseBig256 v with
      | some n => pure n
      | none => throw ("invalid hex or decimal integer " ++ v)
    -- JSON parses non-strings as float64: only an integer that fits an int64 converts
    | some (.float v) =>
      if v.den = 1 ∧ -2 ^ 63 ≤ v.num ∧ v.num < 2 ^ 63 then pure v.num
      else throw ("invalid float value for type " ++ encType)
    | _ => throw ("invalid integer value for type " ++ encType)
  if (Common.BitLen b : Int) > length then throw ("integer larger than '" ++ encType ++ "'")
  if !signed && b < 0 then throw ("invalid negative value for unsigned type " ++ encType)
  pure b

/-- `EncodePrimitiveValue`, without its unused `depth`. -/
def EncodePrimitiveValue (encType : String) (encValue : Option Value) : Except String Bytes :=
  match encType with
  | "address" =>
    match encValue with
    | some (.string stringValue) =>
      if IsHexAddress stringValue then pure (List.replicate 12 0 ++ HexToAddressBytes stringValue)
      else throw (dataMismatchError encType)
    | _ => throw (dataMismatchError encType)
  | "bool" =>
    match encValue with
    | some (.bool boolValue) => pure (PaddedBigBytes (if boolValue then 1 else 0) 32)
    | _ => throw (dataMismatchError encType)
  | "string" =>
    match encValue with
    | some (.string strVal) => pure (Keccak256 strVal.toUTF8.toList)
    | _ => throw (dataMismatchError encType)
  | "bytes" =>
    match encValue with
    | some (.bytes bytesValue) => pure (Keccak256 bytesValue)
    | _ => throw (dataMismatchError encType)
  | _ =>
    if hasPrefix encType "bytes" then
      let lengthStr := trimPrefix encType "bytes"
      match Atoi lengthStr with
      | none => throw ("invalid size on bytes: " ++ lengthStr)
      | some length =>
        if length < 0 ∨ length > 32 then throw ("invalid size on bytes: " ++ toString length)
        else
          match encValue with
          | some (.hexBytes byteValue) => pure (PaddedBigBytes (BigEndian.toNat byteValue) 32)
          | _ => throw (dataMismatchError encType)
    else if hasPrefix encType "int" || hasPrefix encType "uint" then do
      let b ← parseInteger encType encValue
      pure (U256Bytes b)
    else throw ("unrecognized type '" ++ encType ++ "'")

/-- `EncodeData` with a bound on its recursion, each nested call one map further down the
message; `EncodeData` gives it the depth of the message, which is never used up. -/
def encodeData (typedData : TypedData) : Nat → String → List (String × Value) → Except String Bytes
  | 0, _, _ => throw "message nested too deeply"
  | fuel + 1, primaryType, data => do
    typedData.validate
    let fields := (typedData.Types.lookup primaryType).getD []
    -- Verify extra data
    if fields.length < data.length then throw "there is extra data provided in the message"
    -- Add typehash, then the field contents; structs and arrays have special handlers
    fields.foldlM (fun buffer field => do
        let encType := field.«Type»
        let encValue := data.lookup field.Name
        if encType.toList.getLast? = some ']' then
          let arrayValue ← match encValue with
            | some (.array items) => pure items
            | _ => throw (dataMismatchError encType)
          let parsedType := String.ofList (encType.toList.takeWhile (· ≠ '['))
          let arrayBuffer ← arrayValue.foldlM (fun arrayBuffer item => do
              if parsedType ∈ typedData.Types then
                let mapValue ← match item with
                  | .map entries => pure entries
                  | _ => throw (dataMismatchError parsedType)
                let encodedData ← encodeData typedData fuel parsedType mapValue
                pure (arrayBuffer ++ encodedData)
              else
                let bytesValue ← EncodePrimitiveValue Keccak256 parsedType (some item)
                pure (arrayBuffer ++ bytesValue))
            []
          pure (buffer ++ Keccak256 arrayBuffer)
        else if encType ∈ typedData.Types then
          let mapValue ← match encValue with
            | some (.map entries) => pure entries
            | _ => throw (dataMismatchError encType)
          let encodedData ← encodeData typedData fuel encType mapValue
          pure (buffer ++ Keccak256 encodedData)
        else
          let byteValue ← EncodePrimitiveValue Keccak256 encType encValue
          pure (buffer ++ byteValue))
      (typedData.TypeHash Keccak256 primaryType)

/-- `EncodeData`, without its unused `depth`. -/
def TypedData.EncodeData (typedData : TypedData) (primaryType : String)
    (data : List (String × Value)) : Except String Bytes :=
  encodeData Keccak256 typedData (Value.depthMap data + 1) primaryType data

/-- `HashStruct`. -/
def TypedData.HashStruct (typedData : TypedData) (primaryType : String)
    (data : List (String × Value)) : Except String Bytes := do
  let encodedData ← typedData.EncodeData Keccak256 primaryType data
  pure (Keccak256 encodedData)

end Encode

/-- One struct type `Mail` with one `bytes1` member holding the byte 0x01, in a domain with a name
and a chain id. The types and the domain pass `validate`. EIP-712 encodes a `bytes1` as its byte
followed by 31 zero bytes; `EncodeData` writes the word right-aligned through `PaddedBigBytes`,
as the number 1. -/
theorem encodeData_right_aligns_bytesN (Keccak256 : Bytes → Bytes) :
    let typedData : TypedData :=
      ⟨(∅ : Types).insert "Mail" [⟨"flag", "bytes1"⟩], "Mail", ⟨"Mail", "1", some 1, "", ""⟩⟩
    typedData.validate = .ok () ∧
    typedData.EncodeData Keccak256 "Mail" [("flag", .hexBytes [1])] =
      .ok (typedData.TypeHash Keccak256 "Mail" ++ (List.replicate 31 0 ++ [1])) ∧
    List.replicate 31 0 ++ [1] ≠ ([1] ++ List.replicate 31 0 : Bytes) := by
  refine ⟨?_, ?_, ?_⟩
  · decide +kernel
  · rfl
  · decide

end Ccmchain.Signer
