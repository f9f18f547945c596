import PolarsMetal.Lib.BitFields
import PolarsMetal.Lib.Bitmap

/-! Composite group-by keys: every row's key columns are packed into one 128-bit
lane, a null flag and a payload per column, and decoded back after the group
build. `encodeKeys` and `decodeKeys` are the two hand-written match trees of the
kernels crate. -/

namespace PolarsMetal.GroupBy
open BitFields Bitmap

abbrev Lane := BitVec 128

inductive KeyDtype where
  | i64 | f64 | bool | i32 | f32 | i8 | i16 | u8 | u16 | u32 | utf8
deriving DecidableEq, Repr

def KeyDtype.dataBits : KeyDtype → ℕ
  | .i64 | .f64 => 64
  | .bool => 1
  | .i32 | .f32 | .u32 | .utf8 => 32
  | .i16 | .u16 => 16
  | .i8 | .u8 => 8

/-- The element type a decoded column of the dtype holds; floats stand for their bit patterns. -/
def KeyDtype.Val : KeyDtype → Type
  | .i64 => Int64
  | .f64 => BitVec 64
  | .bool => Bool
  | .i32 => Int32
  | .f32 => BitVec 32
  | .i8 => Int8
  | .i16 => Int16
  | .u8 => UInt8
  | .u16 => UInt16
  | .u32 => UInt32
  | .utf8 => String

structure KeyColumn where
  name : String
  dtype : KeyDtype
  data : List UInt8
  valid : List UInt8
  nRows : ℕ
  dict : Option (List String)
deriving DecidableEq

structure KeyField where
  name : String
  dtype : KeyDtype
  nullBitOffset : ℕ
  dataBitOffset : ℕ
  dict : Option (List String)
deriving DecidableEq

structure KeySchema where
  fields : List KeyField
  totalBits : ℕ
  nRows : ℕ
deriving DecidableEq

inductive KeyEncodeError where
  | noKeys
  | tooWide (totalBits : ℕ)
  | rowCountMismatch (first mismatched : ℕ)
  | dataTooShort (col : String) (got need : ℕ)
  | validityTooShort (col : String) (got need : ℕ)
  | utf8MissingDict (col : String)
deriving DecidableEq

/-! Reading the raw buffers. -/

def leBytes (w : ℕ) (bytes : List UInt8) : BitVec w :=
  BitVec.ofNat w (bytes.foldr (fun b acc => b.toNat + 256 * acc) 0)

def rowBytes (data : List UInt8) (row size : ℕ) : List UInt8 :=
  (data.drop (row * size)).take size

/-- The encoder's payload match: each dtype is read in its own type, then widened. -/
def dataValue (dtype : KeyDtype) (data : List UInt8) (row : ℕ) : Lane :=
  match dtype with
  | .i64 => (Int64.ofBitVec (leBytes 64 (rowBytes data row 8))).toUInt64.toBitVec.setWidth 128
  | .f64 => (leBytes 64 (rowBytes data row 8)).setWidth 128
  | .i32 => (Int32.ofBitVec (leBytes 32 (rowBytes data row 4))).toUInt32.toBitVec.setWidth 128
  | .f32 => (leBytes 32 (rowBytes data row 4)).setWidth 128
  | .u32 | .utf8 => (UInt32.ofBitVec (leBytes 32 (rowBytes data row 4))).toBitVec.setWidth 128
  | .i16 => (Int16.ofBitVec (leBytes 16 (rowBytes data row 2))).toUInt16.toBitVec.setWidth 128
  | .u16 => (UInt16.ofBitVec (leBytes 16 (rowBytes data row 2))).toBitVec.setWidth 128
  | .i8 => (Int8.ofBitVec (leBytes 8 (rowBytes data row 1))).toUInt8.toBitVec.setWidth 128
  | .u8 => (UInt8.ofBitVec (leBytes 8 (rowBytes data row 1))).toBitVec.setWidth 128
  | .bool => (bitAt data row).toBitVec.setWidth 128

/-! Encoding. -/

def needData (dtype : KeyDtype) (nRows : ℕ) : ℕ :=
  match dtype with
  | .i64 | .f64 => nRows * 8
  | .i32 | .f32 | .u32 | .utf8 => nRows * 4
  | .i16 | .u16 => nRows * 2
  | .i8 | .u8 => nRows
  | .bool => (nRows + 7) / 8

def KeyColumn.check (c : KeyColumn) (nRows : ℕ) : Except KeyEncodeError Unit :=
  if c.dtype = .utf8 ∧ c.dict = none then .error (.utf8MissingDict c.name)
  else if c.data.length < needData c.dtype nRows then
    .error (.dataTooShort c.name c.data.length (needData c.dtype nRows))
  else if c.valid.length < (nRows + 7) / 8 then
    .error (.validityTooShort c.name c.valid.length ((nRows + 7) / 8))
  else .ok ()

/-- The column loop: checks each column and gives it the next `1 + dataBits` bits. -/
def layoutKeys (nRows : ℕ) : ℕ → List KeyColumn → Except KeyEncodeError (List KeyField × ℕ)
  | offset, [] => .ok ([], offset)
  | offset, c :: cols => do
    c.check nRows
    let fieldBits := 1 + c.dtype.dataBits
    if offset + fieldBits > 128 then throw (.tooWide (offset + fieldBits))
    let (fields, totalBits) ← layoutKeys nRows (offset + fieldBits) cols
    return (⟨c.name, c.dtype, offset, offset + 1, c.dict⟩ :: fields, totalBits)

def encodeRow (cols : List KeyColumn) (fields : List KeyField) (row : ℕ) : Lane :=
  (cols.zip fields).foldl (fun lane (c, field) =>
    if bitAt c.valid row = 0 then lane ||| (1 : Lane) <<< field.nullBitOffset
    else lane ||| dataValue c.dtype c.data row <<< field.dataBitOffset) 0

def encodeKeys (cols : List KeyColumn) : Except KeyEncodeError (List Lane × KeySchema) :=
  match cols with
  | [] => .error .noKeys
  | first :: rest =>
    match rest.find? (fun c => c.nRows != first.nRows) with
    | some c => .error (.rowCountMismatch first.nRows c.nRows)
    | none => do
      let (fields, totalBits) ← layoutKeys first.nRows 0 (first :: rest)
      return ((List.range first.nRows).map (encodeRow (first :: rest) fields),
        ⟨fields, totalBits, first.nRows⟩)

/-! Decoding. -/

structure DecodedColumn where
  dtype : KeyDtype
  values : List dtype.Val
  valid : List Bool

def DecodedColumn.empty (dtype : KeyDtype) : DecodedColumn := ⟨dtype, [], []⟩

/-- The decoder's payload match, with its own masks, casts and null placeholders. -/
def decodeValue (dtype : KeyDtype) (field : KeyField) (lane : Lane) (isValid : Bool) : dtype.Val :=
  match dtype with
  | .i64 =>
    let raw := (lane >>> field.dataBitOffset) &&& (((1 : Lane) <<< 64) - 1)
    if isValid then Int64.ofBitVec (raw.setWidth 64) else (0 : Int64)
  | .f64 =>
    let raw := (lane >>> field.dataBitOffset) &&& (((1 : Lane) <<< 64) - 1)
    if isValid then raw.setWidth 64 else 0#64
  | .bool =>
    let raw := (lane >>> field.dataBitOffset) &&& 1
    if isValid then raw == 1 else false
  | .i32 =>
    let raw := (lane >>> field.dataBitOffset) &&& (((1 : Lane) <<< 32) - 1)
    if isValid then Int32.ofBitVec (raw.setWidth 32) else (0 : Int32)
  | .f32 =>
    let raw := (lane >>> field.dataBitOffset) &&& (((1 : Lane) <<< 32) - 1)
    if isValid then raw.setWidth 32 else 0#32
  | .u32 =>
    let raw := (lane >>> field.dataBitOffset) &&& (((1 : Lane) <<< 32) - 1)
    if isValid then UInt32.ofBitVec (raw.setWidth 32) else (0 : UInt32)
  | .i16 =>
    let raw := (lane >>> field.dataBitOffset) &&& (((1 : Lane) <<< 16) - 1)
    if isValid then Int16.ofBitVec (raw.setWidth 16) else (0 : Int16)
  | .u16 =>
    let raw := (lane >>> field.dataBitOffset) &&& (((1 : Lane) <<< 16) - 1)
    if isValid then UInt16.ofBitVec (raw.setWidth 16) else (0 : UInt16)
  | .i8 =>
    let raw := (lane >>> field.dataBitOffset) &&& (((1 : Lane) <<< 8) - 1)
    if isValid then Int8.ofBitVec (raw.setWidth 8) else (0 : Int8)
  | .u8 =>
    let raw := (lane >>> field.dataBitOffset) &&& (((1 : Lane) <<< 8) - 1)
    if isValid then UInt8.ofBitVec (raw.setWidth 8) else (0 : UInt8)
  | .utf8 =>
    let raw := (lane >>> field.dataBitOffset) &&& (((1 : Lane) <<< 32) - 1)
    let code := UInt32.ofBitVec (raw.setWidth 32)
    if isValid then (field.dict.bind (fun d => d[code.toNat]?)).getD "" else ""

/-- Append one lane's field to its column; `none` is the `unreachable!` arm. -/
def DecodedColumn.push (column : DecodedColumn) (field : KeyField) (lane : Lane) :
    Option DecodedColumn :=
  let isValid := (lane >>> field.nullBitOffset) &&& 1 == 0
  if column.dtype = field.dtype then
    some { column with
      values := column.values ++ [decodeValue column.dtype field lane isValid]
      valid := column.valid ++ [isValid] }
  else none

def decodeLane (fields : List KeyField) (out : List DecodedColumn) (lane : Lane) :
    Option (List DecodedColumn) :=
  (out.zip fields).mapM (fun (column, field) => column.push field lane)

def decodeKeys (encoded : List Lane) (schema : KeySchema) : Option (List DecodedColumn) :=
  encoded.foldlM (decodeLane schema.fields)
    (schema.fields.map (fun f => DecodedColumn.empty f.dtype))

end PolarsMetal.GroupBy
