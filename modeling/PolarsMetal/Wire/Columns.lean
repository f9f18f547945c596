import PolarsMetal.GroupBy.Keys
import PolarsMetal.GroupBy.FusedKernel
import PolarsMetal.Lib.Framing

/-! The wire between the group-by crate and Python: an output column travels as a dtype tag, its
data bytes and a validity bitmap, and Python reassembles a series from the three. The number of
rows is not sent; Python infers it from the first column whose dtype allows it. -/

namespace PolarsMetal.Wire
open GroupBy Framing Bitmap

/-- A value of a column; floats are their bit patterns, a string is its UTF-8 bytes. -/
inductive Cell where
  | int (v : ℤ)
  | f32 (bits : BitVec 32)
  | f64 (bits : BitVec 64)
  | bool (b : Bool)
  | str (utf8 : List UInt8)
deriving DecidableEq

/-- The dtype tags a column can carry; the key dtypes' names are the wire's own. -/
abbrev DtypeTag := KeyDtype

structure WireColumn where
  name : String
  tag : DtypeTag
  data : List UInt8
  valid : List UInt8
deriving DecidableEq

/-! The crate's side. -/

/-- `n_bytes` rounded up to a multiple of four, at least four. -/
def validBytes (nRows : ℕ) : ℕ := max (((nRows + 7) / 8 + 3) / 4 * 4) 4

def packValidBitmap (bits : List Bool) : List UInt8 := packBits (validBytes bits.length) bits

def utf8Bytes (s : String) : List UInt8 := s.toUTF8.data.toList

/-- The `as i32` cast of a length. -/
def asI32 (n : ℕ) : ℤ := (BitVec.ofNat 32 n).toInt

/-- `i32::saturating_add`. -/
def saturatingAdd (a b : ℤ) : ℤ := max (-2 ^ 31) (min (2 ^ 31 - 1) (a + b))

def i32Cell (v : ℤ) : ℕ := (BitVec.ofInt 32 v).toNat

structure Utf8Writer where
  offsets : List ℤ
  acc : ℤ
  bytesBlob : List UInt8

def utf8Step (w : Utf8Writer) (row : String × Bool) : Utf8Writer :=
  let w' := if row.2 then
      { w with
        bytesBlob := w.bytesBlob ++ utf8Bytes row.1
        acc := saturatingAdd w.acc (asI32 (utf8Bytes row.1).length) }
    else w
  { w' with offsets := w'.offsets ++ [w'.acc] }

/-- `[n_rows: u32][offsets: (n_rows + 1) × i32][string bytes]`, all little-endian. -/
def encodeUtf8 (values : List String) (valid : List Bool) : List UInt8 :=
  let w := (values.zip valid).foldl utf8Step ⟨[0], 0, []⟩
  encode 4 values.length ++ table 4 (w.offsets.map i32Cell) ++ w.bytesBlob

def dataBytes : (dtype : KeyDtype) → List dtype.Val → List Bool → List UInt8
  | .i64, values, _ => table 8 (values.map (fun (v : Int64) => v.toBitVec.toNat))
  | .f64, values, _ => table 8 (values.map (fun (v : BitVec 64) => v.toNat))
  | .bool, values, _ => packValidBitmap values
  | .i32, values, _ => table 4 (values.map (fun (v : Int32) => v.toBitVec.toNat))
  | .f32, values, _ => table 4 (values.map (fun (v : BitVec 32) => v.toNat))
  | .i8, values, _ => table 1 (values.map (fun (v : Int8) => v.toBitVec.toNat))
  | .i16, values, _ => table 2 (values.map (fun (v : Int16) => v.toBitVec.toNat))
  | .u8, values, _ => table 1 (values.map (fun (v : UInt8) => v.toNat))
  | .u16, values, _ => table 2 (values.map (fun (v : UInt16) => v.toNat))
  | .u32, values, _ => table 4 (values.map (fun (v : UInt32) => v.toNat))
  | .utf8, values, valid => encodeUtf8 values valid

def encodeDecodedColumn (name : String) (d : DecodedColumn) : WireColumn :=
  ⟨name, d.dtype, dataBytes d.dtype d.values d.valid, packValidBitmap d.valid⟩

def encodeAggOutput (name : String) : AggOutput → WireColumn
  | .i64 values valid => ⟨name, .i64, table 8 (values.map BitVec.toNat), packValidBitmap valid⟩
  | .f64 values valid => ⟨name, .f64, table 8 (values.map BitVec.toNat), packValidBitmap valid⟩
  -- counts and lengths are cast to `u32` and are never null
  | .u64 values =>
    ⟨name, .u32, table 4 (values.map (· % 2 ^ 32)), List.replicate (validBytes values.length) 0xFF⟩
  | .i32 values valid => ⟨name, .i32, table 4 (values.map BitVec.toNat), packValidBitmap valid⟩
  | .f32 values valid => ⟨name, .f32, table 4 (values.map BitVec.toNat), packValidBitmap valid⟩

/-- What `execute_groupby` has when it starts to encode: the named output columns. -/
structure GroupByOutput where
  keys : List (String × DecodedColumn)
  aggs : List (String × AggOutput)

def GroupByOutput.encode (r : GroupByOutput) : List WireColumn :=
  r.keys.map (fun (name, d) => encodeDecodedColumn name d) ++
    r.aggs.map (fun (outputAlias, o) => encodeAggOutput outputAlias o)

/-! Python's side. -/

inductive PaType where
  | int64 | float64 | bool | uint32 | int32 | float32 | string
deriving DecidableEq

/-- `_TAG_TO_PA`; `none` is a missing entry. -/
def tagToPa : DtypeTag → Option PaType
  | .i64 => some .int64
  | .f64 => some .float64
  | .bool => some .bool
  | .u32 => some .uint32
  | .i32 => some .int32
  | .f32 => some .float32
  | .utf8 => some .string
  | .i8 | .i16 | .u8 | .u16 => none

inductive PyError where
  | keyError (tag : DtypeTag)
  | utf8TooShort (name : String) (got : ℕ)
  | utf8RowMismatch (name : String) (header out : ℕ)
  | utf8Truncated (name : String) (got need : ℕ)
  | duplicate (name : String)
deriving DecidableEq

structure Series where
  name : String
  cells : List (Option Cell)
deriving DecidableEq

/-- The value an Arrow array of the type reads at a row; strings have three buffers instead. -/
def readCell : PaType → List UInt8 → ℕ → Cell
  | .int64, data, i => .int (BitVec.ofNat 64 (decode (cell 8 data i))).toInt
  | .float64, data, i => .f64 (BitVec.ofNat 64 (decode (cell 8 data i)))
  | .bool, data, i => .bool (bitAt data i == 1)
  | .uint32, data, i => .int (decode (cell 4 data i))
  | .int32, data, i => .int (BitVec.ofNat 32 (decode (cell 4 data i))).toInt
  | .float32, data, i => .f32 (BitVec.ofNat 32 (decode (cell 4 data i)))
  | .string, data, i => .str (cell 1 data i)

def readOffset (offsets : List UInt8) (i : ℕ) : ℤ :=
  (BitVec.ofNat 32 (decode (cell 4 offsets i))).toInt

def readString (offsets bytes : List UInt8) (i : ℕ) : Cell :=
  let start := readOffset offsets i
  let stop := readOffset offsets (i + 1)
  .str ((bytes.drop start.toNat).take (stop - start).toNat)

/-- `pa.Array.from_buffers`: a row is null where its validity bit is clear. -/
def fromBuffers (nOut : ℕ) (valid : List UInt8) (read : ℕ → Cell) : List (Option Cell) :=
  (List.range nOut).map (fun i => if bitAt valid i = 1 then some (read i) else none)

def assembleUtf8 (c : WireColumn) (nOut : ℕ) : Except PyError Series :=
  if c.data.length < 4 then .error (.utf8TooShort c.name c.data.length)
  else
    let n := decode (c.data.take 4)
    if n ≠ nOut then .error (.utf8RowMismatch c.name n nOut)
    else
      let offsetsEnd := 4 + (n + 1) * 4
      if c.data.length < offsetsEnd then .error (.utf8Truncated c.name c.data.length offsetsEnd)
      else
        let offsetsBytes := (c.data.take offsetsEnd).drop 4
        let stringBytes := c.data.drop offsetsEnd
        let validTrim := c.valid.take ((nOut + 7) / 8)
        if nOut = 0 then .ok ⟨c.name, []⟩
        else .ok ⟨c.name, fromBuffers nOut validTrim (readString offsetsBytes stringBytes)⟩

def trimData (tag : DtypeTag) (nOut : ℕ) (data : List UInt8) : List UInt8 :=
  match tag with
  | .bool => data.take ((nOut + 7) / 8)
  | .u32 | .i32 | .f32 => data.take (nOut * 4)
  | _ => data.take (nOut * 8)

def assembleSeries (c : WireColumn) (nOut : ℕ) : Except PyError Series :=
  if c.tag = .utf8 then assembleUtf8 c nOut
  else
    match tagToPa c.tag with
    | none => .error (.keyError c.tag)
    | some paType =>
      let validTrim := c.valid.take ((nOut + 7) / 8)
      let dataTrim := trimData c.tag nOut c.data
      if nOut = 0 then .ok ⟨c.name, []⟩
      else .ok ⟨c.name, fromBuffers nOut validTrim (readCell paType dataTrim)⟩

/-- The row-count loop: the first column whose dtype fixes it. -/
def inferRows : List WireColumn → Except PyError (Option ℕ)
  | [] => .ok none
  | c :: columns =>
    match c.tag with
    | .u32 | .i32 | .f32 => .ok (some (c.data.length / 4))
    | .i64 | .f64 => .ok (some (c.data.length / 8))
    | .utf8 =>
      if c.data.length < 4 then .error (.utf8TooShort c.name c.data.length)
      else .ok (some (decode (c.data.take 4)))
    | _ => inferRows columns

/-- `pl.DataFrame(series_list)` refuses two series of one name. -/
def frameOf (series : List Series) : Except PyError (List Series) :=
  match (series.map Series.name).find? (fun name => 1 < (series.map Series.name).count name) with
  | some name => .error (.duplicate name)
  | none => .ok series

/-- The reassembly at the end of `_dispatch_groupby`. -/
def reassemble (outColumns : List WireColumn) : Except PyError (List Series) := do
  let found ← inferRows outColumns
  let nOut := match found with
    | some n => n
    | none => match outColumns with
      | [] => 0
      | c :: _ => c.valid.length * 8
  let series ← outColumns.mapM (fun c => assembleSeries c nOut)
  frameOf series

end PolarsMetal.Wire
