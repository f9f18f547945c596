import PolarsMetal.Filter.Compaction
import PolarsMetal.Fusion.Expr
import PolarsMetal.Lib.Ieee
import PolarsMetal.Wire.StringKeys

/-! Filter predicates: the walker's lowering of an expression to a predicate tree, and the tree's
evaluation into a bit-packed `(data, valid)` pair by comparison and logical kernels. Every kernel
runs one thread a row. -/

namespace PolarsMetal.Filter
open Bitmap Interleave Ieee Fusion Wire Framing

/-! The walker. -/

/-- The value of a literal node; a date is its proleptic ordinal, a float its bits. -/
inductive LiteralValue where
  | none
  | bool (b : Bool)
  | date (ordinal : ℕ)
  | int (v : ℤ)
  | float (bits : BitVec 64)
  | other
deriving DecidableEq

/-- An expression node; a column's dtype is its schema's. -/
inductive PredicateExpr where
  | column (name : String)
  | literal (value : LiteralValue)
  | binaryExpr (op : Operator) (left right : PredicateExpr)
  | other
deriving DecidableEq

/-- The tags of `_map_dtype`. -/
inductive PlanDtype where
  | i64 | f64 | bool | i32 | f32 | i8 | i16 | u8 | u16 | u32 | u64 | utf8 | date
deriving DecidableEq

def mapDtype : PolarsDtype → Option PlanDtype
  | .int64 => some .i64
  | .float64 => some .f64
  | .boolean => some .bool
  | .int32 => some .i32
  | .float32 => some .f32
  | .int8 => some .i8
  | .int16 => some .i16
  | .uint8 => some .u8
  | .uint16 => some .u16
  | .uint32 => some .u32
  | .uint64 => some .u64
  | .string => some .utf8
  | .other name => if name = "Date" then some .date else none
  | _ => none

def predicateI64Widen : List PlanDtype := [.i8, .i16, .i32, .u8, .u16, .u32, .date]
def predicateF64Widen : List PlanDtype := [.f32]

def widenDtype (dtype : PlanDtype) : PlanDtype :=
  if dtype ∈ predicateI64Widen then .i64
  else if dtype ∈ predicateF64Widen then .f64
  else dtype

abbrev CompareOp := Comparison

inductive LogicalOp where
  | and | or
deriving DecidableEq

inductive PredicateAst where
  | column (name : String) (dtype : PlanDtype)
  | literalI64 (value : ℤ)
  | literalF64 (bits : BitVec 64)
  | literalBool (b : Bool)
  | compare (op : CompareOp) (lhs rhs : PredicateAst) (dtype : PlanDtype)
  | logical (op : LogicalOp) (lhs rhs : PredicateAst)
deriving DecidableEq

namespace PredicateAst

def isLiteral : PredicateAst → Bool
  | literalI64 _ | literalF64 _ | literalBool _ => true
  | _ => false

def isCompound : PredicateAst → Bool
  | compare .. | logical .. => true
  | _ => false

def resultDtype : PredicateAst → PlanDtype
  | column _ dtype => dtype
  | literalI64 _ => .i64
  | literalF64 _ => .f64
  | literalBool _ | compare .. | logical .. => .bool

def leafDtype : PredicateAst → Option PlanDtype
  | column _ dtype => some dtype
  | literalI64 _ => some .i64
  | literalF64 _ => some .f64
  | literalBool _ => some .bool
  | _ => none

end PredicateAst

def cmpOpName : Operator → Option CompareOp
  | .eq => some .eq
  | .notEq => some .ne
  | .lt => some .lt
  | .ltEq => some .le
  | .gt => some .gt
  | .gtEq => some .ge
  | _ => none

def logicalOpName : Operator → Option LogicalOp
  | .and => some .and
  | .or => some .or
  | _ => none

/-- The ordinal of `_EPOCH`. -/
def epochOrdinal : ℤ := 719163

def walkLiteral : LiteralValue → Option PredicateAst
  | .bool b => some (.literalBool b)
  | .date ordinal => some (.literalI64 (ordinal - epochOrdinal))
  | .int v => some (.literalI64 v)
  | .float bits => some (.literalF64 bits)
  | .none | .other => none

/-- The comparison branch of `_walk_predicate`, once both sides are walked. -/
def walkCompare (op : CompareOp) (lhs rhs : PredicateAst) : Option PredicateAst :=
  if lhs.isCompound || rhs.isCompound then none
  else
    match lhs.leafDtype, rhs.leafDtype with
    | some lhsDt, some rhsDt =>
      if lhsDt ≠ rhsDt then none
      else if lhsDt ≠ .i64 ∧ lhsDt ≠ .f64 then none
      else if lhs.isLiteral && rhs.isLiteral then none
      else some (.compare op lhs rhs lhsDt)
    | _, _ => none

def walkLogical (op : LogicalOp) (lhs rhs : PredicateAst) : Option PredicateAst :=
  if lhs.resultDtype ≠ .bool ∨ rhs.resultDtype ≠ .bool then none
  else
    match lhs, rhs with
    | .literalBool _, _ | _, .literalBool _ => none
    | _, _ => some (.logical op lhs rhs)

abbrev Schema := List (String × PolarsDtype)

def walkPredicate (schema : Schema) : PredicateExpr → Option PredicateAst
  | .column name => do
    let dtype ← schema.lookup name
    let tag ← mapDtype dtype
    return .column name (widenDtype tag)
  | .literal value => walkLiteral value
  | .binaryExpr op left right =>
    match logicalOpName op, cmpOpName op with
    | some logicalOp, _ => do
      let lhs ← walkPredicate schema left
      let rhs ← walkPredicate schema right
      walkLogical logicalOp lhs rhs
    | none, some cmpOp => do
      let lhs ← walkPredicate schema left
      let rhs ← walkPredicate schema right
      walkCompare cmpOp lhs rhs
    | none, none => none
  | .other => none

/-- The predicate of an accepted Filter node. -/
def walkFilter (schema : Schema) (predicate : PredicateExpr) : Option PredicateAst := do
  let pred ← walkPredicate schema predicate
  match pred with
  | .column _ dtype => guard (dtype = .bool)
  | .literalI64 _ | .literalF64 _ | .literalBool _ => failure
  | _ => pure ()
  guard (schema.all fun (_, dtype) => (mapDtype dtype).isSome)
  return pred

/-! Frames. -/

/-- The values an integer dtype holds, from the first bound up to the second. -/
def intRange : PolarsDtype → Option (ℤ × ℤ)
  | .int8 => some (-2 ^ 7, 2 ^ 7)
  | .int16 => some (-2 ^ 15, 2 ^ 15)
  | .int32 => some (-2 ^ 31, 2 ^ 31)
  | .int64 => some (-2 ^ 63, 2 ^ 63)
  | .uint8 => some (0, 2 ^ 8)
  | .uint16 => some (0, 2 ^ 16)
  | .uint32 => some (0, 2 ^ 32)
  | .uint64 => some (0, 2 ^ 64)
  -- days since 1970
  | .other name => if name = "Date" then some (-2 ^ 31, 2 ^ 31) else none
  | _ => none

/-- A dtype the walker does not know is not restricted. -/
def hasDtype (dtype : PolarsDtype) (c : Cell) : Bool :=
  (mapDtype dtype).isNone ||
    match c with
    | .int v => (intRange dtype).any fun (lo, hi) => lo ≤ v && v < hi
    | .f32 _ => dtype = .float32
    | .f64 _ => dtype = .float64
    | .bool _ => dtype = .boolean
    | .str _ => dtype = .string

structure PolarsSeries where
  dtype : PolarsDtype
  cells : List (Option Cell)
deriving DecidableEq

def PolarsSeries.Typed (s : PolarsSeries) : Prop := ∀ c, some c ∈ s.cells → hasDtype s.dtype c

/-- A data frame: its columns are as long as it is high, with cells of their dtypes. -/
structure PolarsFrame where
  columns : List (String × PolarsSeries)
  height : ℕ
  length_eq : ∀ c ∈ columns, c.2.cells.length = height
  typed : ∀ c ∈ columns, c.2.Typed

def PolarsFrame.schema (df : PolarsFrame) : Schema := df.columns.map fun (name, s) => (name, s.dtype)

inductive PredicateError where
  | columnNotFound (name : String)
  | bareColumnNotBool (dtype : PlanDtype)
  | unsupportedKind
  | cmpLhsNotColumn
  | unexpectedDtypeTag (dtype : PlanDtype)
  | literalKind (dtype : PlanDtype)
  | cmpNotWired (dtype : PlanDtype)
  | castFailed (dtype : PolarsDtype)
  | literalOverflow (value : ℤ)
  | dataTooShort (got expected nRows : ℕ)
  | validityTooShort (got expected nRows : ℕ)
  | rowCountOverflow (nRows : ℕ)
deriving DecidableEq

def PolarsFrame.getColumn (df : PolarsFrame) (name : String) : Except PredicateError PolarsSeries :=
  match df.columns.lookup name with
  | some s => .ok s
  | none => .error (.columnNotFound name)

/-! Buffers. -/

/-- An Arrow array's buffers at offset 0; Arrow may leave them out. -/
structure ArrowArray where
  valid : Option (List UInt8)
  data : Option (List UInt8)
deriving DecidableEq

abbrev Buffers := List UInt8 × List UInt8

def bitpackedDataAndValid (arr : ArrowArray) (nRows : ℕ) : Buffers :=
  (padTo (minBytes nRows) (arr.data.getD []),
    padTo (minBytes nRows) (arr.valid.getD (allOnesBitmap nRows)))

def dataAndValidForDtype (arr : ArrowArray) (nRows : ℕ) (dtype : PlanDtype) :
    Except PredicateError Buffers :=
  let data := arr.data.getD []
  let valid := padTo (minBytes nRows) (arr.valid.getD (allOnesBitmap nRows))
  match dtype with
  | .i64 | .f64 => .ok (padTo (nRows * 8) data, valid)
  | .i32 | .f32 => .ok (padTo (nRows * 4) data, valid)
  | .bool => .ok (padTo (minBytes nRows) data, valid)
  -- strings are packed by `dataAndValidUtf8`
  | _ => .error (.unexpectedDtypeTag dtype)

/-- A cast to `Int64` of integers and dates. -/
def castToInt64 (s : PolarsSeries) : Except PredicateError PolarsSeries := do
  let cells ← s.cells.mapM fun
    | some (.int v) =>
      if -2 ^ 63 ≤ v ∧ v < 2 ^ 63 then .ok (some (.int v)) else .error (.castFailed s.dtype)
    | some _ => .error (.castFailed s.dtype)
    | none => .ok none
  return ⟨.int64, cells⟩

/-- A cast to `Float64` of singles. -/
def castToFloat64 (s : PolarsSeries) : Except PredicateError PolarsSeries := do
  let cells ← s.cells.mapM fun
    | some (.f32 bits) => .ok (some (.f64 (BitVec.ofNat 64 (widen bits.toNat))))
    | some _ => .error (.castFailed s.dtype)
    | none => .ok none
  return ⟨.float64, cells⟩

def coerceForCompare (series : PolarsSeries) (kernelDtype : PlanDtype) :
    Except PredicateError PolarsSeries :=
  if kernelDtype = .i64 ∧ series.dtype ≠ .int64 then castToInt64 series
  else if kernelDtype = .f64 ∧ series.dtype ≠ .float64 then castToFloat64 series
  else .ok series

/-! The comparisons of the shaders, on the slots' bits. -/

def i64Op (op : CompareOp) (a b : BitVec 64) : Bool := op.holds a.toInt b.toInt

def f64IsNan (bits : BitVec 64) : Bool :=
  let exp := (bits >>> 52) &&& 0x7FF#64
  let mantissa := bits &&& 0x000FFFFFFFFFFFFF#64
  exp == 0x7FF#64 && mantissa != 0

def bothAreZero (a b : BitVec 64) : Bool := (a ||| b) <<< 1 == 0

def f64TotalOrderKey (bits : BitVec 64) : BitVec 64 :=
  let signMask := if bits >>> 63 == 0 then 0x8000000000000000#64 else 0xFFFFFFFFFFFFFFFF#64
  bits ^^^ signMask

def f64Eq (a b : BitVec 64) : Bool :=
  if f64IsNan a || f64IsNan b then false else if bothAreZero a b then true else a == b

def f64Ne (a b : BitVec 64) : Bool :=
  if f64IsNan a || f64IsNan b then true else if bothAreZero a b then false else a != b

/-- `f64_lt`, `f64_le`, `f64_gt` and `f64_ge`, by what they say of two zeros and of two keys. -/
def f64Ordered (zeros : Bool) (keys : BitVec 64 → BitVec 64 → Bool) (a b : BitVec 64) : Bool :=
  if f64IsNan a || f64IsNan b then false
  else if bothAreZero a b then zeros
  else keys (f64TotalOrderKey a) (f64TotalOrderKey b)

def f64Lt := f64Ordered false fun a b => a < b
def f64Le := f64Ordered true fun a b => a ≤ b
def f64Gt := f64Ordered false fun a b => a > b
def f64Ge := f64Ordered true fun a b => a ≥ b

def f64Op : CompareOp → BitVec 64 → BitVec 64 → Bool
  | .eq => f64Eq
  | .ne => f64Ne
  | .lt => f64Lt
  | .le => f64Le
  | .gt => f64Gt
  | .ge => f64Ge

/-! The kernels. -/

/-- Slot `i` of a buffer of 64-bit values. -/
def slot (data : List UInt8) (i : ℕ) : BitVec 64 := BitVec.ofNat 64 (decode (cell 8 data i))

/-- `CMP_KERNEL_CC` and `CMP_F64_KERNEL_CC`. -/
def cmpColColThread (op : BitVec 64 → BitVec 64 → Bool)
    (lhsData lhsValid rhsData rhsValid : List UInt8) (nRows gid : ℕ) : List DeviceOp :=
  if gid ≥ nRows then []
  else if !getValid lhsValid gid || !getValid rhsValid gid then []
  else .orValid gid :: if op (slot lhsData gid) (slot rhsData gid) then [.orData gid] else []

/-- `CMP_KERNEL_CS` and `CMP_F64_KERNEL_CS`. -/
def cmpColScalarThread (op : BitVec 64 → BitVec 64 → Bool) (lhsData lhsValid : List UInt8)
    (rhsScalar : BitVec 64) (nRows gid : ℕ) : List DeviceOp :=
  if gid ≥ nRows then []
  else if !getValid lhsValid gid then []
  else .orValid gid :: if op (slot lhsData gid) rhsScalar then [.orData gid] else []

/-- The writes of a logical kernel: none where the result is null. -/
def logicalWrites (gid : ℕ) (outDataBit outValidBit : Bool) : List DeviceOp :=
  if outValidBit then .orValid gid :: if outDataBit then [.orData gid] else [] else []

def boolAndThread (lhsData lhsValid rhsData rhsValid : List UInt8) (nRows gid : ℕ) :
    List DeviceOp :=
  if gid ≥ nRows then []
  else
    let ld := getValid lhsData gid
    let lv := getValid lhsValid gid
    let rd := getValid rhsData gid
    let rv := getValid rhsValid gid
    if lv && !ld then logicalWrites gid false true
    else if rv && !rd then logicalWrites gid false true
    else if lv && ld && rv && rd then logicalWrites gid true true
    else logicalWrites gid false false

def boolOrThread (lhsData lhsValid rhsData rhsValid : List UInt8) (nRows gid : ℕ) :
    List DeviceOp :=
  if gid ≥ nRows then []
  else
    let ld := getValid lhsData gid
    let lv := getValid lhsValid gid
    let rd := getValid rhsData gid
    let rv := getValid rhsValid gid
    if lv && ld then logicalWrites gid true true
    else if rv && rd then logicalWrites gid true true
    else if lv && !ld && rv && !rd then logicalWrites gid false true
    else logicalWrites gid false false

/-! The dispatchers; `order` is the order the GPU takes the threads in. -/

/-- Two fresh zeroed outputs, and the kernel's grid over them. -/
def dispatchBits (thread : ℕ → ℕ → List DeviceOp) (order : List ℕ) (nRows : ℕ) :
    Except PredicateError Buffers := do
  let zeros := List.replicate (dstValidMinBytes nRows) 0
  if nRows = 0 then return (zeros, zeros)
  -- `u32::try_from`
  if 2 ^ 32 ≤ nRows then throw (.rowCountOverflow nRows)
  let mem := exec (thread nRows) DeviceMem.apply
    ⟨[], zeroWords (dstValidMinBytes nRows), zeroWords (dstValidMinBytes nRows)⟩ order
  return (toBytes mem.dataWords, toBytes mem.validWords)

def checkBytes (data valid : List UInt8) (nRows expectedData : ℕ) : Except PredicateError Unit := do
  if data.length < expectedData then throw (.dataTooShort data.length expectedData nRows)
  if valid.length < minBytes nRows then
    throw (.validityTooShort valid.length (minBytes nRows) nRows)

def checkNumericBuffers (data valid : List UInt8) (nRows : ℕ) : Except PredicateError Unit :=
  checkBytes data valid nRows (nRows * 8)

/-- `cmp_col_col_pyfn` -/
def cmpColCol (op : BitVec 64 → BitVec 64 → Bool) (order : List ℕ) (lhs rhs : Buffers)
    (nRows : ℕ) : Except PredicateError Buffers := do
  checkNumericBuffers lhs.1 lhs.2 nRows
  checkNumericBuffers rhs.1 rhs.2 nRows
  dispatchBits (cmpColColThread op lhs.1 (lhs.2.take (minBytes nRows)) rhs.1
    (rhs.2.take (minBytes nRows))) order nRows

/-- `cmp_col_scalar_pyfn` -/
def cmpColScalar (op : BitVec 64 → BitVec 64 → Bool) (order : List ℕ) (lhs : Buffers)
    (rhs : BitVec 64) (nRows : ℕ) : Except PredicateError Buffers := do
  checkNumericBuffers lhs.1 lhs.2 nRows
  dispatchBits (cmpColScalarThread op lhs.1 (lhs.2.take (minBytes nRows)) rhs) order nRows

def cmpI64ColCol (op : CompareOp) := cmpColCol (i64Op op)
def cmpF64ColCol (op : CompareOp) := cmpColCol (f64Op op)
def cmpF64ColScalar (op : CompareOp) := cmpColScalar (f64Op op)

/-- The scalar arrives as a Python integer. -/
def cmpI64ColScalar (op : CompareOp) (order : List ℕ) (lhs : Buffers) (rhs : ℤ) (nRows : ℕ) :
    Except PredicateError Buffers :=
  if -2 ^ 63 ≤ rhs ∧ rhs < 2 ^ 63 then
    cmpColScalar (i64Op op) order lhs (BitVec.ofInt 64 rhs) nRows
  else .error (.literalOverflow rhs)

def dispatchLogical (kernel : List UInt8 → List UInt8 → List UInt8 → List UInt8 → ℕ → ℕ →
    List DeviceOp) (order : List ℕ) (lhs rhs : Buffers) (nRows : ℕ) :
    Except PredicateError Buffers := do
  checkBytes lhs.1 lhs.2 nRows (minBytes nRows)
  checkBytes rhs.1 rhs.2 nRows (minBytes nRows)
  dispatchBits (kernel (lhs.1.take (minBytes nRows)) (lhs.2.take (minBytes nRows))
    (rhs.1.take (minBytes nRows)) (rhs.2.take (minBytes nRows))) order nRows

def boolAndDispatch := dispatchLogical boolAndThread
def boolOrDispatch := dispatchLogical boolOrThread

/-! The evaluator. -/

/-- What one node of the tree meets: how series become Arrow arrays, and its kernel's order. -/
structure Site where
  materialize : PolarsSeries → ArrowArray
  order : List ℕ

/-- The sites of a tree, by the path from its root; `false` is left. -/
abbrev Sites := List Bool → Site

def Sites.left (sites : Sites) : Sites := fun path => sites (false :: path)
def Sites.right (sites : Sites) : Sites := fun path => sites (true :: path)

def swapCompareOp : CompareOp → CompareOp
  | .eq => .eq
  | .ne => .ne
  | .lt => .gt
  | .le => .ge
  | .gt => .lt
  | .ge => .le

/-- The buffers of a comparison's column. -/
def compareColumn (upstream : PolarsFrame) (nRows : ℕ) (site : Site) (name : String)
    (dtype : PlanDtype) : Except PredicateError Buffers := do
  let series ← upstream.getColumn name
  let series ← coerceForCompare series dtype
  dataAndValidForDtype (site.materialize series) nRows dtype

/-- A comparison whose left side is a column. -/
def compareWithColumn (upstream : PolarsFrame) (nRows : ℕ) (sites : Sites) (op : CompareOp)
    (lhs : String) (rhs : PredicateAst) (dtype : PlanDtype) : Except PredicateError Buffers := do
  let lhs ← compareColumn upstream nRows (sites [false]) lhs dtype
  let order := (sites []).order
  match rhs with
  | .column name _ => do
    let rhs ← compareColumn upstream nRows (sites [true]) name dtype
    match dtype with
    | .i64 => cmpI64ColCol op order lhs rhs nRows
    | .f64 => cmpF64ColCol op order lhs rhs nRows
    | _ => throw (.cmpNotWired dtype)
  | _ =>
    match dtype, rhs with
    | .i64, .literalI64 value => cmpI64ColScalar op order lhs value nRows
    | .f64, .literalF64 bits => cmpF64ColScalar op order lhs bits nRows
    | .i64, _ | .f64, _ => throw (.literalKind dtype)
    | _, _ => throw (.cmpNotWired dtype)

def evaluateCompare (upstream : PolarsFrame) (nRows : ℕ) (sites : Sites) (op : CompareOp)
    (lhs rhs : PredicateAst) (dtype : PlanDtype) : Except PredicateError Buffers :=
  match lhs, rhs with
  | .column name _, rhs => compareWithColumn upstream nRows sites op name rhs dtype
  | lhs, .column name _ =>
    if lhs.isLiteral then
      compareWithColumn upstream nRows sites (swapCompareOp op) name lhs dtype
    else throw .cmpLhsNotColumn
  | _, _ => throw .cmpLhsNotColumn

def evaluatePredicate (upstream : PolarsFrame) (nRows : ℕ) (sites : Sites) :
    PredicateAst → Except PredicateError Buffers
  | .column name dtype => do
    if dtype ≠ .bool then throw (.bareColumnNotBool dtype)
    let series ← upstream.getColumn name
    return bitpackedDataAndValid ((sites []).materialize series) nRows
  | .compare op lhs rhs dtype => evaluateCompare upstream nRows sites op lhs rhs dtype
  | .logical op lhs rhs => do
    let lhs ← evaluatePredicate upstream nRows sites.left lhs
    let rhs ← evaluatePredicate upstream nRows sites.right rhs
    let pad := fun (b : Buffers) => (padTo (minBytes nRows) b.1, padTo (minBytes nRows) b.2)
    match op with
    | .and => boolAndDispatch (sites []).order (pad lhs) (pad rhs) nRows
    | .or => boolOrDispatch (sites []).order (pad lhs) (pad rhs) nRows
  | _ => throw .unsupportedKind

/-- The mask `_filter_via_polars` builds; Polars keeps the rows where it is true. -/
def filterMask (pred : Buffers) (nRows : ℕ) : List (Option Cell) :=
  fromBuffers nRows (pred.2.take (minBytes nRows)) (readCell .bool (pred.1.take (minBytes nRows)))

end PolarsMetal.Filter
