import PolarsMetal.Filter.Dispatch

/-! `execute_filter_compact`: the flags and their sums once for the frame, then one scatter a
column, over the bytes the columns travel in. Every column is compacted by the same flags. -/

namespace PolarsMetal.Filter
open Wire Framing Fusion

/-- What it raises: a `ValueError` for a short buffer, a `NotImplementedError` for a dtype without
a kernel, a `RuntimeError` for a kernel that fails. -/
inductive CompactError where
  | predDataTooShort (got expected nRows : ℕ)
  | predValidTooShort (got expected nRows : ℕ)
  | keepAndPrefix (error : PipelineError)
  | validityTooShort (name : String) (got expected nRows : ℕ)
  | dataTooShort (name : String) (dtype : DtypeTag) (got expected : ℕ)
  | compact (dtype : DtypeTag) (name : String) (error : PipelineError)
  | notImplemented (name : String) (dtype : DtypeTag)
deriving DecidableEq

/-- The bytes read as `n_rows` slots of 64 bits. -/
def srcTyped (data : List UInt8) (nRows : ℕ) : List (BitVec 64) := (List.range nRows).map (slot data)

abbrev Compact64 := List ℕ → List (BitVec 64) → List UInt8 → List UInt8 → List ℕ → ℕ →
  Except PipelineError (CompactionResult (BitVec 64))

/-- The `I64` and `F64` branches. -/
def compactSlots (compact : Compact64) (order : List ℕ) (nRows : ℕ) (column : WireColumn)
    (keep : List UInt8) (prefixSum : List ℕ) (nOut : ℕ) : Except CompactError Buffers := do
  if column.data.length < nRows * 8 then
    throw (.dataTooShort column.name column.tag column.data.length (nRows * 8))
  let result ← (compact order (srcTyped column.data nRows) column.valid keep prefixSum nOut).mapError
    (.compact column.tag column.name)
  return ((table 8 (result.data.map BitVec.toNat)).take (result.nOut * 8), result.valid)

/-- The `Bool` branch. -/
def compactBits (order : List ℕ) (nRows : ℕ) (column : WireColumn) (keep : List UInt8)
    (prefixSum : List ℕ) (nOut : ℕ) : Except CompactError Buffers := do
  if column.data.length < minBytes nRows then
    throw (.dataTooShort column.name column.tag column.data.length (minBytes nRows))
  let result ← (compactBool order column.data column.valid keep prefixSum nRows nOut).mapError
    (.compact column.tag column.name)
  return (result.data, result.valid)

def compactOneColumn (order : List ℕ) (nRows : ℕ) (column : WireColumn) (keep : List UInt8)
    (prefixSum : List ℕ) (nOut : ℕ) : Except CompactError Buffers := do
  if column.valid.length < minBytes nRows then
    throw (.validityTooShort column.name column.valid.length (minBytes nRows) nRows)
  -- no row survives: nothing is handed to the device, whatever the dtype
  if nOut = 0 then return ([], [])
  match column.tag with
  | .i64 => compactSlots compactI64 order nRows column keep prefixSum nOut
  | .f64 => compactSlots compactF64 order nRows column keep prefixSum nOut
  | .bool => compactBits order nRows column keep prefixSum nOut
  | .i32 | .f32 | .i8 | .i16 | .u8 | .u16 | .u32 | .utf8 =>
    throw (.notImplemented column.name column.tag)

/-- The GPU: MLX's scan, and the orders the threads of the predicate kernel and of each column's
scatter kernel run in. -/
structure Device where
  cumsum : Cumsum
  predicateOrder : List ℕ
  scatterOrder : ℕ → List ℕ

/-- One turn of the loop over the columns. -/
def compactEntry (device : Device) (nRows : ℕ) (keep : List UInt8) (prefixSum : List ℕ) (nOut : ℕ)
    (entry : WireColumn × ℕ) : Except CompactError (List UInt8 × List UInt8 × ℕ) := do
  let out ← compactOneColumn (device.scatterOrder entry.2) nRows entry.1 keep prefixSum nOut
  return (out.1, out.2, nOut)

def executeFilterCompact (device : Device) (pred : Buffers) (nRows : ℕ) (columns : List WireColumn) :
    Except CompactError (List (List UInt8 × List UInt8 × ℕ)) := do
  if pred.1.length < minBytes nRows then
    throw (.predDataTooShort pred.1.length (minBytes nRows) nRows)
  if pred.2.length < minBytes nRows then
    throw (.predValidTooShort pred.2.length (minBytes nRows) nRows)
  let shared ← (computeKeepAndPrefix device.cumsum device.predicateOrder pred.1 pred.2 nRows).mapError
    .keepAndPrefix
  columns.zipIdx.mapM (compactEntry device nRows shared.1 shared.2.1 shared.2.2)

/-! The dispatch over it. -/

/-- What the two filter functions find around them: the executor of the input plan, Arrow, Polars'
own filter, the orders of the predicate's kernels at each evaluation, the device, and the text of an
exception. -/
structure Environment (P : Type) where
  executePlan : PolarsFrame → P → Except Raised PolarsFrame
  sites : ℕ → Sites
  polarsFilter : PolarsFrame → List (Option Cell) → Except Raised (List Wire.Series)
  materialize : PolarsSeries → ArrowArray
  device : Device
  describe : CompactError → String

def Environment.runtime {P : Type} (env : Environment P) : Runtime P where
  executePlan := env.executePlan
  evaluatePredicate k upstream pred nRows :=
    (evaluatePredicate upstream nRows (env.sites k) pred).mapError (fun e => .exception (.predicate e))
  polarsFilter := env.polarsFilter
  materialize := env.materialize
  executeFilterCompact pred nRows columns :=
    (executeFilterCompact env.device pred nRows columns).mapError
      (fun e => .exception (.native (env.describe e)))

end PolarsMetal.Filter
