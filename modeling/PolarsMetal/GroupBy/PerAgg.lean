import PolarsMetal.GroupBy.FusedKernel

/-! The per-aggregate path: one kernel launch per aggregate, one thread per row,
each thread an atomic update of its group's cell. The arms for 32-bit integer
columns, counts and row counts. -/

namespace PolarsMetal.GroupBy
open Bitmap

inductive AggKind where
  | count | len | sumI32 | meanI32 | minI32 | maxI32
deriving DecidableEq, Repr

inductive GroupByError where
  | rowCountOverflow (nRows : ℕ)
  | outputTooShort (got need : ℕ)
  | aggTypeMismatch (kind : AggKind) (valueDtype : String)
  | unsupportedOp (op : AggOp)
  | missingByteRef
  | expressionRouted
deriving DecidableEq, Repr

/-- The kernel kind of an op over a column; only the integer arms are kept. -/
def aggKindFor (op : AggOp) (dtypeTag : MetalDtype) : Except GroupByError AggKind :=
  match op, dtypeTag with
  | .count, .i64 | .count, .f64 | .count, .i32 | .count, .f32 => .ok .count
  | .sum, .i32 => .ok .sumI32
  | .mean, .i32 => .ok .meanI32
  | .min, .i32 => .ok .minI32
  | .max, .i32 => .ok .maxI32
  | op, _ => .error (.unsupportedOp op)

/-- A kernel that folds each valid row's word into its group's cell. -/
def aggThread (combine : Word → Word → Word) (values : List Word) (valid : List UInt8)
    (rowToGroup : List ℕ) (nRows : ℕ) (out : List Word) (gid : ℕ) : List Word :=
  if gid ≥ nRows then out
  else if bitAt valid gid = 0 then out
  else out.modify (rowToGroup.getD gid 0) (fun old => combine old (values.getD gid 0))

def aggSumI32 : Word → Word → Word := fun old v => old + v
def aggMinI32 : Word → Word → Word := fun old v => if v.slt old then v else old
def aggMaxI32 : Word → Word → Word := fun old v => if old.slt v then v else old

/-- `threads` is the order in which the kernel's threads run. -/
def dispatchAggI32 (combine : Word → Word → Word) (initValue : Word) (values : List Word)
    (valid : List UInt8) (rowToGroup : List ℕ) (nRows nGroups : ℕ) (threads : List ℕ) :
    Except GroupByError (List Word) :=
  if nRows = 0 then .ok (List.replicate nGroups initValue)
  else if nRows ≥ 2 ^ 32 then .error (.rowCountOverflow nRows)
  else if values.length < nRows then .error (.outputTooShort values.length nRows)
  else if rowToGroup.length < nRows then .error (.outputTooShort rowToGroup.length nRows)
  else if valid.length < (nRows + 7) / 8 then
    .error (.outputTooShort valid.length ((nRows + 7) / 8))
  else .ok (threads.foldl
    (aggThread combine values (valid.take ((nRows + 7) / 8)) rowToGroup nRows)
    (List.replicate nGroups initValue))

def countThread (valid : List UInt8) (rowToGroup : List ℕ) (nRows : ℕ) (out : List Word) (gid : ℕ) :
    List Word :=
  if gid ≥ nRows then out
  else if bitAt valid gid = 0 then out
  else out.modify (rowToGroup.getD gid 0) (fun old => old + 1)

def dispatchCountU32 (valid : List UInt8) (rowToGroup : List ℕ) (nRows nGroups : ℕ)
    (threads : List ℕ) : Except GroupByError (List Word) :=
  if nRows = 0 then .ok (List.replicate nGroups 0)
  else if nRows ≥ 2 ^ 32 then .error (.rowCountOverflow nRows)
  else if rowToGroup.length < nRows then .error (.outputTooShort rowToGroup.length nRows)
  else if valid.length < (nRows + 7) / 8 then
    .error (.outputTooShort valid.length ((nRows + 7) / 8))
  else .ok (threads.foldl (countThread (valid.take ((nRows + 7) / 8)) rowToGroup nRows)
    (List.replicate nGroups 0))

def countToValid (counts : List Word) : List Bool := counts.map (fun c => 0 < c)

/-- Count of non-null rows per group, on the CPU. -/
def aggregateCountCpu (valid : List UInt8) (rowToGroup : List ℕ) (nGroups : ℕ) : List ℕ :=
  (List.range rowToGroup.length).foldl (fun counts i =>
    if bitAt valid i = 0 then counts
    else counts.modify (rowToGroup.getD i 0) (fun c => c + 1)) (List.replicate nGroups 0)

def aggregateLenCpu (rowToGroup : List ℕ) (nGroups : ℕ) : List ℕ :=
  rowToGroup.foldl (fun counts g => counts.modify g (fun c => c + 1)) (List.replicate nGroups 0)

/-- One aggregate; `threads` is the thread order of its kernels. -/
def runOneAgg (fl : F32Ops) (kind : AggKind) (vcol : ValueColumn) (rowToGroup : List ℕ)
    (nGroups : ℕ) (threads : List ℕ) : Except GroupByError AggOutput :=
  let nRows := rowToGroup.length
  match kind, vcol with
  | .count, .i64 _ valid | .count, .f64 _ valid | .count, .i32 _ valid | .count, .f32 _ valid =>
    .ok (.u64 (aggregateCountCpu valid rowToGroup nGroups))
  | .len, _ => .ok (.u64 (aggregateLenCpu rowToGroup nGroups))
  | .sumI32, .i32 data valid => do
    let out ← dispatchAggI32 aggSumI32 0 data valid rowToGroup nRows nGroups threads
    return .i32 out (List.replicate nGroups true)
  | .minI32, .i32 data valid => do
    let out ← dispatchAggI32 aggMinI32 i32Max data valid rowToGroup nRows nGroups threads
    let counts ← dispatchCountU32 valid rowToGroup nRows nGroups threads
    return .i32 out (countToValid counts)
  | .maxI32, .i32 data valid => do
    let out ← dispatchAggI32 aggMaxI32 i32Min data valid rowToGroup nRows nGroups threads
    let counts ← dispatchCountU32 valid rowToGroup nRows nGroups threads
    return .i32 out (countToValid counts)
  | .meanI32, .i32 data valid => do
    let sums ← dispatchAggI32 aggSumI32 0 data valid rowToGroup nRows nGroups threads
    let counts ← dispatchCountU32 valid rowToGroup nRows nGroups threads
    return meanFromSumCount fl.ofI32 fl sums counts
  | kind, vcol => .error (.aggTypeMismatch kind vcol.dtypeName)

def emptyOutputFor : AggKind → AggOutput
  | .count | .len => .u64 []
  | .sumI32 | .minI32 | .maxI32 => .i32 [] []
  | .meanI32 => .f32 [] []

/-- The kernel kind and column of one spec; a row count gets an empty placeholder column. -/
def requestOf (byName : ValueColumns) : AggSpec → Except GroupByError (AggKind × ValueColumn)
  | .length _ => .ok (.len, .i64 [] [])
  | .simple inputCol op _ =>
    match byName.lookup inputCol with
    | none => .error .missingByteRef
    | some vcol => do
      let kind ← aggKindFor op vcol.dtype
      return (kind, vcol)
  | .expression _ _ _ => .error .expressionRouted

/-- The per-aggregate path after the group build; `threads a` is the thread order of spec `a`. -/
def executePeragg (fl : F32Ops) (specs : List AggSpec) (byName : ValueColumns) (nRows : ℕ)
    (build : BuildOutput) (threads : ℕ → List ℕ) : Except GroupByError GroupByResult := do
  let aggSpecs ← specs.mapM (requestOf byName)
  if nRows = 0 then return ⟨aggSpecs.map (fun req => emptyOutputFor req.1), 0⟩
  let aggOutputs ← aggSpecs.zipIdx.mapM (fun (req, a) =>
    runOneAgg fl req.1 req.2 build.rowToGroup build.nGroups (threads a))
  return ⟨aggOutputs, build.nGroups⟩

end PolarsMetal.GroupBy
