import PolarsMetal.GroupBy.CpuFloats
import PolarsMetal.GroupBy.Dispatch
import PolarsMetal.GroupBy.FloatAggregates
import PolarsMetal.GroupBy.Means

/-! The whole group-by: encode the keys, build the groups, run every aggregate over the assignment of
rows to groups, and decode the keys of the groups' first rows. -/

namespace PolarsMetal.GroupBy.Pipeline
open Bitmap

inductive AggKind where
  | sumI64 | sumF64 | meanI64 | meanF64 | minI64 | maxI64 | minF64 | maxF64
  | count | len
  | sumI32 | sumF32 | meanI32 | meanF32 | minI32 | maxI32 | minF32 | maxF32
deriving DecidableEq, Repr

/-- `base` is an error that the dispatchers of the steps share. -/
inductive GroupByError where
  | base (e : GroupBy.GroupByError)
  | keyEncode (e : KeyEncodeError)
  | aggTypeMismatch (kind : AggKind) (valueDtype : String)
  | unreachable

structure GroupByResult where
  decodedKeys : List DecodedColumn
  aggOutputs : List AggOutput
  nGroups : ℕ

/-- Double-precision arithmetic on bit patterns. -/
structure F64Arith extends F64Ops where
  add : BitVec 64 → BitVec 64 → BitVec 64

instance : Inhabited F64Arith := ⟨⟨⟨id, BitVec.ofNat 64, fun a _ => a⟩, fun a _ => a⟩⟩

/-- What the devices decide while an aggregate runs: the thread order of the integer kernels, the run
of a single-precision kernel, and how the CPU divides the rows. -/
structure AggRun where
  threads : List ℕ
  launch : F32Launch
  split : ParFold.Split

def computeMeanF64 (fl : F64Arith) (sums : List (BitVec 64)) (counts : List ℕ) :
    List (Option (BitVec 64)) :=
  (sums.zip counts).map (fun (s, c) => if c = 0 then none else some (fl.div s (fl.ofU64 c)))

def emptyOutputFor : AggKind → AggOutput
  | .sumI64 | .minI64 | .maxI64 => .i64 [] []
  | .sumF64 | .meanI64 | .meanF64 | .minF64 | .maxF64 => .f64 [] []
  | .count | .len => .u64 []
  | .sumI32 | .minI32 | .maxI32 => .i32 [] []
  | .sumF32 | .meanI32 | .meanF32 | .minF32 | .maxF32 => .f32 [] []

section RunOneAgg

variable (fl : F32Ops) (fl64 : F64Arith) (rowToGroup : List ℕ) (nGroups : ℕ) (run : AggRun)

def countsOf (valid : List UInt8) : List ℕ :=
  (CpuPath.aggregateCountCpu valid rowToGroup nGroups run.split).map BitVec.toNat

def runOneAgg (kind : AggKind) (vcol : ValueColumn) : Except GroupByError AggOutput :=
  match kind, vcol with
  | .sumI64, .i64 data valid =>
    .ok (.i64 (CpuPath.aggregateSumI64Cpu data valid rowToGroup nGroups run.split)
      (List.replicate nGroups true))
  | .sumF64, .f64 data valid =>
    .ok (.f64 (CpuPath.aggregateSumF64Cpu data valid rowToGroup nGroups fl64.add run.split)
      (List.replicate nGroups true))
  | .minI64, .i64 data valid =>
    let (values, validOut) := CpuPath.aggregateMinI64Cpu data valid rowToGroup nGroups run.split
    .ok (.i64 values validOut)
  | .maxI64, .i64 data valid =>
    let (values, validOut) := CpuPath.aggregateMaxI64Cpu data valid rowToGroup nGroups run.split
    .ok (.i64 values validOut)
  | .minF64, .f64 data valid =>
    let (values, validOut) := CpuPath.aggregateMinF64Cpu data valid rowToGroup nGroups run.split
    .ok (.f64 values validOut)
  | .maxF64, .f64 data valid =>
    let (values, validOut) := CpuPath.aggregateMaxF64Cpu data valid rowToGroup nGroups run.split
    .ok (.f64 values validOut)
  | .count, .i64 _ valid | .count, .f64 _ valid | .count, .i32 _ valid | .count, .f32 _ valid =>
    .ok (.u64 (countsOf rowToGroup nGroups run valid))
  | .len, _ =>
    .ok (.u64 ((CpuPath.aggregateLenCpu rowToGroup nGroups run.split).map BitVec.toNat))
  | .meanI64, .i64 data valid =>
    let sums := CpuPath.aggregateSumI64Cpu data valid rowToGroup nGroups run.split
    let means := computeMeanI64 fl64.toF64Ops sums (countsOf rowToGroup nGroups run valid)
    .ok (.f64 (means.map (fun m => m.getD 0)) (means.map Option.isSome))
  | .meanF64, .f64 data valid =>
    let sums := CpuPath.aggregateSumF64Cpu data valid rowToGroup nGroups fl64.add run.split
    let means := computeMeanF64 fl64 sums (countsOf rowToGroup nGroups run valid)
    .ok (.f64 (means.map (fun m => m.getD 0)) (means.map Option.isSome))
  | .sumI32, .i32 data valid =>
    (GroupBy.runOneAgg fl .sumI32 (.i32 data valid) rowToGroup nGroups run.threads).mapError .base
  | .minI32, .i32 data valid =>
    (GroupBy.runOneAgg fl .minI32 (.i32 data valid) rowToGroup nGroups run.threads).mapError .base
  | .maxI32, .i32 data valid =>
    (GroupBy.runOneAgg fl .maxI32 (.i32 data valid) rowToGroup nGroups run.threads).mapError .base
  | .meanI32, .i32 data valid =>
    (GroupBy.runOneAgg fl .meanI32 (.i32 data valid) rowToGroup nGroups run.threads).mapError .base
  | .sumF32, .f32 data valid =>
    (runOneAggF32 fl .sumF32 data valid rowToGroup nGroups run.launch run.threads).mapError .base
  | .minF32, .f32 data valid =>
    (runOneAggF32 fl .minF32 data valid rowToGroup nGroups run.launch run.threads).mapError .base
  | .maxF32, .f32 data valid =>
    (runOneAggF32 fl .maxF32 data valid rowToGroup nGroups run.launch run.threads).mapError .base
  | .meanF32, .f32 data valid =>
    (runOneAggF32 fl .meanF32 data valid rowToGroup nGroups run.launch run.threads).mapError .base
  | kind, vcol => .error (.aggTypeMismatch kind vcol.dtypeName)

end RunOneAgg

/-- The run of each aggregate, once its rows are assigned to groups. -/
abbrev AggRuns := ℕ → List ℕ → ℕ → AggRun

def runAggs (fl : F32Ops) (fl64 : F64Arith) (runs : AggRuns) (aggSpecs : List (AggKind × ValueColumn))
    (rowToGroup : List ℕ) (nGroups : ℕ) : Except GroupByError (List AggOutput) :=
  aggSpecs.zipIdx.mapM fun s =>
    runOneAgg fl fl64 rowToGroup nGroups (runs s.2 rowToGroup nGroups) s.1.1 s.1.2

def decode (lanes : List Lane) (schema : KeySchema) : Except GroupByError (List DecodedColumn) :=
  match decodeKeys lanes schema with
  | some columns => .ok columns
  | none => .error .unreachable

def dispatchGroupby (fl : F32Ops) (fl64 : F64Arith) (g : GpuRun) (deviceOk : Bool) (runs : AggRuns)
    (keyCols : List KeyColumn) (aggSpecs : List (AggKind × ValueColumn)) (nRows : ℕ) :
    Except GroupByError GroupByResult :=
  match keyCols.find? (fun kc => kc.nRows != nRows) with
  | some kc => .error (.base (.outputTooShort kc.nRows nRows))
  | none =>
    if keyCols = [] then
      if nRows = 0 then .ok ⟨[], aggSpecs.map (fun s => emptyOutputFor s.1), 0⟩
      else do
        let aggOutputs ← runAggs fl fl64 runs aggSpecs (List.replicate nRows 0) 1
        return ⟨[], aggOutputs, 1⟩
    else do
      let (encoded, schema) ← (encodeKeys keyCols).mapError .keyEncode
      if nRows = 0 then
        let decodedKeys ← decode [] schema
        return ⟨decodedKeys, aggSpecs.map (fun s => emptyOutputFor s.1), 0⟩
      let build ← (dispatchBuild g deviceOk encoded nRows).mapError .base
      let aggOutputs ← runAggs fl fl64 runs aggSpecs build.rowToGroup build.nGroups
      let representativeKeys := build.firstRowPerGroup.map (fun row => encoded.getD row 0)
      let decodedKeys ← decode representativeKeys schema
      return ⟨decodedKeys, aggOutputs, build.nGroups⟩

end PolarsMetal.GroupBy.Pipeline
