import Mathlib.Data.List.AList
import PolarsMetal.GroupBy.AggSignature

/-! The router's two walks: `computeLiftingPlan` over the typed plan and
`computeLiftingPlanPy` over the dict the walker sends across the wire. Both number nodes in
post-order and record one decision per node. `seq` is a `u32`; a plan with 2^32 nested nodes
does not fit the call stack, so it is a natural number here. -/

namespace PolarsMetal.Router

open GroupBy (MetalDtype AggSpec)

structure NodeId where
  kind : String
  seq : ℕ
deriving DecidableEq, Repr

/-- `"Kind#seq"`. -/
def NodeId.toWire (id : NodeId) : String := id.kind ++ "#" ++ id.seq.repr

inductive NodeDecision where
  | gpuLift
  | cpuLeave
  | fallback (reason : String)
deriving DecidableEq, Repr

def NodeDecision.toWire : NodeDecision → String
  | gpuLift => "gpu_lift"
  | cpuLeave => "cpu_leave"
  | fallback reason => "fallback:" ++ reason

abbrev LiftingPlan := AList (fun _ : NodeId => NodeDecision)

inductive MetalPlanNode where
  | scan (nRows : ℕ) (columns : List (String × MetalDtype))
  | project (input : MetalPlanNode) (columns : List String)
  | filter (input : MetalPlanNode)
  | groupBy (input : MetalPlanNode) (keys : List (String × MetalDtype)) (aggs : List AggSpec)
deriving DecidableEq, Repr

def groupbyGpuMinRows : ℕ := 100000

def decideFilter (_nRows : ℕ) : NodeDecision := .cpuLeave

def decideGroupby (nRows : ℕ) : NodeDecision :=
  if nRows > groupbyGpuMinRows then .gpuLift else .cpuLeave

def decideProject : NodeDecision → NodeDecision
  | .fallback r => .fallback r
  | .gpuLift => .gpuLift
  | .cpuLeave => .cpuLeave

def decideScanInitial : NodeDecision := .cpuLeave

/-- The key's data bits and its null flag. -/
def keyWidthBits : MetalDtype → ℕ
  | .bool => 1 + 1
  | .i64 | .f64 | .u64 => 1 + 64
  | .i32 | .f32 | .u32 => 1 + 32
  | .i16 | .u16 => 1 + 16
  | .i8 | .u8 => 1 + 8
  | .utf8 => 1 + 32

def totalKeyBits (keys : List (String × MetalDtype)) : ℕ :=
  (keys.map (fun key => keyWidthBits key.2)).sum

def decideGroupbyWithKeys (nRows : ℕ) (keys : List (String × MetalDtype)) (_aggs : List AggSpec) :
    NodeDecision :=
  if totalKeyBits keys > 128 then
    .fallback ("composite key total " ++ (totalKeyBits keys).repr ++ " bits; M2 supports ≤ 128")
  else decideGroupby nRows

/-- Looks through `project` and `filter` for the scan; zero rows under a `groupBy`. -/
def inputRowCount : MetalPlanNode → ℕ
  | .scan nRows _ => nRows
  | .project input _ => inputRowCount input
  | .filter input => inputRowCount input
  | .groupBy _ _ _ => 0

/-- The scan's dtype of a column; of two columns of one name the later is found. -/
def inputSchemaLookup : MetalPlanNode → String → Option MetalDtype
  | .scan _ columns, name => columns.reverse.lookup name
  | .project input _, name => inputSchemaLookup input name
  | .filter input, name => inputSchemaLookup input name
  | .groupBy _ _ _, _ => none

def expressionFallsBack (schema : String → Option MetalDtype) (aggs : List AggSpec) : Bool :=
  aggs.any (fun a => match a with
    | .expression expr _ _ =>
      expr.referencedColumns.any (fun c => schema c == some .f64 || schema c == some .i64)
    | _ => false)

def expressionFallbackReason : String :=
  "Expression agg references 64-bit-wide column; fused kernel requires " ++
    "32-bit-or-narrower inputs (Apple Silicon Metal lacks 64-bit atomics)"

/-- The child's recorded decision. -/
def childDecision (plan : LiftingPlan) (child : NodeId) : NodeDecision :=
  (plan.lookup child).getD (.fallback "missing child decision")

/-- Hands out the next id for `kind` and records its decision. -/
def record (kind : String) (decision : NodeDecision) (plan : LiftingPlan) (nextSeq : ℕ) :
    NodeId × LiftingPlan × ℕ :=
  (⟨kind, nextSeq⟩, plan.insert ⟨kind, nextSeq⟩ decision, nextSeq + 1)

def walk : MetalPlanNode → LiftingPlan → ℕ → NodeId × LiftingPlan × ℕ
  | .scan _ _, plan, nextSeq => record "Scan" decideScanInitial plan nextSeq
  | .project input _, plan, nextSeq =>
    let (child, plan, nextSeq) := walk input plan nextSeq
    record "Project" (decideProject (childDecision plan child)) plan nextSeq
  | .filter input, plan, nextSeq =>
    let (_, plan, nextSeq) := walk input plan nextSeq
    record "Filter" (decideFilter 0) plan nextSeq
  | .groupBy input keys aggs, plan, nextSeq =>
    let nRows := inputRowCount input
    let inputSchema := inputSchemaLookup input
    let (_, plan, nextSeq) := walk input plan nextSeq
    let decision :=
      if expressionFallsBack inputSchema aggs then .fallback expressionFallbackReason
      else decideGroupbyWithKeys nRows keys aggs
    record "GroupBy" decision plan nextSeq

def computeLiftingPlan (root : MetalPlanNode) : LiftingPlan := (walk root ∅ 0).2.1

/-! The wire form. -/

/-- The keys of a plan dict other than its `input`. -/
structure PlanEntries where
  kind : Option String
  nRows : Option ℕ
  columns : List (String × MetalDtype)
  projection : List String
  keys : List (String × MetalDtype)
  aggs : List AggSpec
deriving DecidableEq, Repr

def PlanEntries.ofKind (kind : String) : PlanEntries := ⟨some kind, none, [], [], [], []⟩

/-- A plan dict, with or without an `input`. -/
inductive PlanDict where
  | leaf (entries : PlanEntries)
  | over (entries : PlanEntries) (input : PlanDict)
deriving DecidableEq, Repr

inductive PyErr where
  | keyError (message : String)
deriving DecidableEq, Repr

def PlanEntries.getKind (entries : PlanEntries) (missing : String) : Except PyErr String :=
  match entries.kind with
  | some kind => .ok kind
  | none => .error (.keyError missing)

def PlanEntries.getRows (entries : PlanEntries) : Except PyErr ℕ :=
  match entries.nRows with
  | some n => .ok n
  | none => .error (.keyError "Scan: missing n_rows")

def peekInputRowCount : PlanDict → Except PyErr ℕ
  | .leaf entries => do
    match ← entries.getKind "missing 'kind'" with
    | "Scan" => entries.getRows
    | "Project" | "Filter" | "GroupBy" | "Sort" | "HStack" =>
      throw (.keyError "missing 'input' in row-count peek")
    | _ => return 0
  | .over entries input => do
    match ← entries.getKind "missing 'kind'" with
    | "Scan" => entries.getRows
    | "Project" | "Filter" | "GroupBy" | "Sort" | "HStack" => peekInputRowCount input
    | _ => return 0

def parseAndRoute : PlanDict → LiftingPlan → ℕ → Except PyErr (NodeId × LiftingPlan × ℕ)
  | .leaf entries, lifting, nextSeq => do
    match ← entries.getKind "router: missing 'kind'" with
    | "Scan" => return record "Scan" decideScanInitial lifting nextSeq
    | "Project" => throw (.keyError "Project: missing input")
    | "Filter" => throw (.keyError "Filter: missing input")
    | "GroupBy" => throw (.keyError "GroupBy: missing input")
    | "Sort" => throw (.keyError "Sort: missing input")
    | "HStack" => throw (.keyError "HStack: missing input")
    | other => return record other (.fallback ("unsupported IR node: " ++ other)) lifting nextSeq
  | .over entries input, lifting, nextSeq => do
    match ← entries.getKind "router: missing 'kind'" with
    | "Scan" => return record "Scan" decideScanInitial lifting nextSeq
    | "Project" =>
      let (child, lifting, nextSeq) ← parseAndRoute input lifting nextSeq
      return record "Project" (decideProject (childDecision lifting child)) lifting nextSeq
    | "Filter" =>
      let (_, lifting, nextSeq) ← parseAndRoute input lifting nextSeq
      return record "Filter" (decideFilter 0) lifting nextSeq
    | "GroupBy" =>
      -- neither the key widths nor the aggregates are looked at
      let nRows ← peekInputRowCount input
      let (_, lifting, nextSeq) ← parseAndRoute input lifting nextSeq
      return record "GroupBy" (decideGroupby nRows) lifting nextSeq
    | "Sort" =>
      let (child, lifting, nextSeq) ← parseAndRoute input lifting nextSeq
      return record "Sort" (childDecision lifting child) lifting nextSeq
    | "HStack" =>
      let (child, lifting, nextSeq) ← parseAndRoute input lifting nextSeq
      return record "HStack" (childDecision lifting child) lifting nextSeq
    | other =>
      let (_, lifting, nextSeq) ← parseAndRoute input lifting nextSeq
      return record other (.fallback ("unsupported IR node: " ++ other)) lifting nextSeq

/-- The dict handed to Python: `"Kind#seq"` to the decision's text. -/
abbrev WirePlan := AList (fun _ : String => String)

def toWirePlan (lifting : LiftingPlan) : WirePlan :=
  lifting.entries.foldl (fun out entry => out.insert entry.1.toWire entry.2.toWire) ∅

def computeLiftingPlanPy (planDict : PlanDict) : Except PyErr WirePlan := do
  let (_, lifting, _) ← parseAndRoute planDict ∅ 0
  return toWirePlan lifting

/-- The dict form of a typed plan. -/
def MetalPlanNode.toDict : MetalPlanNode → PlanDict
  | scan nRows columns => .leaf { PlanEntries.ofKind "Scan" with nRows := some nRows, columns }
  | project input columns =>
    .over { PlanEntries.ofKind "Project" with projection := columns } input.toDict
  | filter input => .over (PlanEntries.ofKind "Filter") input.toDict
  | groupBy input keys aggs => .over { PlanEntries.ofKind "GroupBy" with keys, aggs } input.toDict

end PolarsMetal.Router
