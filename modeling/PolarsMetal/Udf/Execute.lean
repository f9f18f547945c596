import PolarsMetal.Router.LiftingPlan
import PolarsMetal.Udf.Plan

/-! Running a plan. `build_udf` picks a builder by the root; what a builder runs when the query is
collected finds the frame under its node in one of three ways: the scanned frame, the Python
dispatcher, or the native executor, which knows scans and projections. -/

namespace PolarsMetal.Udf
open PolarsMetal.Filter GroupBy Lowering
open Router (MetalPlanNode)

/-- The operations of Polars: those the dispatchers call, and what a query's nodes mean. `C` is a
column. -/
structure Polars (F C J E : Type) where
  height : F → ℕ
  select : List String → F → Except E F
  withColumns : List (String × C) → F → Except E F
  slice : ℤ → ℕ → F → F
  dropNulls : String → F → F
  sort : List SortKey → F → Except E F
  join : J → Except E F
  evalWire : AggExpr → F → Except E C
  evalNode : ℕ → F → Except E C
  reduceNodes : List (String × ℕ) → F → Except E F
  filter : PredicateAst → F → Except E F
  groupBy : List (String × PlanDtype) → List AggSpec → F → Except E F

/-- What runs on the device, from the frame under the node: the compaction filter, the filter that
leaves the compaction to Polars, a fused column, a fused reduction, a group-by, a fused sort, and the
resident gather of a join where its guards hold. -/
structure Kernels (F C S R J E : Type) where
  compact : PredicateAst → F → Except E F
  filterViaPolars : PredicateAst → F → Except E F
  fusedColumn : S → F → Except E C
  reduce : List (FusedAgg R) → F → Except E F
  groupBy : List (String × PlanDtype) → List AggSpec → F → Except E F
  sort : FusedSort → List String → F → Except E F
  gather : J → List (Binding S) → Option (Except E F)

variable {F C S R J E : Type}

/-- An operation of Polars inside a dispatcher. -/
def lift {α : Type} (x : Except E α) : Except (Failure E) α := x.mapError .raised

/-- A kernel inside a dispatcher. -/
def launch {α : Type} (x : Except E α) : Except (Failure E) α := x.mapError .kernel

/-! The native executor. -/

def metalDtype : PlanDtype → MetalDtype
  | .i64 => .i64
  | .f64 => .f64
  | .bool => .bool
  | .i32 | .date => .i32
  | .f32 => .f32
  | .i8 => .i8
  | .i16 => .i16
  | .u8 => .u8
  | .u16 => .u16
  | .u32 => .u32
  | .u64 => .u64
  | .utf8 => .utf8

/-- A column the walker has no tag for carries `OPAQUE`. -/
def parseDtype : Option PlanDtype → Except (Failure E) MetalDtype
  | some dtype => .ok (metalDtype dtype)
  | none => .error (.shape (.valueError "polars_metal: unknown MetalDtype tag \"OPAQUE\""))

def deserializePredicate : PredicateAst → Except (Failure E) Unit
  | .column _ _ | .literalF64 _ | .literalBool _ => .ok ()
  | .literalI64 value =>
    if -2 ^ 63 ≤ value ∧ value < 2 ^ 63 then .ok () else .error (.shape (.overflowError value))
  | .compare _ lhs rhs _ | .logical _ lhs rhs => do
    deserializePredicate lhs
    deserializePredicate rhs

def nativeUnknownKind (kind : String) : ShapeError :=
  .valueError ("polars_metal: unknown plan kind \"" ++ kind ++ "\"")

def deserializePlan : WirePlan S → Except (Failure E) MetalPlanNode
  | .scan nRows columns => do
    let columns ← columns.mapM (fun c => (parseDtype c.2).map (fun dtype => (c.1, dtype)))
    return .scan nRows columns
  | .project input columns => do
    let input ← deserializePlan input
    return .project input columns
  | .filter input predicate => do
    let input ← deserializePlan input
    deserializePredicate predicate
    return .filter input
  | .hstack .. => .error (.shape (nativeUnknownKind "HStack"))
  | .groupBy .. => .error (.shape (nativeUnknownKind "GroupBy"))

def filterNotHere : ShapeError :=
  .notImplementedError ("polars_metal: Filter nodes must be dispatched via execute_filter_compact, " ++
    "not execute_plan (the Python UDF handles the routing)")

def groupByNotHere : ShapeError :=
  .notImplementedError "polars_metal: GroupBy execution not yet implemented (lands in Phase 2)"

variable (P : Polars F C J E)

def executeNode (df : F) : MetalPlanNode → Except (Failure E) F
  | .scan _ _ => .ok df
  | .project input columns => do
    let upstream ← executeNode df input
    lift (P.select columns upstream)
  | .filter _ => .error (.shape filterNotHere)
  | .groupBy _ _ _ => .error (.shape groupByNotHere)

def executePlan (df : F) (plan : WirePlan S) : Except (Failure E) F := do
  let node ← deserializePlan plan
  executeNode P df node

/-! The dispatchers. -/

variable (K : Kernels F C S R J E)

/-- The frame under a filter. -/
def filterUpstream (df : F) : WirePlan S → Except (Failure E) F
  | .scan _ _ => .ok df
  | plan => executePlan P df plan

def dispatchFilter (df : F) (input : WirePlan S) (predicate : PredicateAst) :
    Except (Failure E) F := do
  let upstream ← filterUpstream P df input
  launch (K.compact predicate upstream)

def filterViaPolars (df : F) (input : WirePlan S) (predicate : PredicateAst) :
    Except (Failure E) F := do
  let upstream ← filterUpstream P df input
  launch (K.filterViaPolars predicate upstream)

def fusedColumns (upstream : F) (exprs : List (Binding S)) : Except (Failure E) (List (String × C)) :=
  exprs.mapM fun b =>
    match b.fusedScope with
    | some scope => (launch (K.fusedColumn scope upstream)).map (fun column => (b.name, column))
    | none => .error (.shape (.keyError "_fused_scope"))

def hstackFusedOverUpstream (upstream : F) (exprs : List (Binding S)) : Except (Failure E) F := do
  let columns ← fusedColumns K upstream exprs
  lift (P.withColumns columns upstream)

def allFused (exprs : List (Binding S)) : Bool :=
  !exprs.isEmpty && exprs.all (fun b => b.fusedScope.isSome)

/-- `_dispatch`. -/
def dispatch (df : F) : WirePlan S → Except (Failure E) F
  | .filter input predicate => dispatchFilter P K df input predicate
  | .project (.filter input predicate) columns => do
    let filtered ← dispatchFilter P K df input predicate
    lift (P.select columns filtered)
  | .project (.hstack input exprs) columns => do
    let inner ← dispatch df (.hstack input exprs)
    lift (P.select columns inner)
  | .hstack input exprs =>
    if allFused exprs then do
      let upstream ← dispatch df input
      hstackFusedOverUpstream P K upstream exprs
    else executePlan P df (.hstack input exprs)
  | .scan _ _ => .ok df
  | plan => executePlan P df plan

/-- The frame under a group-by, an `HStack` directly below it taken off. -/
def groupByUpstream (df : F) : WirePlan S → Except (Failure E) F
  | .scan _ _ => .ok df
  | .filter input predicate => filterViaPolars P K df input predicate
  | .project (.filter input predicate) columns => do
    let filtered ← filterViaPolars P K df input predicate
    lift (P.select columns filtered)
  | plan => executePlan P df plan

/-- The appended columns of that `HStack`, from their wire forms. -/
def wireColumns (upstream : F) (exprs : List (Binding S)) : Except (Failure E) (List (String × C)) :=
  exprs.mapM fun b => (lift (P.evalWire b.expr upstream)).map (fun column => (b.name, column))

def peelHstack : WirePlan S → List (Binding S) × WirePlan S
  | .hstack input exprs => (exprs, input)
  | plan => ([], plan)

def dispatchGroupby (df : F) (input : WirePlan S) (keys : List (String × PlanDtype))
    (aggs : List AggSpec) : Except (Failure E) F := do
  let (hstackExprs, upstreamPlan) := peelHstack input
  let upstream ← groupByUpstream P K df upstreamPlan
  let upstream ←
    if hstackExprs.isEmpty then pure upstream
    else do
      let columns ← wireColumns P upstream hstackExprs
      lift (P.withColumns columns upstream)
  launch (K.groupBy keys aggs upstream)

/-- `_dispatch_join`: the gather where it applies, else the join and the chain above it. -/
def dispatchJoin (node : J) (parentChain : Option (List (Binding S))) : Except (Failure E) F :=
  match parentChain.bind (K.gather node) with
  | some resident => launch resident
  | none => do
    let joined ← lift (P.join node)
    match parentChain with
    | some exprs => hstackFusedOverUpstream P K joined exprs
    | none => throw (.shape (.keyError "_parent_chain"))

/-! The builders. A UDF is run on the row limit Polars asks for. -/

abbrev RunUdf (F E : Type) := Option ℕ → Except (Failure E) F

def sliceRows (nRows : Option ℕ) (df : F) : F :=
  match nRows with
  | some n => P.slice 0 n df
  | none => df

def buildGroupby (input : Plan F S R J) (keys : List (String × PlanDtype)) (aggs : List AggSpec)
    (fusedAggs : List (FusedAgg R)) : Except (Failure E) (RunUdf F E) := do
  let (df, wire) ← extractScanDfAndWirePlan P.height input
  if keys.isEmpty && !fusedAggs.isEmpty then
    -- the one-row frame of the reductions is not sliced
    return fun _ => do
      let upstream ← dispatch P K df wire
      launch (K.reduce fusedAggs upstream)
  else
    return fun nRows => (dispatchGroupby P K df wire keys aggs).map (sliceRows P nRows)

/-- The host side of a sort, over what the inner UDF returns. -/
def runSort (byColumns : List String) (descending nullsLast : List Bool)
    (fusedSort : Option FusedSort) (df : F) : Except (Failure E) F :=
  match fusedSort with
  | some f => launch (K.sort f byColumns df)
  | none =>
    if byColumns.isEmpty then .ok df
    else lift (P.sort (sortKeys byColumns (orFalse descending) (orFalse nullsLast)) df)

def buildUdf : Plan F S R J → Except (Failure E) (RunUdf F E)
  | .join node parentChain =>
    .ok (fun nRows => (dispatchJoin P K node parentChain).map (sliceRows P nRows))
  | .groupBy input keys aggs fusedAggs => buildGroupby P K input keys aggs fusedAggs
  | .sort input byColumns descending nullsLast fusedSort => do
    let innerUdf ← buildUdf input
    return fun nRows => do
      let df ← innerUdf none
      let df ← runSort P K byColumns descending nullsLast fusedSort df
      return sliceRows P nRows df
  | plan => do
    let (df, wire) ← extractScanDfAndWirePlan P.height plan
    return fun nRows => (dispatch P K df wire).map (sliceRows P nRows)

end PolarsMetal.Udf
