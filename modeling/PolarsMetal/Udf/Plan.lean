import PolarsMetal.Filter.Predicate
import PolarsMetal.GroupBy.AggSignature
import PolarsMetal.Lowering.Sort

/-! The plan dict the walker builds, and the wire plan a UDF keeps of it once the scanned frame has
been taken out. -/

namespace PolarsMetal.Udf
open PolarsMetal.Filter GroupBy Lowering

/-- One appended column of an `HStack` node. `expr` is the wire form of the expression `exprNode`; a
binding the analyser took has a fused scope, and its `expr` only names the scope's first column. -/
structure Binding (S : Type) where
  name : String
  expr : AggExpr
  exprNode : ℕ
  fusedScope : Option S
deriving DecidableEq

/-- One fused reduction: the expression the query has for it, and the analyser's scope. -/
structure FusedAgg (R : Type) where
  name : String
  exprNode : ℕ
  scope : R
deriving DecidableEq

/-- The frames `F` stand in the scans; `S` and `R` are the analyser's scopes of a column and of a
reduction, and `J` is a join of two scans. A join that an `HStack` stands directly above refers back
to it. -/
inductive Plan (F S R J : Type) where
  | scan (df : F) (columns : List (String × Option PlanDtype)) (projection : Option (List String))
  | project (input : Plan F S R J) (columns : List String)
  | filter (input : Plan F S R J) (predicate : PredicateAst)
  | hstack (input : Plan F S R J) (exprs : List (Binding S))
  | groupBy (input : Plan F S R J) (keys : List (String × PlanDtype)) (aggs : List AggSpec)
      (fusedAggs : List (FusedAgg R))
  | sort (input : Plan F S R J) (byColumns : List String) (descending nullsLast : List Bool)
      (fusedSort : Option FusedSort)
  | join (node : J) (parentChain : Option (List (Binding S)))

inductive WirePlan (S : Type) where
  | scan (nRows : ℕ) (columns : List (String × Option PlanDtype))
  | project (input : WirePlan S) (columns : List String)
  | filter (input : WirePlan S) (predicate : PredicateAst)
  | hstack (input : WirePlan S) (exprs : List (Binding S))
  | groupBy (input : WirePlan S) (keys : List (String × PlanDtype)) (aggs : List AggSpec)
deriving DecidableEq

/-- What the dispatchers themselves raise, by exception class. -/
inductive ShapeError where
  | valueError (message : String)
  | notImplementedError (message : String)
  | runtimeError (message : String)
  | overflowError (value : ℤ)
  | keyError (key : String)
deriving DecidableEq

/-- `raised` comes out of an operation of Polars, `kernel` out of what runs on the device. -/
inductive Failure (E : Type) where
  | shape (e : ShapeError)
  | raised (e : E)
  | kernel (e : E)
deriving DecidableEq

variable {F S R J E : Type}

def unknownPlanKind (kind : String) : ShapeError := .valueError ("unknown plan kind: '" ++ kind ++ "'")

/-- `rewrite`, with the frames it captures. -/
def rewrite (height : F → ℕ) : Plan F S R J → Except (Failure E) (List F × WirePlan S)
  | .scan df columns none => .ok ([df], .scan (height df) columns)
  | .scan df columns (some projection) =>
    .ok ([df], .project (.scan (height df) columns) projection)
  | .project input columns => do
    let (captured, wire) ← rewrite height input
    return (captured, .project wire columns)
  | .filter input predicate => do
    let (captured, wire) ← rewrite height input
    return (captured, .filter wire predicate)
  | .groupBy input keys aggs _ => do
    let (captured, wire) ← rewrite height input
    return (captured, .groupBy wire keys aggs)
  | .hstack input exprs => do
    let (captured, wire) ← rewrite height input
    return (captured, .hstack wire exprs)
  | .sort .. => .error (.shape (unknownPlanKind "Sort"))
  | .join .. => .error (.shape (unknownPlanKind "Join"))

def extractScanDfAndWirePlan (height : F → ℕ) (plan : Plan F S R J) :
    Except (Failure E) (F × WirePlan S) := do
  let (captured, wire) ← rewrite height plan
  match captured with
  | [df] => return (df, wire)
  | _ => throw (.shape (.runtimeError ("polars_metal: expected exactly one Scan leaf in plan, got " ++
      captured.length.repr ++ ". Multi-scan plans (joins/unions) are not supported in M1.")))

namespace Plan

/-- The join of the plan and its back-reference. -/
def findJoinPlan : Plan F S R J → Option (J × Option (List (Binding S)))
  | scan .. => none
  | project input _ | filter input _ | hstack input _ | groupBy input _ _ _
  | sort input _ _ _ _ => input.findJoinPlan
  | join node parentChain => some (node, parentChain)

def hasJoin (plan : Plan F S R J) : Bool := plan.findJoinPlan.isSome

end Plan

end PolarsMetal.Udf
