import Mathlib.Algebra.Order.Field.Basic
import PolarsMetal.Fusion.Staging
import PolarsMetal.Lib.Moments
import PolarsMetal.Lowering.NullFree

/-! Select reductions. A sum, min, max, mean, std or var over a column or a compute chain runs as one
fused scope; the rows that are null are dropped before it, or the whole reduction goes to Polars, by
a static reading of the chain. Numbers are exact. -/

namespace PolarsMetal.Lowering
open Fusion Moments

/-! Exact reductions. -/

section Numbers

variable {K : Type} [Field K] [LinearOrder K]

/-- A square root of the numbers that are not negative. -/
structure Root (K : Type) [Field K] [LinearOrder K] where
  sqrt : K → K
  mul : ∀ a b, 0 ≤ a → 0 ≤ b → sqrt (a * b) = sqrt a * sqrt b
  inj : ∀ a b, 0 ≤ a → 0 ≤ b → sqrt a = sqrt b → a = b

/-- Polars' reduction of a series. -/
def polarsReduce (R : Root K) (kind : String) (ddof : ℕ) (series : List (Option K)) : Option K :=
  let xs := series.reduceOption
  match kind with
  | "sum" => some xs.sum
  | "mean" => if xs.isEmpty then none else some (mean xs)
  | "min" => xs.min?
  | "max" => xs.max?
  | "var" => variance ddof xs
  | "std" => (variance ddof xs).map R.sqrt
  | _ => none

/-- MLX's reduction of an array, with the population variance. -/
def mlxReduce (R : Root K) (op : OpId) (xs : List K) : K :=
  match op with
  | .sum => xs.sum
  | .mean => mean xs
  | .min => xs.min?.getD 0
  | .max => xs.max?.getD 0
  | .var => squaredDeviations xs / xs.length
  | .std => R.sqrt (squaredDeviations xs / xs.length)
  | _ => 0

def cumStep : Cumulative → K → K → K
  | .cumSum => (· + ·)
  | .cumProd => (· * ·)
  | .cumMax => max
  | .cumMin => min

/-- The last value of a scan. -/
def scanLast (c : Cumulative) : List K → Option K
  | [] => none
  | x :: xs => some (xs.foldl (cumStep c) x)

end Numbers

/-! Arrays and series. -/

/-- An operand of a node: a single value, which is a literal's if the number is given, or one cell
for each row. -/
inductive Operand (C : Type) where
  | scalar (literal : Option PyFloat) (value : C)
  | column (cell : ℕ → C)

/-- What one row's nodes and ops mean, and which conditions hold; `nan` is what a null becomes in an
array, `misread` what a literal becomes that is staged at another dtype than declared, and
`resultDtype` the element type MLX gives an op's result, or its error. -/
structure RowOps (K : Type) extends Interp K where
  truth : K → Bool
  nan : K
  misread : PyFloat → Operand K
  resultDtype : OpId → List MlxDtype → Except String MlxDtype

/-- The ops of a scope on element types; an error is passed on. -/
def RowOps.dtypeOp {K : Type} (S : RowOps K) : OpSemantics (Except String MlxDtype) := fun op _ args =>
  args.mapM id >>= S.resultDtype op

namespace Operand

variable {C : Type}

def cell : Operand C → ℕ → C
  | scalar _ value, _ => value
  | column cell, i => cell i

def isColumn : Operand C → Bool
  | scalar _ _ => false
  | column _ => true

/-- A function of the cells of a row; single values are repeated. -/
def rowwise (f : List C → C) (args : List (Operand C)) : Operand C :=
  if args.any isColumn then column (fun i => f (args.map (fun a => a.cell i)))
  else scalar none (f (args.map (fun a => a.cell 0)))

/-- A function of a whole column of `n` rows; `fill` stands in for a missing argument. -/
def along (n : ℕ) (f : ℕ → (ℕ → C) → ℕ → C) (fill : C) (args : List (Operand C)) : Operand C :=
  let first := args.headD (scalar none fill)
  if args.any isColumn then column (f n first.cell) else scalar none (f 1 first.cell 0)

/-- The values of an operand on `n` rows. -/
def values (n : ℕ) : Operand C → List C
  | scalar _ value => [value]
  | column cell => (List.range n).map cell

end Operand

section Columns

variable {K : Type} [Field K] [LinearOrder K] (S : RowOps K) (R : Root K) (n : ℕ)

def shiftBy {C : Type} (fill : C) (w : ℕ) (cell : ℕ → C) (i : ℕ) : C :=
  if i < w then fill else cell (i - w)

/-- MLX's scan. -/
def denseScan (c : Cumulative) (_ : ℕ) (cell : ℕ → K) (i : ℕ) : K :=
  (scanLast c ((List.range (i + 1)).map cell)).getD S.nan

def denseWhere (xs : List K) : K :=
  match xs with
  | [p, t, f] => if S.truth p then t else f
  | _ => S.nan

/-- The ops of a scope on arrays of `n` rows; a shift fills with zeros. -/
def denseOp : OpSemantics (Operand K) := fun op param args =>
  match op with
  | .sum | .mean | .min | .max | .std | .var =>
    .scalar none (mlxReduce R op ((args.headD (.scalar none S.nan)).values n))
  | .cumSum => .along n (denseScan S .cumSum) S.nan args
  | .cumProd => .along n (denseScan S .cumProd) S.nan args
  | .cumMax => .along n (denseScan S .cumMax) S.nan args
  | .cumMin => .along n (denseScan S .cumMin) S.nan args
  | .shift => .along n (fun _ => shiftBy 0 (param.getD 0).toNat) S.nan args
  | .where => .rowwise (denseWhere S) args
  | op => .rowwise (S.op op param) args

/-- A function of a row's cells, null where one of them is. -/
def liftRow (f : List K → K) (cells : List (Option K)) : Option K := (cells.mapM id).map f

/-- A binary node on two cells: `and` and `or` are Kleene's. -/
def seriesBinary (op : Operator) (cells : List (Option K)) : Option K :=
  match op, cells with
  | .and, [some x, none] | .and, [none, some x] => if S.truth x then none else some x
  | .or, [some x, none] | .or, [none, some x] => if S.truth x then some x else none
  | op, cells => liftRow (fun xs => S.binary op (xs.headD S.nan) (xs.getD 1 S.nan)) cells

/-- A scan skips nulls and leaves them where they are. -/
def seriesScan (c : Cumulative) (reverse : Bool) (n : ℕ) (cell : ℕ → Option K) (i : ℕ) : Option K :=
  match cell i with
  | none => none
  | some _ =>
    scanLast c ((if reverse then ((List.range n).drop i).reverse else List.range (i + 1)).filterMap cell)

/-- `when/then/otherwise`: a null condition takes the other branch. -/
def seriesWhere (cells : List (Option K)) : Option K :=
  match cells with
  | [some p, t, f] => if S.truth p then t else f
  | [none, _, f] => f
  | _ => none

/-- The nodes of a chain on Polars series of `n` rows. -/
def seriesInterp : Interp (Operand (Option K)) where
  op := fun _ _ _ => .scalar none none
  lit := fun x => .scalar (some x) (some (S.lit x))
  object := fun v => .scalar none (some (S.object v))
  binary := fun op a b => .rowwise (seriesBinary S op) [a, b]
  cast := fun dtype a => .rowwise (liftRow (fun xs => S.cast dtype (xs.headD S.nan))) [a]
  function := fun data args =>
    match data with
    | .shift =>
      match args with
      | [a, .scalar (some (.finite w)) _] =>
        .along n (fun _ => shiftBy none w.num.toNat) (some S.nan) [a]
      | _ => .scalar none none
    | .cumulative c reverse => .along n (seriesScan c reverse) (some S.nan) args
    | data => .rowwise (liftRow (S.function data)) args
  agg := fun name args =>
    .scalar none (polarsReduce R name.toLower 1 ((args.headD (.scalar none none)).values n))
  ternary := fun p t f => .rowwise (seriesWhere S) [p, t, f]
  hidden := .scalar none none

end Columns

/-! The null mode of a chain. -/

inductive NullMode where
  | elementwise
  | where
deriving DecidableEq

/-- The comparisons that are false where an operand is NaN. -/
def isNanSafePredicate : IRExpr → Bool
  | .binary op _ _ =>
    match binopMap op with
    | some .eq | some .lt | some .le | some .gt | some .ge => true
    | _ => false
  | _ => false

mutual

/-- `_classify_null_ir`: whether a data-dependent null appears; `none` where the walk aborts. -/
def classifyNullIr (nt : NodeTraverser) : IRExpr → Option Bool
  | .leaf _ => some false
  | .binary op left right =>
    match binopMap op with
    | none | some .logicalAnd | some .logicalOr => none
    | _ => do return (← classifyNullIr nt left) || (← classifyNullIr nt right)
  | .cast dtype e => if dtype ≠ .float32 then none else classifyNullIr nt e
  | .function .shift input =>
    match shiftOffset nt input with
    | .ok _ => do
      let _ ← classifyNullFirst nt input
      return true
    | .error _ => none
  | .function .log input => classifyNullAll nt input
  | .function .pow input => classifyNullAll nt input
  | .function (.cumulative _ _) _ => none
  | .function data input =>
    match irFunctionMap data with
    | none => none
    | some _ => classifyNullAll nt input
  | .agg _ _ => none
  | .ternary p t f =>
    if isNanSafePredicate p = false then none
    else do
      let _ ← classifyNullIr nt t
      let _ ← classifyNullIr nt f
      return true
  | .hidden => none

def classifyNullFirst (nt : NodeTraverser) : List IRExpr → Option Bool
  | [] => none
  | e :: _ => classifyNullIr nt e

def classifyNullAll (nt : NodeTraverser) : List IRExpr → Option Bool
  | [] => some false
  | e :: es => do return (← classifyNullIr nt e) || (← classifyNullAll nt es)

end

def nullModeIr (nt : NodeTraverser) (e : IRExpr) : Option NullMode :=
  (classifyNullIr nt e).map (fun sawWhere => if sawWhere then .where else .elementwise)

/-! The route and the UDF. -/

section Route

variable {K : Type}

/-- `_route_fused_reduction` for one reduction: whether its null rows are dropped; `none` sends the
select to the CPU. -/
def routeFusedReduction (plan : PlanNode K) (nt : NodeTraverser) (arg : IRExpr) (r : ReductionScope) :
    Option Bool :=
  if r.isChain = false then some false
  else if fusedInputsNullFree plan (colNames r.descriptors) then some false
  else if nullModeIr nt arg = some .elementwise then some true
  else none

/-- `df.drop_nulls(subset=cols)`. -/
def Frame.dropNullsSubset (df : Frame K) (cols : List String) : Frame K :=
  { df with rows := df.rows.filter (fun row => cols.all (fun c => (cellOf df.columns row c).isSome)) }

variable [Field K] [LinearOrder K] (S : RowOps K) (R : Root K)

/-- A column as an array: nulls become `nan`. -/
def denseColumn (df : Frame K) (c : String) : Operand K :=
  .column (fun i => ((df.getColumn c).getD i none).getD S.nan)

/-- What is staged for an input: a column, or a literal as an array of one entry of the output's
dtype. -/
def stageOperand (df : Frame K) (outDtype : InputDtype) (input : InputRef) : Descriptor → Operand K
  | .col c => denseColumn S df c
  | .lit x => if input.dtype = outDtype then .scalar (some x) (S.lit x) else S.misread x
  | .gatherKey _ | .gatherValue _ => .scalar none S.nan

/-- The Bessel correction of MLX's population variance. -/
def bessel (kind : String) (count : ℕ) (val : K) : K :=
  match kind with
  | "var" => val * (count / (count - 1))
  | "std" => val * R.sqrt (count / (count - 1))
  | _ => val

/-- The element type an input's buffer is viewed at. -/
def viewDtype (input : InputRef) : Except BuildError MlxDtype :=
  match inputDtypeToMlx input.dtype with
  | some d => .ok d
  | none => .error (.unsupportedInputDtype input.dtype)

def debugDtype : MlxDtype → String
  | .f32 => "F32"
  | .f64 => "F64"
  | .i32 => "I32"
  | .bool => "Bool"
  | .i8 => "I8"
  | .i16 => "I16"
  | .i64 => "I64"
  | .u8 => "U8"
  | .u16 => "U16"
  | .u32 => "U32"
  | .u64 => "U64"

/-- The check before the output is written back: the evaluated element type is the declared one. -/
def checkOutput (outDtype : InputDtype) : Except String MlxDtype → Except BuildError Unit
  | .error message => .error (.mlxError message)
  | .ok got =>
    match npDtypeAndTag outDtype with
    | none => .error (.unsupportedInputDtype outDtype)
    | some declared =>
      if got = declared then .ok ()
      else .error (.mlxError ("output dtype mismatch: declared " ++ debugDtype declared ++ ", eval'd " ++
        debugDtype got))

/-- One fused dispatch over a frame: the scalar it returns, corrected by the frame's height. -/
def launchReduction (df : Frame K) (r : ReductionScope) : Except BuildError (Option K) := do
  let dtypes ← r.scope.inputs.mapM viewDtype
  let inputs := List.zipWith (stageOperand S df r.outDtype) r.scope.inputs r.descriptors
  let outs ← evalScope (denseOp S R df.rows.length) inputs r.scope
  let gots ← evalScope S.dtypeOp (dtypes.map .ok) r.scope
  checkOutput r.outDtype (gots.headD (.error ""))
  let val := (outs.headD (.scalar none S.nan)).cell 0
  return some (if r.outDtype = .f32 then bessel R r.aggKind df.rows.length val else val)

/-- `_build_select_reduction_fused` for one reduction. -/
def selectReductionFused (upstream : Frame K) (r : ReductionScope) (dropNulls : Bool) :
    Except BuildError (Option K) :=
  if r.isChain = false then
    let series := upstream.getColumn ((colNames r.descriptors).headD "")
    if upstream.rows.length < 2 ∨ none ∈ series then .ok (polarsReduce R r.aggKind 1 series)
    else launchReduction S R upstream r
  else
    let frame := if dropNulls then upstream.dropNullsSubset (colNames r.descriptors) else upstream
    if frame.rows.length = 0 then .ok (if r.aggKind = "sum" then some 0 else none)
    else if (r.aggKind = "std" ∨ r.aggKind = "var") ∧ frame.rows.length < 2 then .ok none
    else launchReduction S R frame r

end Route

end PolarsMetal.Lowering
