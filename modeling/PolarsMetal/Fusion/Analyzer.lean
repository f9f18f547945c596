import PolarsMetal.Fusion.Expr

/-! The analyzer: a first pass adds an input for every distinct column and
literal of the tree, a second pass pushes one op per interior node. A leaf's
input index is handed from the first pass to the second under its arena id. With
a gather context, the leaves of the gathered columns become `take` ops over a
shared key input. -/

namespace PolarsMetal.Fusion

/-- Why an analysis stops: the analyzer's own abort (its callers return `None`), or another
exception, which reaches the caller. -/
inductive Stop where
  | aborted
  | raised
deriving DecidableEq, Repr

def dtypeToInputStr : PolarsDtype → Except Stop InputDtype
  | .float32 => .ok .f32
  | .float64 => .ok .f64
  | .boolean => .ok .bool
  | .int8 => .ok .i8
  | .int16 => .ok .i16
  | .int32 => .ok .i32
  | .int64 => .ok .i64
  | .uint8 => .ok .u8
  | .uint16 => .ok .u16
  | .uint32 => .ok .u32
  | .uint64 => .ok .u64
  | .arrayF32 d => .ok (.arrayF32 d)
  | .listF32 => .ok .listF32
  | .string | .other _ => .error .aborted

def binopMap : Operator → Option OpId
  | .plus => some .add
  | .minus => some .sub
  | .multiply => some .mul
  | .divide | .trueDivide => some .div
  | .modulus => some .mod
  | .eq => some .eq
  | .notEq => some .ne
  | .lt => some .lt
  | .ltEq => some .le
  | .gt => some .gt
  | .gtEq => some .ge
  | .and => some .logicalAnd
  | .or => some .logicalOr
  | .eqValidity | .notEqValidity | .floorDivide | .xor | .logicalAnd | .logicalOr => none

def plainMap : PlainFunction → OpId
  | .sin => .sin
  | .cos => .cos
  | .tan => .tan
  | .sinh => .sinh
  | .cosh => .cosh
  | .tanh => .tanh
  | .arcsin => .asin
  | .arccos => .acos
  | .arctan => .atan
  | .arctan2 => .atan2
  | .exp => .exp
  | .sqrt => .sqrt
  | .cbrt => .cbrt
  | .abs => .abs
  | .negate => .neg
  | .floor => .floor
  | .ceil => .ceil

def cumulativeMap : Cumulative → OpId
  | .cumSum => .cumSum
  | .cumProd => .cumProd
  | .cumMax => .cumMax
  | .cumMin => .cumMin

/-- The functions whose every input is a value input: all admitted ones but `shift`. -/
def irFunctionMap : IRFunction → Option OpId
  | .plain f => some (plainMap f)
  | .round _ _ => some .round
  | .cumulative c _ => some (cumulativeMap c)
  | .pow | .log | .shift | .other _ => none

def aggMap : String → Option OpId
  | "Sum" => some .sum
  | "Mean" => some .mean
  | "Min" => some .min
  | "Max" => some .max
  | "Std" => some .std
  | "Var" => some .var
  | "ArgMin" => some .argMin
  | "ArgMax" => some .argMax
  | _ => none

def isReverseCumulative : IRFunction → Bool
  | .cumulative _ reverse => reverse
  | _ => false

/-- A forward shift's offset: a literal non-negative integer, not a bool. -/
def shiftOffset (nt : NodeTraverser) : List IRExpr → Except Stop ℕ
  | [_, .leaf id] =>
    match nt id with
    | .literal (.int w) => if w < 0 then .error .aborted else .ok w.toNat
    | _ => .error .aborted
  | _ => .error .aborted

/-- `2.718281828459045` and `1e-9`, exactly. -/
def eulerConst : ℚ := 6121026514868073 / 2 ^ 51
def logBaseTolerance : ℚ := 4835703278458517 / 2 ^ 82

def logOpOf (base : LitValue) : Except Stop OpId :=
  match base with
  | .none => .error .aborted
  | .object _ _ => .error .raised
  | base =>
    match base.toFloat with
    | none => .error .raised
    | some x =>
      -- the float difference is exact wherever it can be below the tolerance
      let near := match x with
        | .finite b => decide (|b - eulerConst| < logBaseTolerance)
        | _ => false
      if near then .ok .log
      else if base.exact = some (.finite 2) then .ok .log2
      else if base.exact = some (.finite 10) then .ok .log10
      else .error .aborted

def logOp (nt : NodeTraverser) : List IRExpr → Except Stop OpId
  | [_, .leaf id] =>
    match nt id with
    | .literal base => logOpOf base
    | .column _ => .error .aborted
  | _ => .error .aborted

/-! The first pass. -/

/-- What an input slot is bound to at execution. -/
inductive Descriptor where
  | col (name : String)
  | lit (value : PyFloat)
  | gatherKey (keyCol : String)
  | gatherValue (name : String)
deriving DecidableEq

structure GatherCtx where
  gatherCols : List String
  keyCol : String
deriving DecidableEq

/-- Dictionaries are association lists, newest entry first. -/
structure Leaves where
  scope : FusionScope
  descriptors : List Descriptor
  leafIdx : List (ℕ × ℕ)
  colDedup : List (String × ℕ)
  litDedup : List (PyFloat × ℕ)
  keyIdx : Option ℕ
  valueIdx : List (String × ℕ)

namespace Leaves

def empty : Leaves := ⟨.new, [], [], [], [], none, []⟩

def lookupLit (st : Leaves) (x : PyFloat) : Option ℕ :=
  (st.litDedup.find? (fun entry => entry.1.pyEq x)).map Prod.snd

def addDescriptor (st : Leaves) (name : String) (dtype : InputDtype) (d : Descriptor) :
    Leaves × ℕ :=
  let (scope, idx) := st.scope.addInput name dtype
  ({ st with scope := scope, descriptors := st.descriptors ++ [d] }, idx)

end Leaves

structure Context where
  nt : NodeTraverser
  schema : Schema
  litDtype : InputDtype
  gather : Option GatherCtx

def gatherKeyInput (cx : Context) (g : GatherCtx) (st : Leaves) : Except Stop Leaves :=
  match st.keyIdx with
  | some _ => .ok st
  | none =>
    match cx.schema g.keyCol with
    | none => .error .aborted
    | some _ =>
      let (st, ki) := st.addDescriptor g.keyCol .i32 (.gatherKey g.keyCol)
      .ok { st with keyIdx := some ki }

def gatherValueInput (name : String) (st : Leaves) : Leaves :=
  match st.valueIdx.lookup name with
  | some _ => st
  | none =>
    let (st, vi) := st.addDescriptor name .f32 (.gatherValue name)
    { st with valueIdx := (name, vi) :: st.valueIdx }

/-- A reference to a gathered column: the key input once, a value input per column. -/
def gatherDimValue (cx : Context) (g : GatherCtx) (name : String) (st : Leaves) :
    Except Stop Leaves := do
  let st ← gatherKeyInput cx g st
  return gatherValueInput name st

def isGathered (cx : Context) (name : String) : Option GatherCtx :=
  cx.gather.filter (fun g => name ∈ g.gatherCols)

def gatherColumn (cx : Context) (id : ℕ) (name : String) (st : Leaves) : Except Stop Leaves :=
  match isGathered cx name with
  | some g => gatherDimValue cx g name st
  | none =>
    match cx.schema name with
    | none => .error .aborted
    | some dtype =>
      match st.colDedup.lookup name with
      | some idx => .ok { st with leafIdx := (id, idx) :: st.leafIdx }
      | none => do
        let input ← dtypeToInputStr dtype
        let (st, idx) := st.addDescriptor name input (.col name)
        return { st with colDedup := (name, idx) :: st.colDedup, leafIdx := (id, idx) :: st.leafIdx }

def gatherLiteral (cx : Context) (id : ℕ) (v : LitValue) (st : Leaves) : Except Stop Leaves :=
  if v = .none then .error .aborted
  else match v.toFloat with
    | none => .error .raised
    | some x =>
      match st.lookupLit x with
      | some idx => .ok { st with leafIdx := (id, idx) :: st.leafIdx }
      | none =>
        let (st, idx) := st.addDescriptor ("__lit_" ++ x.repr) cx.litDtype (.lit x)
        .ok { st with litDedup := (x, idx) :: st.litDedup, leafIdx := (id, idx) :: st.leafIdx }

def gatherLeaf (cx : Context) (id : ℕ) (st : Leaves) : Except Stop Leaves :=
  match cx.nt id with
  | .column name => gatherColumn cx id name st
  | .literal v => gatherLiteral cx id v st

mutual

def gatherLeaves (cx : Context) : IRExpr → Leaves → Except Stop Leaves
  | .leaf id, st => gatherLeaf cx id st
  | .binary _ left right, st => do
    let st ← gatherLeaves cx left st
    gatherLeaves cx right st
  | .cast dtype e, st => if dtype ≠ .float32 then .error .aborted else gatherLeaves cx e st
  | .function .shift input, st => do
    let _ ← shiftOffset cx.nt input
    gatherFirst cx input st
  | .function data input, st =>
    if data ≠ .log ∧ data ≠ .pow ∧ irFunctionMap data = none then .error .aborted
    else if isReverseCumulative data then .error .aborted
    else gatherAll cx input st
  | .agg name arguments, st =>
    if aggMap name = none then .error .aborted else gatherFirst cx arguments st
  | .ternary predicate truthy falsy, st => do
    let st ← gatherLeaves cx predicate st
    let st ← gatherLeaves cx truthy st
    gatherLeaves cx falsy st
  | .hidden, _ => .error .aborted

def gatherFirst (cx : Context) : List IRExpr → Leaves → Except Stop Leaves
  | [], _ => .error .aborted
  | e :: _, st => gatherLeaves cx e st

def gatherAll (cx : Context) : List IRExpr → Leaves → Except Stop Leaves
  | [], st => .ok st
  | e :: es, st => do
    let st ← gatherLeaves cx e st
    gatherAll cx es st

end

/-! The second pass. -/

/-- The scope's `push_op`: it checks the argument count and that the parameter fits an `i64`. -/
def pushOp (scope : FusionScope) (op : OpId) (args : List ℕ) (param : Option ℤ) :
    Except Stop (FusionScope × ℕ) :=
  if (param.getD 0).natAbs ≥ 2 ^ 63 then .error .raised
  else if args.length ≠ op.nArgs then .error .raised
  else .ok (scope.pushOpParam op args param)

def visitLeaf (cx : Context) (st : Leaves) (id : ℕ) (scope : FusionScope) :
    Except Stop (FusionScope × ℕ) :=
  let plain := match st.leafIdx.lookup id with
    | some idx => .ok (scope, idx)
    | none => .error .raised
  match cx.nt id with
  | .column name =>
    match isGathered cx name with
    | some _ =>
      match st.valueIdx.lookup name, st.keyIdx with
      | some vi, some ki => pushOp scope .take [vi, ki] none
      | _, _ => .error .raised
    | none => plain
  | .literal _ => plain

mutual

def visitIrOps (cx : Context) (st : Leaves) : IRExpr → FusionScope → Except Stop (FusionScope × ℕ)
  | .leaf id, scope => visitLeaf cx st id scope
  | .binary op left right, scope =>
    match binopMap op with
    | none => .error .aborted
    | some opId => do
      let (scope, l) ← visitIrOps cx st left scope
      let (scope, r) ← visitIrOps cx st right scope
      pushOp scope opId [l, r] none
  | .cast dtype e, scope =>
    if dtype ≠ .float32 then .error .aborted
    else do
      let (scope, child) ← visitIrOps cx st e scope
      pushOp scope .castF32 [child] none
  | .function .shift input, scope => do
    let w ← shiftOffset cx.nt input
    let (scope, child) ← visitFirst cx st input scope
    pushOp scope .shift [child] (some w)
  | .function .log input, scope => do
    let opId ← logOp cx.nt input
    let (scope, child) ← visitFirst cx st input scope
    pushOp scope opId [child] none
  | .function .pow input, scope =>
    if input.length ≠ 2 then .error .aborted
    else do
      let (scope, children) ← visitAll cx st input scope
      pushOp scope .pow children none
  | .function data input, scope =>
    if isReverseCumulative data then .error .aborted
    else match irFunctionMap data with
      | none => .error .aborted
      | some opId => do
        let (scope, children) ← visitAll cx st input scope
        pushOp scope opId children none
  | .agg name arguments, scope =>
    match aggMap name with
    | none => .error .aborted
    | some opId => do
      let (scope, child) ← visitFirst cx st arguments scope
      pushOp scope opId [child] none
  | .ternary predicate truthy falsy, scope => do
    let (scope, cond) ← visitIrOps cx st predicate scope
    let (scope, thenV) ← visitIrOps cx st truthy scope
    let (scope, elseV) ← visitIrOps cx st falsy scope
    pushOp scope .where [cond, thenV, elseV] none
  | .hidden, _ => .error .aborted

def visitFirst (cx : Context) (st : Leaves) : List IRExpr → FusionScope →
    Except Stop (FusionScope × ℕ)
  | [], _ => .error .aborted
  | e :: _, scope => visitIrOps cx st e scope

def visitAll (cx : Context) (st : Leaves) : List IRExpr → FusionScope →
    Except Stop (FusionScope × List ℕ)
  | [], scope => .ok (scope, [])
  | e :: es, scope => do
    let (scope, idx) ← visitIrOps cx st e scope
    let (scope, idxs) ← visitAll cx st es scope
    return (scope, idx :: idxs)

end

/-! The output dtype. -/

mutual

/-- The column dtypes of a tree; `none` at a node the scan does not recognise. -/
def scanDtypes (nt : NodeTraverser) (schema : Schema) : IRExpr → Option (List InputDtype)
  | .leaf id =>
    match nt id with
    | .column name =>
      match schema name with
      | none => none
      | some dtype =>
        match dtypeToInputStr dtype with
        | .ok d => some [d]
        | .error _ => none
    | .literal _ => some []
  | .binary _ left right => do return (← scanDtypes nt schema left) ++ (← scanDtypes nt schema right)
  | .cast _ _ => none
  | .function _ input => scanAll nt schema input
  | .agg _ arguments => if arguments.isEmpty then none else scanAll nt schema arguments
  | .ternary p t f => do
    return (← scanDtypes nt schema p) ++ (← scanDtypes nt schema t) ++ (← scanDtypes nt schema f)
  | .hidden => none

def scanAll (nt : NodeTraverser) (schema : Schema) : List IRExpr → Option (List InputDtype)
  | [] => some []
  | e :: es => do return (← scanDtypes nt schema e) ++ (← scanAll nt schema es)

end

def scanBindingColDtype (nt : NodeTraverser) (schema : Schema) (e : IRExpr) : Option InputDtype :=
  match (scanDtypes nt schema e).map List.dedup with
  | some [d] => some d
  | _ => none

def monomorphicOutDtypes : List InputDtype := [.i8, .i16, .i32, .i64, .u8, .u16, .u32, .u64]

def outDtype (nt : NodeTraverser) (schema : Schema) (e : IRExpr) : InputDtype :=
  match scanBindingColDtype nt schema e with
  | some d => if d ∈ monomorphicOutDtypes then d else .f32
  | none => .f32

/-! The entry points. -/

def analyzeWith (cx : Context) (e : IRExpr) : Except Stop (FusionScope × List Descriptor) := do
  let st ← gatherLeaves cx e .empty
  let (scope, idx) ← visitIrOps cx st e st.scope
  return (scope.markOutput idx, st.descriptors)

def analyzeIrWithColumns (nt : NodeTraverser) (schema : Schema) (e : IRExpr) :
    Except Stop (FusionScope × List Descriptor × InputDtype) := do
  let dtype := outDtype nt schema e
  let (scope, descriptors) ← analyzeWith ⟨nt, schema, dtype, none⟩ e
  return (scope, descriptors, dtype)

end PolarsMetal.Fusion
