import PolarsMetal.Fusion.Analyzer

/-! The analyzer's other entry points: a chain over gathered columns, the null mask of an
expression, and a reduction of one. All three add their inputs first and push ops after. -/

namespace PolarsMetal.Fusion

/-! Resident gather. -/

def analyzeIrWithColumnsGather (nt : NodeTraverser) (schema : Schema) (e : IRExpr)
    (gatherCols : List String) (keyCol : String) :
    Except Stop (FusionScope × List Descriptor × InputDtype) := do
  let cx : Context := ⟨nt, schema, .f32, some ⟨gatherCols, keyCol⟩⟩
  let st ← gatherLeaves cx e .empty
  if st.valueIdx.isEmpty then throw .aborted
  let (scope, idx) ← visitIrOps cx st e st.scope
  return (scope.markOutput idx, st.descriptors, .f32)

/-! Null masks. -/

/-- A validity scope's inputs: is-valid columns beside the values its conditions read. -/
inductive ValidityDescriptor where
  | valid (name : String)
  | value (d : Descriptor)
deriving DecidableEq

structure ValidLeaves where
  scope : FusionScope
  validIdx : List (String × ℕ)
  names : List String

def ValidLeaves.add (st : ValidLeaves) (name : String) : ValidLeaves :=
  match st.validIdx.lookup name with
  | some _ => st
  | none =>
    let (scope, idx) := st.scope.addInput ("__valid_" ++ name) .f32
    ⟨scope, (name, idx) :: st.validIdx, st.names ++ [name]⟩

mutual

def gatherValidLeaves (nt : NodeTraverser) : IRExpr → ValidLeaves → Except Stop ValidLeaves
  | .leaf id, st =>
    match nt id with
    | .column name => .ok (st.add name)
    | .literal _ => .ok st
  | .binary _ left right, st => do
    let st ← gatherValidLeaves nt left st
    gatherValidLeaves nt right st
  | .cast _ e, st => gatherValidLeaves nt e st
  | .function .shift input, st => gatherValidFirst nt input st
  | .function _ input, st => gatherValidAll nt input st
  | .ternary p t f, st => do
    let st ← gatherValidLeaves nt p st
    let st ← gatherValidLeaves nt t st
    gatherValidLeaves nt f st
  | .agg _ _, _ | .hidden, _ => .error .aborted

def gatherValidFirst (nt : NodeTraverser) : List IRExpr → ValidLeaves → Except Stop ValidLeaves
  | [], _ => .error .raised
  | e :: _, st => gatherValidLeaves nt e st

def gatherValidAll (nt : NodeTraverser) : List IRExpr → ValidLeaves → Except Stop ValidLeaves
  | [], st => .ok st
  | e :: es, st => do
    let st ← gatherValidLeaves nt e st
    gatherValidAll nt es st

end

mutual

/-- The inputs that recompute the conditions; leaves outside them add none. -/
def gatherCondValueLeaves (cx : Context) : IRExpr → Leaves → Except Stop Leaves
  | .leaf _, st => .ok st
  | .binary _ left right, st => do
    let st ← gatherCondValueLeaves cx left st
    gatherCondValueLeaves cx right st
  | .cast _ e, st => gatherCondValueLeaves cx e st
  | .function .shift input, st => gatherCondValueFirst cx input st
  | .function _ input, st => gatherCondValueAll cx input st
  | .ternary p t f, st => do
    let st ← gatherLeaves cx p st
    let st ← gatherCondValueLeaves cx t st
    gatherCondValueLeaves cx f st
  | .agg _ _, _ | .hidden, _ => .error .aborted

def gatherCondValueFirst (cx : Context) : List IRExpr → Leaves → Except Stop Leaves
  | [], _ => .error .raised
  | e :: _, st => gatherCondValueLeaves cx e st

def gatherCondValueAll (cx : Context) : List IRExpr → Leaves → Except Stop Leaves
  | [], st => .ok st
  | e :: es, st => do
    let st ← gatherCondValueLeaves cx e st
    gatherCondValueAll cx es st

end

/-- The product of validities; the constant one drops out. -/
def validityAnd (scope : FusionScope) (idxs : List ℕ) (oneIdx : ℕ) :
    Except Stop (FusionScope × ℕ) :=
  match idxs.filter (· ≠ oneIdx) with
  | [] => .ok (scope, oneIdx)
  | acc :: rest =>
    rest.foldlM (fun (scope, acc) nxt => pushOp scope .mul [acc, nxt] none) (scope, acc)

def isCumulative : IRFunction → Bool
  | .cumulative _ _ => true
  | _ => false

/-- The tables of the two gathering passes. -/
structure ValidityTables where
  valid : ValidLeaves
  values : Leaves
  oneIdx : ℕ
  structuralOnly : Bool

mutual

def visitValidity (cx : Context) (t : ValidityTables) :
    IRExpr → FusionScope → Except Stop (FusionScope × ℕ)
  | .leaf id, scope =>
    match cx.nt id with
    | .column name =>
      match t.valid.validIdx.lookup name with
      | some idx => .ok (scope, idx)
      | none => .error .raised
    | .literal _ => .ok (scope, t.oneIdx)
  | .binary op left right, scope =>
    match binopMap op with
    | none | some .logicalAnd | some .logicalOr => .error .aborted
    | some _ => do
      let (scope, l) ← visitValidity cx t left scope
      let (scope, r) ← visitValidity cx t right scope
      validityAnd scope [l, r] t.oneIdx
  | .cast dtype e, scope =>
    if dtype ≠ .float32 then .error .aborted else visitValidity cx t e scope
  | .function .shift input, scope => do
    let w ← shiftOffset cx.nt input
    let (scope, child) ← visitValidityFirst cx t input scope
    pushOp scope .shift [child] (some w)
  | .function data input, scope =>
    if isReverseCumulative data then .error .aborted
    -- a scan passes validity on only where no input is null
    else if isCumulative data ∧ t.structuralOnly = false then .error .aborted
    else if data ≠ .log ∧ data ≠ .pow ∧ irFunctionMap data = none then .error .aborted
    else do
      let (scope, children) ← visitValidityAll cx t input scope
      validityAnd scope children t.oneIdx
  | .ternary predicate truthy falsy, scope => do
    let (scope, cond) ← visitIrOps cx t.values predicate scope
    let (scope, thenV) ← visitValidity cx t truthy scope
    let (scope, elseV) ← visitValidity cx t falsy scope
    pushOp scope .where [cond, thenV, elseV] none
  | .agg _ _, _ | .hidden, _ => .error .aborted

def visitValidityFirst (cx : Context) (t : ValidityTables) :
    List IRExpr → FusionScope → Except Stop (FusionScope × ℕ)
  | [], _ => .error .raised
  | e :: _, scope => visitValidity cx t e scope

def visitValidityAll (cx : Context) (t : ValidityTables) :
    List IRExpr → FusionScope → Except Stop (FusionScope × List ℕ)
  | [], scope => .ok (scope, [])
  | e :: es, scope => do
    let (scope, idx) ← visitValidity cx t e scope
    let (scope, idxs) ← visitValidityAll cx t es scope
    return (scope, idx :: idxs)

end

/-- The conditions are analyzed as a float chain: their literals are declared F32. -/
def validityContext (nt : NodeTraverser) (schema : Schema) : Context := ⟨nt, schema, .f32, none⟩

def analyzeIrValidity (nt : NodeTraverser) (schema : Schema) (e : IRExpr) (structuralOnly : Bool) :
    Except Stop (FusionScope × List ValidityDescriptor) := do
  let cx := validityContext nt schema
  let (scope, oneIdx) := FusionScope.new.addInput "__lit_1.0" .f32
  let valid ← gatherValidLeaves nt e ⟨scope, [], []⟩
  let values ← gatherCondValueLeaves cx e
    { Leaves.empty with scope := valid.scope, litDedup := [(.finite 1, oneIdx)] }
  let (scope, idx) ← visitValidity cx ⟨valid, values, oneIdx, structuralOnly⟩ e values.scope
  return (scope.markOutput idx, .value (.lit (.finite 1)) ::
    (valid.names.map .valid ++ values.descriptors.map .value))

/-! Reductions. -/

def reductionOp : String → Option OpId
  | "sum" => some .sum
  | "mean" => some .mean
  | "min" => some .min
  | "max" => some .max
  | "std" => some .std
  | "var" => some .var
  | _ => none

def sumAdmit : PolarsDtype → Option InputDtype
  | .int32 => some .i32
  | .int64 => some .i64
  | .uint32 => some .u32
  | .uint64 => some .u64
  | _ => none

def minmaxAdmit : PolarsDtype → Option InputDtype
  | .int8 => some .i8
  | .int16 => some .i16
  | .int32 => some .i32
  | .int64 => some .i64
  | .uint8 => some .u8
  | .uint16 => some .u16
  | .uint32 => some .u32
  | .uint64 => some .u64
  | _ => none

/-- The integer reductions whose native result dtype is the one Polars gives. -/
def intReductionOutDtype (aggKind : String) (colDtype : PolarsDtype) : Option InputDtype :=
  if aggKind = "sum" then sumAdmit colDtype
  else if aggKind = "min" ∨ aggKind = "max" then minmaxAdmit colDtype
  else none

def reductionOutDtype (aggKind : String) (colDtype : PolarsDtype) : Option InputDtype :=
  if colDtype = .float32 then some .f32 else intReductionOutDtype aggKind colDtype

def colNames (descriptors : List Descriptor) : List String :=
  descriptors.filterMap (fun d =>
    match d with
    | .col name => some name
    | _ => none)

structure ReductionScope where
  scope : FusionScope
  descriptors : List Descriptor
  aggKind : String
  isChain : Bool
  outDtype : InputDtype
deriving DecidableEq

/-- The terminus of an admitted argument: one column dtype, and its reduction admitted. -/
def pushReduction (schema : Schema) (aggKind : String) (opId : OpId) (descriptors : List Descriptor)
    (scope : FusionScope) (innerIdx : ℕ) : Except Stop ReductionScope :=
  let isChain := !scope.ops.isEmpty
  match ((colNames descriptors).map schema).dedup with
  | [some colDtype] =>
    match reductionOutDtype aggKind colDtype with
    | none => .error .aborted
    | some out =>
      if isChain = false ∧ ¬(descriptors.length = 1 ∧ (colNames descriptors).length = 1) then
        .error .aborted
      else do
        let (scope, redIdx) ← pushOp scope opId [innerIdx] none
        return ⟨scope.markOutput redIdx, descriptors, aggKind, isChain, out⟩
  | _ => .error .aborted

def analyzeIrReduction (nt : NodeTraverser) (schema : Schema) :
    IRExpr → Except Stop ReductionScope
  | .agg name [arg] =>
    match reductionOp name.toLower with
    | none => .error .aborted
    | some opId => do
      let cx : Context := ⟨nt, schema, outDtype nt schema arg, none⟩
      let st ← gatherLeaves cx arg .empty
      let (scope, innerIdx) ← visitIrOps cx st arg st.scope
      pushReduction schema name.toLower opId st.descriptors scope innerIdx
  | _ => .error .aborted

end PolarsMetal.Fusion
