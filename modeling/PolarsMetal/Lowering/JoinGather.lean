import PolarsMetal.Fusion.StagingSpec
import PolarsMetal.Lowering.JoinSpec

/-! The resident gather of a join node. Where one fused column stands above the join and reads right
columns, the walker analyzes it once more with these columns gathered; the UDF then skips the join
over a right key that is `0..n-1` in some order, and goes back to it wherever a guard fails. -/

namespace PolarsMetal.Lowering
open Fusion Window DenseKey Fallible

variable {V : Type}

/-! The walker. -/

/-- A binding of the `with_columns` above the join, all of which are fused. -/
structure FusedBinding (nt : NodeTraverser) (inSchema : Schema) where
  name : String
  expr : IRExpr
  scope : FusionScope
  descriptors : List Descriptor
  outDtype : InputDtype
  analyzed : analyzeIrWithColumns nt inSchema expr = .ok (scope, descriptors, outDtype)

/-- `_gather`, and the names of `_out_schema`. -/
structure Gather where
  scope : FusionScope
  descriptors : List Descriptor
  outDtype : InputDtype
  gatherCols : List String
  outDimCols : List String
  keyCol : String
  outName : String
  outSchema : List String

/-- `_attach_gather_scope`; an exception of the analyzer counts as a refusal. -/
def attachGatherScope (nt : NodeTraverser) (inSchema : Schema) (plan : JoinPlan V)
    (outExprs : List (FusedBinding nt inSchema)) (outSchema : List String) : Option Gather :=
  match outExprs with
  | [binding] =>
    if plan.dimValueCols = [] then none
    else if ∃ c ∈ plan.dimValueCols, inSchema c ≠ some .float32 then none
    else if plan.key ∈ colNames binding.descriptors then none
    else
      let gatherCols := plan.dimValueCols.filter (· ∈ colNames binding.descriptors)
      if gatherCols = [] then none
      else
        match analyzeIrWithColumnsGather nt inSchema binding.expr gatherCols plan.key with
        | .error _ => none
        | .ok (scope, descriptors, outDtype) =>
          some ⟨scope, descriptors, outDtype, gatherCols, plan.dimValueCols, plan.key,
            binding.name, outSchema⟩
  | _ => none

/-! The UDF. -/

inductive GatherError where
  | numpy (e : NumpyError)
  | missing (name : String)
  | duplicate
  | execute
deriving DecidableEq

/-- An array handed to the executor. -/
inductive GatherArray (V : Type) where
  | int32 (cells : List ℤ)
  | float32 (cells : List V)
deriving DecidableEq

/-- What the branch takes from numpy and the device: the integer of a key, a cell as a `float32`
array holds it (a null as a NaN), fresh memory, and a launch over an output of some length, which
tells how many elements it wrote and what the output holds. -/
structure GatherHost (V : Type) where
  toInt : V → ℤ
  toFloat32 : Option V → V
  literal : PyFloat → V
  empty : ℕ → List V
  length_empty : ∀ n, (empty n).length = n
  execute : FusionScope → List (GatherArray V) → ℕ → Option (ℕ × (ℕ → V))

def numpy {α : Type} : Except NumpyError α → Except GatherError α
  | .ok a => .ok a
  | .error e => .error (.numpy e)

/-- `df.get_column(name)` -/
def Frame.column (df : Frame V) (name : String) : Except GatherError (List (Option V)) :=
  if name ∈ df.columns then .ok (df.getColumn name) else .error (.missing name)

/-- `df.with_columns(series)`; the new names must differ. -/
def Frame.withColumns (df : Frame V) (series : List (String × List (Option V))) :
    Except GatherError (Frame V) :=
  if (series.map Prod.fst).Nodup then
    .ok (df.derive (allRows df) (hstackOuts df.columns (series.map (fun s => (s.1, fun _ => s.2)))))
  else .error .duplicate

/-- `df.select(names)`; the names differ, being a schema's. -/
def Frame.select (df : Frame V) (names : List String) : Except GatherError (Frame V) :=
  match names.find? (· ∉ df.columns) with
  | some name => .error (.missing name)
  | none => .ok (df.derive (allRows df) (copies names))

/-- `values[index]` -/
def takeAt (values : List V) (index : List ℤ) : Except NumpyError (List V) :=
  index.mapM (fun k => do
    let slot ← slotOf values.length k
    (values[slot]?).elim (.error (.indexOutOfBounds k values.length)) .ok)

variable (H : GatherHost V)

/-- A key column without nulls as an integer array. -/
def GatherHost.ints (cells : List (Option V)) : List ℤ :=
  cells.filterMap (fun cell => cell.map H.toInt)

/-- The guards: both keys as arrays where all of them hold. -/
def gatherKeys (left right : Frame V) (plan : JoinPlan V) :
    Except GatherError (Option (List ℤ × List ℤ)) := do
  if plan.how ≠ .left ∧ plan.how ≠ .inner then return none
  else if left.rows.length = 0 ∨ right.rows.length = 0 then return none
  else
    let lkeys ← left.column plan.key
    let rkeys ← right.column plan.rightKey
    if lkeys.any Option.isNone ∨ rkeys.any Option.isNone then return none
    else
      let dense ← numpy (isDenseKey (H.ints rkeys) right.rows.length)
      if dense = false then return none
      else if (H.ints lkeys).any (fun k => k < 0 ∨ right.rows.length ≤ k) then return none
      else return some (H.ints lkeys, H.ints rkeys)

/-- A right column in the order of its keys. -/
def dimColumn (right : Frame V) (rkey : List ℤ) (name : String) :
    Except GatherError (String × List V) := do
  let cells ← right.column name
  return (name, ← numpy (reorderByKey (H.empty right.rows.length) rkey (cells.map H.toFloat32)))

def dimValues (reordered : List (String × List V)) (name : String) : Except GatherError (List V) :=
  (reordered.lookup name).elim (.error (.missing name)) .ok

def gatherArray (left : Frame V) (key : List ℤ) (reordered : List (String × List V)) :
    Descriptor → Except GatherError (GatherArray V)
  | .gatherKey _ => .ok (.int32 (key.map (fun k => k.bmod (2 ^ 32))))
  | .gatherValue name => do return .float32 (← dimValues reordered name)
  | .col name => do return .float32 ((← left.column name).map H.toFloat32)
  | .lit x => .ok (.float32 [H.literal x])

def dimSeries (key : List ℤ) (reordered : List (String × List V)) (name : String) :
    Except GatherError (String × List (Option V)) := do
  let values ← dimValues reordered name
  return (name, (← numpy (takeAt values key)).map some)

/-- The branch past its guards. -/
def gatherColumns (left right : Frame V) (g : Gather) (key rkey : List ℤ) :
    Except GatherError (Option (Frame V)) := do
  let reordered ← (g.gatherCols ++ g.outDimCols).dedup.mapM (dimColumn H right rkey)
  let arrays ← g.descriptors.mapM (gatherArray H left key reordered)
  match H.execute g.scope arrays left.rows.length with
  | none => .error .execute
  | some (written, out) =>
    if written ≠ left.rows.length then return none
    else
      let dims ← g.outDimCols.mapM (dimSeries key reordered)
      let outSeries := (List.range left.rows.length).map (fun i => some (out i))
      let result ← left.withColumns (dims ++ [(g.outName, outSeries)])
      return some (← result.select g.outSchema)

def tryResidentGather (left right : Frame V) (plan : JoinPlan V) (g : Gather) :
    Except GatherError (Option (Frame V)) := do
  match ← gatherKeys H left right plan with
  | none => return none
  | some (key, rkey) => gatherColumns H left right g key rkey

/-- `_dispatch_join` with the chain above the join, which gives no frame where it raises. -/
def dispatchJoinChain [DecidableEq V] (J : Joiner) (chain : Frame V → Option (Frame V))
    (plan : JoinPlan V) (gather : Option Gather) : Option (Frame V) :=
  match gather with
  | none => (dispatchJoin J plan).bind chain
  | some g =>
    match tryResidentGather H plan.left.df plan.right.df plan g with
    | .error _ => none
    | .ok (some result) => some result
    | .ok none => (dispatchJoin J plan).bind chain

end PolarsMetal.Lowering
