import PolarsMetal.Fusion.Cells
import PolarsMetal.Fusion.Variants
import PolarsMetal.Lib.Bytes
import PolarsMetal.Lowering.DenseKey

/-! The buffers the dispatchers hand to the executor. Each dispatcher picks a numpy dtype for an
input from the input's descriptor; the executor then reads the bytes at the dtype the scope
declares, whatever they were written as. -/

namespace PolarsMetal.Fusion
open Lowering.DenseKey

/-- The dtype an input's buffer is viewed at; `none` is the builder's unsupported-dtype error. -/
def inputDtypeToMlx : InputDtype → Option MlxDtype
  | .f32 => some .f32
  | .i32 => some .i32
  | .bool => some .bool
  | .i8 => some .i8
  | .i16 => some .i16
  | .i64 => some .i64
  | .u8 => some .u8
  | .u16 => some .u16
  | .u32 => some .u32
  | .u64 => some .u64
  | .f64 | .arrayF32 _ | .listF32 => none

/-- A column's staging width: native for the integers, else the float path. -/
def seriesInputDtype : PolarsDtype → MlxDtype
  | .int8 => .i8
  | .int16 => .i16
  | .int32 => .i32
  | .int64 => .i64
  | .uint8 => .u8
  | .uint16 => .u16
  | .uint32 => .u32
  | .uint64 => .u64
  | _ => .f32

def npDtypeAndTag : InputDtype → Option MlxDtype
  | .f32 => some .f32
  | .i8 => some .i8
  | .i16 => some .i16
  | .i32 => some .i32
  | .i64 => some .i64
  | .u8 => some .u8
  | .u16 => some .u16
  | .u32 => some .u32
  | .u64 => some .u64
  | .f64 | .bool | .arrayF32 _ | .listF32 => none

/-! Arrays. -/

/-- A contiguous array with the tag it is handed over under. -/
structure Staged where
  dtype : MlxDtype
  cells : List dtype.Cell
deriving DecidableEq

def Staged.bytes (a : Staged) : List Bytes.Byte := Bytes.write a.dtype.elementSize a.cells

/-- The array the executor makes of a buffer: the scope's dtype, and the length from it. -/
def viewInput (input : InputRef) (bytes : List Bytes.Byte) : Option Staged :=
  (inputDtypeToMlx input.dtype).map (fun d => ⟨d, Bytes.view d.elementSize bytes⟩)

/-! Columns. -/

/-- The dtypes whose rows are cells. -/
def PolarsDtype.flat : PolarsDtype → Option MlxDtype
  | .float32 => some .f32
  | .float64 => some .f64
  | .boolean => some .bool
  | .int8 => some .i8
  | .int16 => some .i16
  | .int32 => some .i32
  | .int64 => some .i64
  | .uint8 => some .u8
  | .uint16 => some .u16
  | .uint32 => some .u32
  | .uint64 => some .u64
  | .string | .arrayF32 _ | .listF32 | .other _ => none

/-- A column; a row of a dtype without cells is a code that only numpy's conversion reads. -/
inductive Series where
  | flat (dtype : PolarsDtype) (d : MlxDtype) (hflat : dtype.flat = some d)
      (rows : List (Option d.Cell))
  | other (dtype : PolarsDtype) (hother : dtype.flat = none) (rows : List (Option ℕ))

/-- The rows a mask keeps. -/
def keepRows {α : Type} (mask : List Bool) (rows : List α) : List α :=
  (rows.zip mask).filterMap (fun r => if r.2 then some r.1 else none)

theorem length_keepRows {α : Type} {mask : List Bool} {rows : List α}
    (h : rows.length = mask.length) : (keepRows mask rows).length = mask.count true := by
  induction rows generalizing mask with
  | nil =>
    obtain rfl := List.length_eq_zero_iff.1 h.symm
    rfl
  | cons row rows ih =>
    cases mask with
    | nil => cases h
    | cons keep mask =>
      have hlen := ih (Nat.succ.inj h)
      unfold keepRows at hlen ⊢
      cases keep <;> simp [hlen]

namespace Series

def dtype : Series → PolarsDtype
  | flat dtype _ _ _ | other dtype _ _ => dtype

/-- The rows that are not null. -/
def valid : Series → List Bool
  | flat _ _ _ rows => rows.map Option.isSome
  | other _ _ rows => rows.map Option.isSome

def height (s : Series) : ℕ := s.valid.length

def nullCount (s : Series) : ℕ := s.valid.count false

def filter (s : Series) (mask : List Bool) : Series :=
  match s with
  | flat dtype d hflat rows => .flat dtype d hflat (keepRows mask rows)
  | other dtype hother rows => .other dtype hother (keepRows mask rows)

/-- `series.fill_null(0)` -/
def fillNull : Series → Series
  | flat dtype d hflat rows => .flat dtype d hflat (rows.map (fun b => some (b.getD 0)))
  | other dtype hother rows => .other dtype hother rows

instance (d : MlxDtype) (rows : List (Option d.Cell)) : Decidable (none ∈ rows) := inferInstance

/-- `series.to_numpy()` of cells. A null is a NaN, and makes the array one of floats. -/
def toNumpy (d : MlxDtype) (rows : List (Option d.Cell)) : Staged :=
  if none ∉ rows then ⟨d, rows.reduceOption⟩
  else
    match d with
    | .f32 => ⟨.f32, rows.map (fun b => b.getD (.ofNat _ (PyFloat.nan.pattern Ieee.f32)))⟩
    | .f64 => ⟨.f64, rows.map (fun b => b.getD (.ofNat _ (PyFloat.nan.pattern Ieee.f64)))⟩
    | d => ⟨.f64, rows.map (fun b => .ofNat _ ((b.elim .nan d.number).pattern Ieee.f64))⟩

/-- `np.ascontiguousarray(series.to_numpy(), dtype=d)`; `none` where it raises. -/
def asArray (M : Numpy) (s : Series) (d : MlxDtype) : Option (List d.Cell) :=
  match s with
  | flat _ own _ rows => some ((toNumpy own rows).cells.map (M.castCell _ d))
  | other dtype _ rows => M.object dtype rows d

/-- The integers of a column without nulls. -/
def ints : Series → Option (List ℤ)
  | flat _ d _ rows => if d.isInt then rows.mapM (Option.map d.intOf) else none
  | other _ _ _ => none

end Series

/-- A frame's columns have its height. -/
structure Frame where
  height : ℕ
  column : String → Option Series
  aligned : ∀ name s, column name = some s → s.height = height

namespace Frame

/-- The rows in which no column of the list is null. -/
def nullFreeRows (frame : Frame) (cols : List String) : List Bool :=
  (List.range frame.height).map (fun i =>
    cols.all (fun name => ((frame.column name).map (fun s => s.valid.getD i false)).getD true))

/-- `frame.drop_nulls(subset=cols)` -/
def dropNulls (frame : Frame) (cols : List String) : Frame where
  height := (frame.nullFreeRows cols).count true
  column name := (frame.column name).map (·.filter (frame.nullFreeRows cols))
  aligned name s h := by
    obtain ⟨t, ht, rfl⟩ := Option.map_eq_some_iff.1 h
    have hlen := frame.aligned name t ht
    have hmask : (frame.nullFreeRows cols).length = frame.height := by simp [nullFreeRows]
    cases t <;>
      (rw [Series.height, Series.valid, List.length_map] at hlen
       rw [Series.filter, Series.height, Series.valid, List.length_map]
       exact length_keepRows (hlen.trans hmask.symm))

end Frame

/-! The dispatchers. -/

/-- Why nothing is handed to the executor: the analysis stopped, the staging raised, or the result is
computed elsewhere. -/
inductive NoLaunch where
  | analysis (s : Stop)
  | raised
  | elsewhere
deriving DecidableEq, Repr

def raising {α : Type} : Option α → Except NoLaunch α
  | some a => .ok a
  | none => .error .raised

def Frame.getColumn (frame : Frame) (name : String) : Except NoLaunch Series :=
  raising (frame.column name)

/-- A column at its native width. -/
def nativeArray (M : Numpy) (s : Series) : Except NoLaunch Staged :=
  raising ((s.asArray M (seriesInputDtype s.dtype)).map (Staged.mk _))

def floatArray (M : Numpy) (s : Series) : Except NoLaunch Staged :=
  raising ((s.asArray M .f32).map (Staged.mk _))

def scalarArray (d : MlxDtype) (x : PyFloat) : Except NoLaunch Staged :=
  raising ((npScalar d x).map (fun c => ⟨d, [c]⟩))

/-- Columns at their native width, an integer's nulls filled; literals at the output's. -/
def hstackInput (M : Numpy) (upstream : Frame) (litDtype : MlxDtype) :
    Descriptor → Except NoLaunch Staged
  | .col name => do
    let s ← upstream.getColumn name
    nativeArray M (if s.nullCount ≠ 0 ∧ (seriesInputDtype s.dtype).isInt then s.fillNull else s)
  | .lit x => scalarArray litDtype x
  | .gatherKey _ | .gatherValue _ => .error .raised

def hstackFusedInputs (M : Numpy) (upstream : Frame) (outDtype : InputDtype)
    (descriptors : List Descriptor) : Except NoLaunch (List Staged) := do
  let litDtype ← raising (npDtypeAndTag outDtype)
  if upstream.height = 0 then throw .elsewhere
  descriptors.mapM (hstackInput M upstream litDtype)

/-- A join node with what the walker stashed on it. -/
structure GatherPlan where
  key : String
  rightKey : String
  gatherCols : List String
  outDimCols : List String

def ofNumpy {α : Type} : Except NumpyError α → Except NoLaunch α
  | .ok a => .ok a
  | .error _ => .error .raised

/-- A dim column in the order of its keys. -/
def reorderedColumn (M : Numpy) (right : Frame) (rkeys : List ℤ) (name : String) :
    Except NoLaunch (String × List (BitVec 32)) := do
  let values ← raising ((← right.getColumn name).asArray M .f32)
  return (name, ← ofNumpy (reorderByKey (M.empty right.height).1 rkeys values))

def gatherInput (M : Numpy) (left : Frame) (key : Series)
    (reordered : List (String × List (BitVec 32))) : Descriptor → Except NoLaunch Staged
  | .gatherKey _ => raising ((key.asArray M .i32).map (Staged.mk _))
  | .gatherValue name => raising ((reordered.lookup name).map (Staged.mk .f32))
  | .col name => do floatArray M (← left.getColumn name)
  | .lit x => scalarArray .f32 x

/-- The resident gather, past the check of the join type: the walker lowers no other joins than the
two it asks for. -/
def residentGatherInputs (M : Numpy) (left right : Frame) (plan : GatherPlan)
    (descriptors : List Descriptor) : Except NoLaunch (List Staged) := do
  if left.height = 0 ∨ right.height = 0 then throw .elsewhere
  let key ← left.getColumn plan.key
  let rkey ← right.getColumn plan.rightKey
  match key.ints, rkey.ints with
  | some keys, some rkeys =>
    if !(← ofNumpy (isDenseKey rkeys right.height)) then throw .elsewhere
    if keys.any (fun k => k < 0 ∨ right.height ≤ k) then throw .elsewhere
    let reordered ← (plan.gatherCols ++ plan.outDimCols).dedup.mapM (reorderedColumn M right rkeys)
    descriptors.mapM (gatherInput M left key reordered)
  | _, _ => throw .elsewhere

def validityInput (M : Numpy) (upstream : Frame) : ValidityDescriptor → Except NoLaunch Staged
  | .valid name => do
    let isValid := (← upstream.getColumn name).valid
    return ⟨.f32, isValid.map (fun v => M.castCell .bool .f32 (if v then 1 else 0))⟩
  | .value (.col name) => do floatArray M (← upstream.getColumn name)
  | .value (.lit x) => scalarArray .f32 x
  | .value (.gatherKey _) | .value (.gatherValue _) => .error .raised

/-- The validity inputs of a binding whose own launch is over. -/
def nullMaskInputs (M : Numpy) (upstream : Frame) (descriptors : List ValidityDescriptor) :
    Except NoLaunch (List Staged) := do
  if upstream.height = 0 then throw .elsewhere
  descriptors.mapM (validityInput M upstream)

def reductionInput (M : Numpy) (frame : Frame) (outTag : MlxDtype) :
    Descriptor → Except NoLaunch Staged
  | .col name => do nativeArray M (← frame.getColumn name)
  | .lit x => scalarArray outTag x
  | .gatherKey _ | .gatherValue _ => .error .raised

/-- The rows a chain is reduced over. -/
def reductionFrame (upstream : Frame) (dropNulls : Bool) (r : ReductionScope) : Frame :=
  if r.isChain ∧ dropNulls then upstream.dropNulls (colNames r.descriptors) else upstream

def selectReductionInputs (M : Numpy) (upstream : Frame) (dropNulls : Bool) (r : ReductionScope) :
    Except NoLaunch (List Staged) := do
  let outTag ← raising (npDtypeAndTag r.outDtype)
  if r.isChain = false then
    match r.descriptors with
    | .col name :: _ =>
      let series ← upstream.getColumn name
      if upstream.height < 2 ∨ 0 < series.nullCount then throw .elsewhere
      return [← nativeArray M series]
    | _ => throw .raised
  else
    let frame := reductionFrame upstream dropNulls r
    if frame.height = 0 then throw .elsewhere
    if (r.aggKind = "std" ∨ r.aggKind = "var") ∧ frame.height < 2 then throw .elsewhere
    r.descriptors.mapM (reductionInput M frame outTag)

/-- The four ways an analyzed scope is dispatched. -/
inductive FusedDispatch where
  | hstack (e : IRExpr)
  | residentGather (e : IRExpr) (plan : GatherPlan) (right : Frame)
  | nullMask (e : IRExpr) (structuralOnly : Bool)
  | selectReduction (e : IRExpr) (dropNulls : Bool)

/-- A scope with the buffers handed over for its inputs, each beside its descriptor. -/
structure Launch where
  scope : FusionScope
  inputs : List (ValidityDescriptor × Staged)
deriving DecidableEq

def analyzed {α : Type} : Except Stop α → Except NoLaunch α
  | .ok a => .ok a
  | .error s => .error (.analysis s)

def FusedDispatch.launch (M : Numpy) (nt : NodeTraverser) (schema : Schema) (upstream : Frame) :
    FusedDispatch → Except NoLaunch Launch
  | .hstack e => do
    let (scope, descriptors, outDtype) ← analyzed (analyzeIrWithColumns nt schema e)
    let bufs ← hstackFusedInputs M upstream outDtype descriptors
    return ⟨scope, (descriptors.map .value).zip bufs⟩
  | .residentGather e plan right => do
    let (scope, descriptors, _) ←
      analyzed (analyzeIrWithColumnsGather nt schema e plan.gatherCols plan.key)
    let bufs ← residentGatherInputs M upstream right plan descriptors
    return ⟨scope, (descriptors.map .value).zip bufs⟩
  | .nullMask e structuralOnly => do
    let (scope, descriptors) ← analyzed (analyzeIrValidity nt schema e structuralOnly)
    let bufs ← nullMaskInputs M upstream descriptors
    return ⟨scope, descriptors.zip bufs⟩
  | .selectReduction e dropNulls => do
    let r ← analyzed (analyzeIrReduction nt schema e)
    let bufs ← selectReductionInputs M upstream dropNulls r
    return ⟨r.scope, (r.descriptors.map .value).zip bufs⟩

end PolarsMetal.Fusion
