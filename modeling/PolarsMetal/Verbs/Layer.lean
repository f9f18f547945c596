import PolarsMetal.Lib.Fallible

/-! Collecting one `with_columns` layer that holds verbs. The wrapper asks each verb's detector for
its bindings, hands those of the first verb that has any to its dispatcher, and collects the rest of
the layer on the CPU; the dispatcher stitches its kernel outputs onto what came back. -/

namespace PolarsMetal.Verbs

/-- A collected frame: named columns. -/
abbrev Table (C : Type) := List (String × C)

inductive Verb where
  | rolling | vector | fft | dtw | dt
deriving DecidableEq, Repr

/-- The verbs without a CPU implementation: their expression holds a guard that raises. -/
def Verb.sentinel : Verb → Bool
  | .vector | .fft | .dtw => true
  | .rolling | .dt => false

/-- `_STITCH_VERBS`. -/
def stitchVerbs : List Verb := [.rolling, .vector, .fft, .dtw, .dt]

/-- A detected binding; `spec` is what else the verb needs (window, field, handle). -/
structure Binding (S : Type) where
  spec : S
  column : String
  outName : String
deriving DecidableEq

inductive CollectError where
  | guard (v : Verb)
  | columnNotFound (name : String)
  | kernel (v : Verb)
deriving DecidableEq

/-- What Polars and the kernels compute: dtypes, Polars' value of a verb that has one, the kernel's
value of any verb, and the detectors' check of a native verb's source dtype. -/
structure Engine (C D S : Type) where
  dtypeOf : C → D
  outDtype : Verb → S → D
  accepts : Verb → S → D → Bool
  polars : Verb → S → C → C
  kernel : Verb → S → C → Except CollectError C

/-- An expression of the layer, under its output name. -/
inductive LayerExpr (C D S : Type) where
  | ordinary (outName : String) (dtype : D) (value : Table C → C)
  | verb (v : Verb) (b : Binding S)

variable {C D S : Type}

namespace LayerExpr

def outName : LayerExpr C D S → String
  | .ordinary name _ _ => name
  | .verb _ b => b.outName

def dtype (E : Engine C D S) : LayerExpr C D S → D
  | .ordinary _ d _ => d
  | .verb v b => E.outDtype v b.spec

/-- The expression on the CPU, over the input frame. -/
def cpuValue (E : Engine C D S) (base : Table C) : LayerExpr C D S → Except CollectError C
  | .ordinary _ _ value => .ok (value base)
  | .verb v b =>
    if v.sentinel then .error (.guard v)
    else
      match base.lookup b.column with
      | some c => .ok (E.polars v b.spec c)
      | none => .error (.columnNotFound b.column)

end LayerExpr

def tableNames (t : Table C) : List String := t.map Prod.fst

/-- The layer's output names: the input's, then the new ones. -/
def layerNames (base : Table C) (layer : List (LayerExpr C D S)) : List String :=
  tableNames base ++ (layer.map LayerExpr.outName).filter (fun n => n ∉ tableNames base)

section Collect

variable (E : Engine C D S) (base : Table C) (layer : List (LayerExpr C D S))

/-- `lf.collect_schema()[name]`: of the layer's output. -/
def schemaDtype (name : String) : Option D :=
  match layer.find? (fun e => e.outName = name) with
  | some e => some (e.dtype E)
  | none => (base.lookup name).map E.dtypeOf

/-! The detectors. -/

def parseNode (v : Verb) : LayerExpr C D S → Option (Binding S)
  | .ordinary .. => none
  | .verb w b =>
    if w ≠ v then none
    else if v.sentinel then
      if b.outName ≠ "" ∧ b.column ≠ "" then some b else none
    else
      match schemaDtype E base layer b.column with
      | some d => if E.accepts v b.spec d ∧ b.outName ≠ b.column then some b else none
      | none => none

/-- `find_rolling_bindings` and its siblings. The native verbs reject all their bindings where one's
output name is another's source. -/
def findBindings (v : Verb) : List (Binding S) :=
  let out := layer.filterMap (parseNode E base layer v)
  if !v.sentinel && out.any (fun b => b.outName ∈ out.map Binding.column) then [] else out

/-- The verb the wrapper dispatches. -/
def dispatched : Option (Verb × List (Binding S)) :=
  stitchVerbs.findSome? (fun v =>
    let bs := findBindings E base layer v
    if bs.isEmpty then none else some (v, bs))

/-! The dispatch. -/

/-- One column of the layer on the CPU. -/
def columnOf (name : String) : Except CollectError C :=
  match layer.find? (fun e => e.outName = name) with
  | some e => e.cpuValue E base
  | none =>
    match base.lookup name with
    | some c => .ok c
    | none => .error (.columnNotFound name)

/-- `_collect_rest` of the layer projected to some columns: nothing else is evaluated. -/
def collectRest (names : List String) : Except CollectError (Table C) :=
  names.mapM (fun n => (columnOf E base layer n).map (fun c => (n, c)))

/-- The `with_columns` branch of `collect_stitch_base`. -/
def collectStitchBase (outNames srcCols : List String) : Except CollectError (Table C) := do
  let neededSrc := (srcCols.filter (· ≠ "")).eraseDups
  let df ← collectRest E base layer ((layerNames base layer).filter (· ∉ outNames))
  let missing := neededSrc.filter (· ∉ tableNames df)
  if missing.isEmpty then return df
  let srcDf ← collectRest E base layer missing
  return df ++ srcDf

def getColumn (df : Table C) (name : String) : Except CollectError C :=
  match df.lookup name with
  | some c => .ok c
  | none => .error (.columnNotFound name)

/-- `apply_rolling` and its siblings. -/
def applyVerb (v : Verb) (bs : List (Binding S)) : Except CollectError (Table C) := do
  let df ← collectStitchBase E base layer (bs.map Binding.outName) (bs.map Binding.column)
  let outs ← bs.mapM (fun b => do
    let src ← getColumn df b.column
    let out ← E.kernel v b.spec src
    return (b.outName, out))
  (layerNames base layer).mapM (fun n => (getColumn (outs.reverse ++ df) n).map (fun c => (n, c)))

/-- `collect(engine=MetalEngine())` of the layer. -/
def collect : Except CollectError (Table C) :=
  match dispatched E base layer with
  | some (v, bs) => applyVerb E base layer v bs
  | none => collectRest E base layer (layerNames base layer)

end Collect

end PolarsMetal.Verbs
