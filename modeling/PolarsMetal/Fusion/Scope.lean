import PolarsMetal.Lib.StraightLine

/-! Fusion scopes: inputs, then ops that refer to earlier nodes by index, then
output indices; and the subgraph builder that turns a scope into values. What an
op computes is a parameter. -/

namespace PolarsMetal.Fusion
open Fallible StraightLine

inductive OpId where
  | add | sub | mul | div | mod | pow
  | neg | abs | square
  | eq | ne | lt | le | gt | ge
  | logicalAnd | logicalOr | logicalNot
  | «where»
  | sin | cos | tan | sinh | cosh | tanh | asin | acos | atan | atan2
  | log | log2 | log10 | log1p | exp | exp2 | sqrt | cbrt
  | floor | ceil | round
  | castF32 | castF64 | castI32 | castBool
  | sum | mean | min | max | std | var | argMin | argMax
  | sort | argPartition
  | cumSum | cumProd | cumMax | cumMin
  | matMul | fft | ifft
  | shift | rowIndex | take
deriving DecidableEq, Repr

/-- The number of arguments of an op. -/
def OpId.nArgs : OpId → ℕ
  | add | sub | mul | div | mod | pow => 2
  | eq | ne | lt | le | gt | ge => 2
  | logicalAnd | logicalOr => 2
  | atan2 | matMul | take => 2
  | «where» => 3
  | rowIndex => 0
  | _ => 1

inductive InputDtype where
  | f32 | f64 | bool | i32 | i8 | i16 | i64 | u8 | u16 | u32 | u64
  | arrayF32 (d : ℕ)
  | listF32
deriving DecidableEq, Repr

structure InputRef where
  columnName : String
  dtype : InputDtype
deriving DecidableEq, Repr

structure OpNode where
  op : OpId
  args : List ℕ
  param : Option ℤ
deriving DecidableEq, Repr

structure FusionScope where
  inputs : List InputRef
  ops : List OpNode
  outputs : List ℕ
deriving DecidableEq, Repr

namespace FusionScope

def new : FusionScope := ⟨[], [], []⟩

def addInput (scope : FusionScope) (name : String) (dtype : InputDtype) : FusionScope × ℕ :=
  ({ scope with inputs := scope.inputs ++ [⟨name, dtype⟩] }, scope.inputs.length)

def pushOpParam (scope : FusionScope) (op : OpId) (args : List ℕ) (param : Option ℤ) :
    FusionScope × ℕ :=
  ({ scope with ops := scope.ops ++ [⟨op, args, param⟩] }, scope.inputs.length + scope.ops.length)

def markOutput (scope : FusionScope) (idx : ℕ) : FusionScope :=
  { scope with outputs := scope.outputs ++ [idx] }

end FusionScope

/-! The subgraph builder. -/

inductive BuildError where
  | inputCountMismatch (expected actual : ℕ)
  | undefinedNode (idx : ℕ)
  | unsupportedOp (op : OpId)
  | argCountMismatch (op : OpId) (expected actual : ℕ)
  | argsOutOfBounds (op : OpId)
  | unsupportedInputDtype (dtype : InputDtype)
  | mlxError (message : String)
deriving DecidableEq, Repr

/-- What an op computes from its scalar parameter and its arguments. -/
abbrev OpSemantics (α : Type) := OpId → Option ℤ → List α → α

/-- The ops whose argument count the builder checks itself. -/
def OpId.countsArgs : OpId → Bool
  | add | sub | mul | div | mod | pow | neg | abs | square | «where» | shift | rowIndex | take => true
  | _ => false

def getHandle {α : Type} (handles : List α) (idx : ℕ) : Except BuildError α :=
  match handles[idx]? with
  | some h => .ok h
  | none => .error (.undefinedNode idx)

/-- The builder's arm for an op, its arguments resolved. -/
def applyOp {α : Type} (sem : OpSemantics α) (op : OpId) (param : Option ℤ) (handles args : List α) :
    Except BuildError α :=
  match op with
  | .argPartition | .fft | .ifft => .error (.unsupportedOp op)
  | .shift =>
    match param with
    | some w => .ok (sem .shift (some w) args)
    | none => .error (.unsupportedOp .shift)
  | .rowIndex =>
    -- the row count is the length of the first handle
    match handles with
    | first :: _ => .ok (sem .rowIndex none [first])
    | [] => .error (.unsupportedOp .rowIndex)
  | .take =>
    match args with
    | [source, index] => .ok (sem .take none [source, sem .castI32 none [index]])
    | _ => .error (.argsOutOfBounds .take)
  | op => .ok (sem op none (args.take op.nArgs))

def buildOp {α : Type} (sem : OpSemantics α) (node : OpNode) (handles : List α) :
    Except BuildError α := do
  let args ← node.args.mapM (getHandle handles)
  if node.op.countsArgs ∧ args.length ≠ node.op.nArgs then
    throw (.argCountMismatch node.op node.op.nArgs args.length)
  if args.length < node.op.nArgs then throw (.argsOutOfBounds node.op)
  applyOp sem node.op node.param handles args

/-- The outputs of a scope whose inputs are bound to the given values. -/
def evalScope {α : Type} (sem : OpSemantics α) (inputs : List α) (scope : FusionScope) :
    Except BuildError (List α) := do
  if inputs.length ≠ scope.inputs.length then
    throw (.inputCountMismatch scope.inputs.length inputs.length)
  let handles ← run (buildOp sem) inputs scope.ops
  scope.outputs.mapM (getHandle handles)

/-! Reading the builder back. -/

theorem getHandle_eq_ok {α : Type} {handles : List α} {idx : ℕ} {v : α} :
    getHandle handles idx = .ok v ↔ handles[idx]? = some v := by
  rw [getHandle]
  rcases handles[idx]? with _ | h <;> simp

/-- The ops an analyzer pushes with plain arguments. -/
def OpId.Plain (op : OpId) : Prop :=
  op ∉ [argPartition, fft, ifft, shift, rowIndex, take]

instance (op : OpId) : Decidable op.Plain := inferInstanceAs (Decidable (_ ∉ _))

theorem mapM_getHandle {α : Type} {handles : List α} {args : List ℕ} {vs : List α}
    (h : List.Forall₂ (fun idx v => handles[idx]? = some v) args vs) :
    args.mapM (getHandle handles) = .ok vs := by
  induction h with
  | nil => rfl
  | cons hv _ ih =>
    rw [List.mapM_cons, getHandle_eq_ok.2 hv, ih]
    rfl

theorem buildOp_plain {α : Type} (sem : OpSemantics α) {op : OpId} (hop : op.Plain) {args : List ℕ}
    {param : Option ℤ} {handles vs : List α} (hn : args.length = op.nArgs)
    (h : List.Forall₂ (fun idx v => handles[idx]? = some v) args vs) :
    buildOp sem ⟨op, args, param⟩ handles = .ok (sem op none vs) := by
  have hlen : vs.length = op.nArgs := h.length_eq.symm.trans hn
  have htake : vs.take op.nArgs = vs := List.take_of_length_le hlen.le
  rw [buildOp]
  refine bind_eq_ok.2 ⟨vs, mapM_getHandle h, guard_eq_ok.2 ⟨fun hc => hc.2 hlen,
    guard_eq_ok.2 ⟨Nat.not_lt.2 hlen.ge, ?_⟩⟩⟩
  cases op <;> first
    | exact (hop (by decide)).elim
    | exact congrArg (fun args => Except.ok (sem _ none args)) htake

theorem buildOp_shift {α : Type} (sem : OpSemantics α) {arg : ℕ} {w : ℤ} {handles : List α} {v : α}
    (h : handles[arg]? = some v) :
    buildOp sem ⟨.shift, [arg], some w⟩ handles = .ok (sem .shift (some w) [v]) := by
  simp only [buildOp, List.mapM_cons, getHandle_eq_ok.2 h]
  rfl

theorem buildOp_take {α : Type} (sem : OpSemantics α) {source index : ℕ} {handles : List α} {u v : α}
    (hu : handles[source]? = some u) (hv : handles[index]? = some v) :
    buildOp sem ⟨.take, [source, index], none⟩ handles =
      .ok (sem .take none [u, sem .castI32 none [v]]) := by
  simp only [buildOp, List.mapM_cons, getHandle_eq_ok.2 hu, getHandle_eq_ok.2 hv]
  rfl

end PolarsMetal.Fusion
