import Mathlib.Tactic

/-! Aggregate specs and the canonical signature the fused kernel is keyed by.
Columns get slots in first-seen order over the specs; aliases are dropped. -/

namespace PolarsMetal.GroupBy

inductive MetalDtype where
  | i64 | f64 | bool | i32 | f32 | i8 | i16 | u8 | u16 | u32 | u64 | utf8
deriving DecidableEq, Repr

inductive AggOp where
  | sum | mean | count | min | max | len
deriving DecidableEq, Repr

inductive BinaryOp where
  | add | sub | mul | div
deriving DecidableEq, Repr

inductive AggExpr where
  | column (name : String)
  | literalF64 (bits : BitVec 64)
  | literalI64 (value : BitVec 64)
  | binary (op : BinaryOp) (lhs rhs : AggExpr)
deriving DecidableEq, Repr

inductive AggSpec where
  | simple (inputCol : String) (op : AggOp) (outputAlias : String)
  | expression (expr : AggExpr) (op : AggOp) (outputAlias : String)
  | length (outputAlias : String)
deriving DecidableEq, Repr

namespace AggExpr

/-- Every column of the tree, left to right, with repeats. -/
def columns : AggExpr → List String
  | column name => [name]
  | literalF64 _ | literalI64 _ => []
  | binary _ lhs rhs => lhs.columns ++ rhs.columns

def referencedColumns (e : AggExpr) : List String :=
  e.columns.foldl (fun out name => if name ∈ out then out else out ++ [name]) []

end AggExpr

/-- The columns a spec reads. -/
def AggSpec.referencedColumns : AggSpec → List String
  | .simple inputCol _ _ => [inputCol]
  | .expression expr _ _ => expr.referencedColumns
  | .length _ => []

inductive CanonicalExpr where
  | column (slot : ℕ)
  | literalF64Bits (bits : BitVec 64)
  | literalI64 (value : BitVec 64)
  | binary (op : BinaryOp) (lhs rhs : CanonicalExpr)
deriving DecidableEq, Repr

inductive CanonicalAgg where
  | simple (colSlot : ℕ) (op : AggOp) (dtype : MetalDtype)
  | expression (expr : CanonicalExpr) (op : AggOp) (dtype : MetalDtype)
  | length
deriving DecidableEq, Repr

structure AggSignature where
  columnOrder : List String
  columnDtypes : List MetalDtype
  aggs : List CanonicalAgg
deriving DecidableEq, Repr

inductive AggSignatureError where
  | unknownColumn (name : String)
deriving DecidableEq, Repr

/-- A name's dtype in the caller's map. -/
abbrev ColDtypes := List (String × MetalDtype)

def lookupDtype (col : String) (colDtypes : ColDtypes) : Except AggSignatureError MetalDtype :=
  match colDtypes.lookup col with
  | some dt => .ok dt
  | none => .error (.unknownColumn col)

/-- The column's slot, as the `u16` the signature stores. -/
def slotOf (order : List String) (name : String) : ℕ := order.idxOf name % 2 ^ 16

def intern (name : String) (dtype : MetalDtype) (columns : List String × List MetalDtype) :
    List String × List MetalDtype :=
  if name ∈ columns.1 then columns else (columns.1 ++ [name], columns.2 ++ [dtype])

def canonExpr (order : List String) : AggExpr → CanonicalExpr
  | .column name => .column (if name ∈ order then slotOf order name else 0)
  | .literalF64 bits => .literalF64Bits bits
  | .literalI64 v => .literalI64 v
  | .binary op lhs rhs => .binary op (canonExpr order lhs) (canonExpr order rhs)

def internSpec (colDtypes : ColDtypes) (columns : List String × List MetalDtype) (spec : AggSpec) :
    Except AggSignatureError ((List String × List MetalDtype) × CanonicalAgg) :=
  match spec with
  | .simple inputCol op _ => do
    let dt ← lookupDtype inputCol colDtypes
    let columns := intern inputCol dt columns
    return (columns, .simple (slotOf columns.1 inputCol) op dt)
  | .expression expr op _ => do
    let referenced := expr.referencedColumns
    let columns ← referenced.foldlM (fun columns col => do
      let dt ← lookupDtype col colDtypes
      return intern col dt columns) columns
    let outputDtype ← match referenced with
      | c :: _ => lookupDtype c colDtypes
      | [] => pure MetalDtype.f64
    return (columns, .expression (canonExpr columns.1 expr) op outputDtype)
  | .length _ => return (columns, .length)

def AggSignature.fromSpecs (specs : List AggSpec) (colDtypes : ColDtypes) :
    Except AggSignatureError AggSignature := do
  let (columns, aggs) ← specs.foldlM (fun (columns, aggs) spec => do
    let (columns, agg) ← internSpec colDtypes columns spec
    return (columns, aggs ++ [agg])) ((([], []), []) : (List String × List MetalDtype) × List CanonicalAgg)
  return ⟨columns.1, columns.2, aggs⟩

def signatureSupportedByFused (sig : AggSignature) : Bool :=
  sig.columnDtypes.all (fun d => match d with
    | .f64 | .i64 | .u64 => false
    | .utf8 => false
    | .f32 | .i32 | .u32 | .i16 | .u16 | .i8 | .u8 | .bool => true)

end PolarsMetal.GroupBy
