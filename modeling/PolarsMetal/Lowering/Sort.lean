import PolarsMetal.Fusion.Expr
import PolarsMetal.Lib.Window

/-! Sort nodes. The walker lowers a sort by plain columns; a single `Float32` column alone in its
frame goes to the MLX sort, with direction and slice applied to the ascending array on the host,
and everything else is handed to Polars' own sort inside the UDF. -/

namespace PolarsMetal.Lowering
open Fusion Window

/-- A frame: named columns and rows of cells; `none` is a null. -/
structure Frame (V : Type) where
  columns : List String
  rows : List (List (Option V))
deriving DecidableEq

variable {V : Type}

def cellOf (columns : List String) (row : List (Option V)) (name : String) : Option V :=
  row.getD (columns.idxOf name) none

def Frame.getColumn (df : Frame V) (name : String) : List (Option V) :=
  df.rows.map (fun row => cellOf df.columns row name)

def Frame.slice (df : Frame V) (offset : ℤ) (length : ℕ) : Frame V :=
  { df with rows := Window.slice offset length df.rows }

/-- `df.drop_nulls(name)`. -/
def Frame.dropNulls (df : Frame V) (name : String) : Frame V :=
  { df with rows := df.rows.filter (fun row => (cellOf df.columns row name).isSome) }

structure SortKey where
  column : String
  descending : Bool
  nullsLast : Bool
deriving DecidableEq

/-- Per-key flags; a missing flag is false. -/
def sortKeys (byColumns : List String) (descending nullsLast : List Bool) : List SortKey :=
  byColumns.mapIdx (fun i c => ⟨c, descending.getD i false, nullsLast.getD i false⟩)

section Order

variable [LinearOrder V]

/-- The order of two cells under one key; where nulls go does not depend on the direction. -/
def cellLe (k : SortKey) : Option V → Option V → Bool
  | none, none => true
  | none, some _ => !k.nullsLast
  | some _, none => k.nullsLast
  | some a, some b => if k.descending then b ≤ a else a ≤ b

/-- Lexicographic order by the keys. -/
def rowLe (columns : List String) : List SortKey → List (Option V) → List (Option V) → Bool
  | [], _, _ => true
  | k :: keys, a, b =>
    if cellOf columns a k.column = cellOf columns b k.column then rowLe columns keys a b
    else cellLe k (cellOf columns a k.column) (cellOf columns b k.column)

end Order

/-! The walker. -/

/-- A `Sort` node as the traverser shows it; a by-expression that is not a plain column is `none`. -/
structure SortNode where
  byColumns : List (Option String)
  slice : Option (ℤ × ℕ)
  maintainOrder : Bool
  nullsLast : List Bool
  descending : List Bool
  inSchema : List (String × PolarsDtype)

structure FusedSort where
  column : String
  descending : Bool
  nullsLast : Bool
  slice : Option (ℤ × ℕ)
  dropNulls : Bool
deriving DecidableEq

structure SortPlan (P : Type) where
  input : P
  byColumns : List String
  descending : List Bool
  nullsLast : List Bool
  fusedSort : Option FusedSort

inductive SortFallBack where
  | complexKey
  | sliceOnCpuPath
  | input
deriving DecidableEq

def SortNode.names (node : SortNode) : Option (List String) := node.byColumns.mapM id

/-- The one-column `Float32` case. -/
def fusedSortFor (node : SortNode) (byColumns : List String) : Option FusedSort :=
  match byColumns, node.inSchema with
  | [c], [(name, dtype)] =>
    if c = name ∧ dtype = .float32 then
      some ⟨c, node.descending.headD false, node.nullsLast.headD false, node.slice, false⟩
    else none
  | _, _ => none

/-- `_walk_sort`: `inner` is the walk of the input, `bypassed` that of the input below a filter
whose predicate cannot be viewed. -/
def walkSort {P : Type} (node : SortNode) (inner bypassed : Option P) :
    Except SortFallBack (SortPlan P) :=
  match node.names with
  | none => .error .complexKey
  | some byColumns =>
    let fused := fusedSortFor node byColumns
    if fused = none ∧ node.slice ≠ none then .error .sliceOnCpuPath
    else
      match inner with
      | some p => .ok ⟨p, byColumns, node.descending, node.nullsLast, fused⟩
      | none =>
        match fused, bypassed with
        | some f, some p =>
          if f.slice = none then .error .input
          else .ok ⟨p, byColumns, node.descending, node.nullsLast, some { f with dropNulls := true }⟩
        | _, _ => .error .input

/-! The UDF. -/

/-- The two sorts the UDF calls: `df.sort` with its default `maintain_order=False`, and MLX's. -/
structure Sorts (V : Type) where
  frame : List SortKey → Frame V → Frame V
  mlx : List V → List V

/-- `x if any(x) else False`, spread over the keys. -/
def orFalse (flags : List Bool) : List Bool := if flags.any id then flags else []

def udfSort (S : Sorts V) (byColumns : List String) (descending nullsLast : List Bool)
    (nRows : Option ℕ) (df : Frame V) : Frame V :=
  let df := if byColumns = [] then df
    else S.frame (sortKeys byColumns (orFalse descending) (orFalse nullsLast)) df
  match nRows with
  | some n => df.slice 0 n
  | none => df

/-- Direction and slice of the ascending array, by Python index arithmetic. -/
def takeSorted (descending : Bool) (sortSlice : Option (ℤ × ℕ)) (outArr : List V) : List V :=
  let m : ℤ := outArr.length
  let (off, length) := match sortSlice with
    | some (off, length) => (off, (length : ℤ))
    | none => (0, m)
  if descending then
    let hi := m - off
    let lo := max 0 (hi - length)
    (pySlice lo hi outArr).reverse
  else pySlice off (off + length) outArr

/-- The fused sort; `dtypeOf` is the schema of the frame the inner UDF returned. -/
def udfSortFused (S : Sorts V) (dtypeOf : String → PolarsDtype) (byColumns : List String)
    (f : FusedSort) (nRows : Option ℕ) (df : Frame V) : Frame V :=
  let df := if f.dropNulls then df.dropNulls f.column else df
  let series := df.getColumn f.column
  let out :=
    if series.isEmpty || series.any Option.isNone || !decide (dtypeOf f.column = .float32) then
      let df := S.frame (sortKeys byColumns [f.descending] [f.nullsLast]) df
      match f.slice with
      | some (off, length) => df.slice off length
      | none => df
    else
      let outArr := S.mlx (series.filterMap id)
      ⟨[f.column], (takeSorted f.descending f.slice outArr).map (fun v => [some v])⟩
  match nRows with
  | some n => out.slice 0 n
  | none => out

/-- `_build_sort`, run on what the inner UDF returned. -/
def buildSort {P : Type} (S : Sorts V) (dtypeOf : String → PolarsDtype) (plan : SortPlan P)
    (nRows : Option ℕ) (df : Frame V) : Frame V :=
  match plan.fusedSort with
  | some f => udfSortFused S dtypeOf plan.byColumns f nRows df
  | none => udfSort S plan.byColumns plan.descending plan.nullsLast nRows df

end PolarsMetal.Lowering
