import Mathlib.Data.Prod.Lex
import PolarsMetal.Lib.Arrangement
import PolarsMetal.Lowering.NullFree

/-! Join nodes. The walker lowers a left or inner join of two scans on one integer key and hands the
UDF the key names and the join type; the UDF joins the two scanned frames by Polars' own join. The
resident gather, which goes without this join, is a module of its own. -/

namespace PolarsMetal.Lowering
open Fusion Window

variable {V : Type}

inductive JoinHow where
  | left | inner | right | full | semi | anti | cross
deriving DecidableEq

inductive MaintainOrder where
  | none | left | right | leftRight | rightLeft
deriving DecidableEq

/-- A `Join` node as the traverser shows it; a key expression that is not a plain column is `none`,
and `how` is `options[0]`. -/
structure JoinNode where
  how : Option JoinHow
  leftOn : List (Option String)
  rightOn : List (Option String)
  nullsEqual : Bool
  slice : Option (ℤ × ℕ)
  suffix : String
  coalesce : Option Bool
  maintainOrder : MaintainOrder
  leftSchema : List (String × PolarsDtype)
  rightSchema : List (String × PolarsDtype)

structure Scan (V : Type) where
  df : Frame V
  projection : Option (List String)

/-- What the scan node returns. -/
def Scan.result (s : Scan V) : Frame V := (PlanNode.scan s.df s.projection).eval

/-! The walker. -/

/-- What the walk of one input gives. -/
inductive WalkedInput (V : Type) where
  | fallBack
  | scan (s : Scan V)
  | other

structure JoinPlan (V : Type) where
  left : Scan V
  right : Scan V
  key : String
  rightKey : String
  how : JoinHow
  dimValueCols : List String

inductive JoinFallBack where
  | multiKey
  | how
  | exprKey
  | keyDtype
  | input
  | notScans
deriving DecidableEq

def joinIntKeyDtypes : List PolarsDtype :=
  [.int8, .int16, .int32, .int64, .uint8, .uint16, .uint32]

def walkJoin (node : JoinNode) (left right : WalkedInput V) : Except JoinFallBack (JoinPlan V) :=
  match node.leftOn, node.rightOn with
  | [lkey], [rkey] =>
    match node.how with
    | none => .error .how
    | some how =>
      if how ≠ .left ∧ how ≠ .inner then .error .how
      else
        match lkey, rkey with
        | some lkey, some rkey =>
          match node.leftSchema.lookup lkey with
          | none => .error .keyDtype
          | some dtype =>
            if dtype ∉ joinIntKeyDtypes then .error .keyDtype
            else
              match left, right with
              | .fallBack, _ => .error .input
              | _, .fallBack => .error .input
              | .scan l, .scan r =>
                .ok ⟨l, r, lkey, rkey, how, (node.rightSchema.map Prod.fst).filter (· ≠ rkey)⟩
              | _, _ => .error .notScans
        | _, _ => .error .exprKey
  | _, _ => .error .multiKey

/-! Polars' join. -/

/-- A row of the result: the row numbers it comes from. -/
abbrev Match := ℕ × Option ℕ

section Matches

variable [DecidableEq V]

def keysMatch (nullsEqual : Bool) : Option V → Option V → Bool
  | some a, some b => a = b
  | none, none => nullsEqual
  | _, _ => false

/-- The nested loop over two key columns; a left join keeps a left row without a match. -/
def joinMatches (how : JoinHow) (nullsEqual : Bool) (lkeys rkeys : List (Option V)) : List Match :=
  lkeys.zipIdx.flatMap (fun (k, i) =>
    let js := (rkeys.zipIdx.filter (fun (k', _) => keysMatch nullsEqual k k')).map Prod.snd
    if js.isEmpty ∧ how = .left then [(i, none)] else js.map (fun j => (i, some j)))

end Matches

inductive JoinSource where
  | left (name : String)
  | right (name : String)
deriving DecidableEq

/-- The result's columns: the left frame's, then the right frame's, under the suffix where a name
is taken; a coalesced join leaves out the right key. -/
def joinOuts (suffix : String) (coalesced : Bool) (lcols rcols : List String) (rkey : String) :
    List (String × JoinSource) :=
  lcols.map (fun c => (c, .left c)) ++
    (rcols.filter (fun c => !(coalesced && c == rkey))).map
      (fun c => (if c ∈ lcols then c ++ suffix else c, .right c))

def joinCell (L R : Frame V) (m : Match) : JoinSource → Option V
  | .left c => (L.getColumn c).getD m.1 none
  | .right c => m.2.bind (fun j => (R.getColumn c).getD j none)

def joinRow (outs : List (String × JoinSource)) (L R : Frame V) (m : Match) : List (Option V) :=
  outs.map (fun o => joinCell L R m o.2)

/-- Where a row stands under `maintain_order`; a left row without a match comes after the rows of
the right frame. -/
def rank (order : MaintainOrder) (rightHeight : ℕ) (m : Match) : ℕ ×ₗ ℕ :=
  let j := m.2.getD rightHeight
  match order with
  | .none => toLex (0, 0)
  | .left => toLex (m.1, 0)
  | .right => toLex (j, 0)
  | .leftRight => toLex (m.1, j)
  | .rightLeft => toLex (j, m.1)

/-- The order of the rows a join is not told to maintain. -/
structure Joiner where
  arrange : List Match → List Match
  perm : ∀ ms, (arrange ms).Perm ms

/-- `left.join(right, left_on=key, right_on=right_key, how=how)` with every other argument at its
default; two columns of one name are an error. -/
def Frame.join [DecidableEq V] (J : Joiner) (L R : Frame V) (key rightKey : String) (how : JoinHow) :
    Option (Frame V) :=
  let outs := joinOuts "_right" true L.columns R.columns rightKey
  if (outs.map Prod.fst).Nodup then
    some ⟨outs.map Prod.fst,
      (J.arrange (joinMatches how false (L.getColumn key) (R.getColumn rightKey))).map
        (joinRow outs L R)⟩
  else none

/-! The UDF. -/

/-- `_dispatch_join` up to the chain above the join, where it joins. -/
def dispatchJoin [DecidableEq V] (J : Joiner) (plan : JoinPlan V) : Option (Frame V) :=
  plan.left.df.join J plan.right.df plan.key plan.rightKey plan.how

end PolarsMetal.Lowering
