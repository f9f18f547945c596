import PolarsMetal.Fusion.Scope
import PolarsMetal.Lib.Ieee

/-! The optimiser's expression trees as the node traverser shows them. Interior
nodes are unfolded; a leaf keeps its arena id, because the analyzer's leaf table
is keyed by it. -/

namespace PolarsMetal.Fusion

/-! Python numbers. -/

/-- A float by its exact value; the two zeros are distinct values that compare equal. -/
inductive PyFloat where
  | nan
  | inf (negative : Bool)
  | negZero
  | finite (value : ℚ)
deriving DecidableEq

namespace PyFloat

/-- Python's `==`, which is also the equality of dictionary keys. -/
def pyEq : PyFloat → PyFloat → Bool
  | nan, _ | _, nan => false
  | negZero, finite v | finite v, negZero => v = 0
  | a, b => a = b

def isZero (x : PyFloat) : Bool := pyEq x (finite 0)

/-! `repr`: the shortest digits that read back as the double. -/

/-- The power of ten above a positive number. -/
def decimalPoint (x : ℚ) : ℤ :=
  if 1 ≤ x then (Nat.toDigits 10 ⌊x⌋.toNat).length
  else 1 - (Nat.toDigits 10 (⌈x⁻¹⌉.toNat - 1)).length

/-- The `n` digits nearest to `x` that read back as `x`, as one number. -/
def shortDigits (x : ℚ) (point : ℤ) (n : ℕ) : Option ℕ :=
  let scale : ℚ := 10 ^ (n - point)
  let low := ⌊x * scale⌋.toNat
  let above := x * scale - low
  let up := 1 < 2 * above ∨ 2 * above = 1 ∧ low % 2 = 1
  (if up then [low + 1, low] else [low, low + 1]).find?
    (fun digits => Ieee.f64.nearest (digits / scale) = Ieee.f64.nearest x)

def reprDigits (x : ℚ) (point : ℤ) : List Char × ℤ :=
  let n := ((List.range' 1 17).find? (fun n => (shortDigits x point n).isSome)).getD 17
  let digits := Nat.toDigits 10 ((shortDigits x point n).getD 0)
  ((digits.reverse.dropWhile (· = '0')).reverse, point + (digits.length - n))

def reprPositive (x : ℚ) : String :=
  let (digits, point) := reprDigits x (decimalPoint x)
  let zeros (n : ℤ) := List.replicate n.toNat '0'
  if -4 < point ∧ point ≤ 16 then
    if point ≤ 0 then String.ofList ('0' :: '.' :: (zeros (-point) ++ digits))
    else if digits.length ≤ point then
      String.ofList (digits ++ zeros (point - digits.length) ++ ['.', '0'])
    else String.ofList (digits.take point.toNat ++ '.' :: digits.drop point.toNat)
  else
    let exponent := point - 1
    let power := Nat.toDigits 10 exponent.natAbs
    String.ofList (digits.take 1 ++ (if digits.length = 1 then [] else '.' :: digits.drop 1) ++
      'e' :: (if exponent < 0 then '-' else '+') :: (zeros (2 - power.length) ++ power))

def repr : PyFloat → String
  | nan => "nan"
  | inf false => "inf"
  | inf true => "-inf"
  | negZero => "-0.0"
  | finite value =>
    if value = 0 then "0.0"
    else if value < 0 then "-" ++ reprPositive (-value)
    else reprPositive value

end PyFloat

/-- `float` of an integer: 53 significant bits, ties to even. -/
def roundToDouble (n : ℤ) : ℤ :=
  let shift := n.natAbs.log2 - 52
  let q := n.natAbs >>> shift
  let r := n.natAbs % 2 ^ shift
  let up := 2 * r > 2 ^ shift ∨ (2 * r = 2 ^ shift ∧ q % 2 = 1)
  n.sign * ((if up then q + 1 else q) * 2 ^ shift : ℕ)

/-- A literal's Python value; `object` is any other object, with what `float` makes of it. -/
inductive LitValue where
  | none
  | int (n : ℤ)
  | float (x : PyFloat)
  | bool (b : Bool)
  | object (tag : ℕ) (asFloat : Option PyFloat)
deriving DecidableEq

namespace LitValue

/-- `float(val)`; `none` where it raises. -/
def toFloat : LitValue → Option PyFloat
  | none => Option.none
  | int n => if (roundToDouble n).natAbs < 2 ^ 1024 then some (.finite (roundToDouble n)) else Option.none
  | float x => some x
  | bool b => some (.finite (if b then 1 else 0))
  | object _ asFloat => asFloat

/-- The number a literal denotes, if it denotes one. -/
def exact : LitValue → Option PyFloat
  | int n => some (.finite n)
  | float x => some x
  | bool b => some (.finite (if b then 1 else 0))
  | none | object _ _ => Option.none

end LitValue

/-! Expression nodes. -/

inductive PolarsDtype where
  | int8 | int16 | int32 | int64 | uint8 | uint16 | uint32 | uint64
  | float32 | float64 | boolean | string
  | arrayF32 (dim : ℕ) | listF32
  | other (name : String)
deriving DecidableEq, Repr

inductive Operator where
  | eq | eqValidity | notEq | notEqValidity | lt | ltEq | gt | gtEq
  | plus | minus | multiply | divide | trueDivide | floorDivide | modulus
  | and | or | xor | logicalAnd | logicalOr
deriving DecidableEq, Repr

inductive PlainFunction where
  | sin | cos | tan | sinh | cosh | tanh | arcsin | arccos | arctan | arctan2
  | exp | sqrt | cbrt | abs | negate | floor | ceil
deriving DecidableEq, Repr

inductive Cumulative where
  | cumSum | cumProd | cumMax | cumMin
deriving DecidableEq, Repr

inductive RoundMode where
  | halfToEven | halfAwayFromZero
deriving DecidableEq, Repr

/-- `function_data`: the function's name with its parameters. -/
inductive IRFunction where
  | plain (f : PlainFunction)
  | round (decimals : ℕ) (mode : RoundMode)
  | cumulative (c : Cumulative) (reverse : Bool)
  | pow
  | log
  | shift
  | other (name : String)
deriving DecidableEq, Repr

inductive LeafNode where
  | column (name : String)
  | literal (value : LitValue)
deriving DecidableEq

/-- What `view_expression` shows at a leaf's arena id. -/
abbrev NodeTraverser := ℕ → LeafNode

/-- `hidden` is a node the traverser cannot show (`int_range` among them) or one of another class. -/
inductive IRExpr where
  | leaf (nodeId : ℕ)
  | binary (op : Operator) (left right : IRExpr)
  | cast (dtype : PolarsDtype) (expr : IRExpr)
  | function (data : IRFunction) (input : List IRExpr)
  | agg (name : String) (arguments : List IRExpr)
  | ternary (predicate truthy falsy : IRExpr)
  | hidden

abbrev Schema := String → Option PolarsDtype

/-! What a tree computes. -/

/-- A meaning for every node of a tree and every op of a scope. -/
structure Interp (α : Type) where
  op : OpSemantics α
  lit : PyFloat → α
  object : LitValue → α
  binary : Operator → α → α → α
  cast : PolarsDtype → α → α
  function : IRFunction → List α → α
  agg : String → List α → α
  ternary : α → α → α → α
  hidden : α

variable {α : Type}

/-- Literals count at their exact value. -/
def Interp.literal (I : Interp α) (v : LitValue) : α :=
  match v.exact with
  | some x => I.lit x
  | none => I.object v

def evalLeaf (I : Interp α) (env : String → α) : LeafNode → α
  | .column name => env name
  | .literal v => I.literal v

mutual

def evalTree (I : Interp α) (env : String → α) (nt : NodeTraverser) : IRExpr → α
  | .leaf id => evalLeaf I env (nt id)
  | .binary op left right => I.binary op (evalTree I env nt left) (evalTree I env nt right)
  | .cast dtype e => I.cast dtype (evalTree I env nt e)
  | .function data input => I.function data (evalTrees I env nt input)
  | .agg name arguments => I.agg name (evalTrees I env nt arguments)
  | .ternary p t f => I.ternary (evalTree I env nt p) (evalTree I env nt t) (evalTree I env nt f)
  | .hidden => I.hidden

def evalTrees (I : Interp α) (env : String → α) (nt : NodeTraverser) : List IRExpr → List α
  | [] => []
  | e :: es => evalTree I env nt e :: evalTrees I env nt es

end

end PolarsMetal.Fusion
