import PolarsMetal.Lib.Barriers
import Mathlib.Algebra.Group.Nat.Defs
import Mathlib.Data.Int.Notation

/-! The rolling kernels. A threadgroup of 256 threads owns 256 consecutive outputs and loads their
windows into a tile; between two barriers its threads take their turns in any order. The sum kernel
turns the tile into its prefix sums, segment by segment with a scan of the segments' totals, and
takes a difference; the variance kernel reads each window from the tile. Floats are any type with
the operations the kernels use. -/

namespace PolarsMetal.Rolling
open Interleave Barriers

def tgSize : ℕ := 256

def maxW : ℕ := 4096

/-- A threadgroup's memory, with a register for each thread. -/
structure TgMem (V : Type) where
  tile : ℕ → V
  segA : ℕ → V
  segB : ℕ → V
  reg : ℕ → V

namespace TgMem

variable {V : Type}

def setTile (j : ℕ) (value : TgMem V → V) (m : TgMem V) : TgMem V :=
  { m with tile := Function.update m.tile j (value m) }

def setSegA (lid : ℕ) (value : TgMem V → V) (m : TgMem V) : TgMem V :=
  { m with segA := Function.update m.segA lid (value m) }

def setSegB (lid : ℕ) (value : TgMem V → V) (m : TgMem V) : TgMem V :=
  { m with segB := Function.update m.segB lid (value m) }

def setReg (lid : ℕ) (value : TgMem V → V) (m : TgMem V) : TgMem V :=
  { m with reg := Function.update m.reg lid (value m) }

end TgMem

/-- What the kernels are launched with. -/
structure Args (V : Type) where
  input : List V
  n : ℕ
  w : ℕ

namespace Args

variable {V : Type} [Zero V] (a : Args V)

def halo : ℕ := a.w - 1

def loadCount : ℕ := tgSize + a.halo

/-- What the load puts in slot `j` of the tile. -/
def slot (tgid j : ℕ) : V :=
  let src : ℤ := ((tgid * tgSize : ℕ) : ℤ) - (a.halo : ℤ) + (j : ℤ)
  if src ≥ 0 ∧ src < (a.n : ℤ) then a.input.getD src.toNat 0 else 0

def load (tgid : ℕ) : Phase (TgMem V) := fun lid =>
  (strided lid tgSize a.loadCount).map (fun j => TgMem.setTile j (fun _ => a.slot tgid j))

/-! The sum kernel. -/

def seg : ℕ := (a.loadCount + tgSize - 1) / tgSize

def segStart (lid : ℕ) : ℕ := lid * a.seg

def segEnd (lid : ℕ) : ℕ := min (a.segStart lid + a.seg) a.loadCount

/-- The indices `from .. to`. -/
def indices (start stop : ℕ) : List ℕ := List.range' start (stop - start)

variable [Add V]

/-- Each thread sums along its segment. -/
def phaseA : Phase (TgMem V) := fun lid =>
  if a.segStart lid < a.loadCount then
    (indices (a.segStart lid + 1) (a.segEnd lid)).map
        (fun j => TgMem.setTile j (fun m => m.tile j + m.tile (j - 1))) ++
      [TgMem.setSegA lid (fun m => m.tile (a.segEnd lid - 1))]
  else [TgMem.setSegA lid (fun _ => 0)]

def scanRead (stride : ℕ) : Phase (TgMem V) := fun lid =>
  [TgMem.setReg lid (fun m => if lid ≥ stride then m.segA (lid - stride) else 0)]

def scanAdd : Phase (TgMem V) := fun lid => [TgMem.setSegB lid (fun m => m.segA lid + m.reg lid)]

def scanCopy : Phase (TgMem V) := fun lid => [TgMem.setSegA lid (fun m => m.segB lid)]

/-- One pass of the scan of the totals. -/
def scanPass (stride : ℕ) : List (Phase (TgMem V)) := [scanRead stride, scanAdd, scanCopy]

def strides : List ℕ := [1, 2, 4, 8, 16, 32, 64, 128]

def readOffset : Phase (TgMem V) := fun lid =>
  [TgMem.setReg lid (fun m => if lid = 0 then 0 else m.segA (lid - 1))]

/-- Each thread adds the totals before its segment. -/
def phaseC : Phase (TgMem V) := fun lid =>
  if a.segStart lid < a.loadCount then
    (indices (a.segStart lid) (a.segEnd lid)).map
      (fun j => TgMem.setTile j (fun m => m.tile j + m.reg lid))
  else []

def sumPhases (tgid : ℕ) : List (Phase (TgMem V)) :=
  [a.load tgid, a.phaseA] ++ strides.flatMap scanPass ++ [readOffset, a.phaseC]

variable [Sub V]

/-- The value thread `gid` writes; `m` is what its threadgroup's memory held at launch. -/
def rollingSum (div : V → ℕ → V) (isMean : Bool) (m : ℕ → TgMem V) (turns : ℕ → ℕ → List ℕ)
    (gid : ℕ) : V :=
  let tgid := gid / tgSize
  let lid := gid % tgSize
  let tile := (runPhases tgSize (a.sumPhases tgid) (turns tgid) (m tgid)).tile
  let hi := lid + a.halo
  let prev := if lid = 0 then 0 else tile (lid - 1)
  let windowSum := tile hi - prev
  if isMean then div windowSum a.w else windowSum

variable [Mul V]

/-- The value thread `gid` writes in the variance kernel. -/
def rollingVar (div : V → ℕ → V) (sqrt : V → V) (ddof : ℕ) (isStd : Bool) (m : ℕ → TgMem V)
    (turns : ℕ → ℕ → List ℕ) (gid : ℕ) : V :=
  let tgid := gid / tgSize
  let t0 := gid % tgSize
  let tile := (runPhases tgSize [a.load tgid] (turns tgid) (m tgid)).tile
  let s := (List.range a.w).foldl (fun s k => s + tile (t0 + k)) 0
  let mu := div s a.w
  let ss := (List.range a.w).foldl (fun ss k =>
    let d := tile (t0 + k) - mu
    ss + d * d) 0
  let var := div ss (a.w - ddof)
  if isStd then sqrt var else var

end Args

/-! The dispatchers. -/

inductive RollingError where
  | windowOutOfRange (w : ℕ)
  | invalidDdof (w ddof : ℕ)
deriving DecidableEq, Repr

/-- What the machine decides in one dispatch. -/
structure RollingRun (V : Type) where
  memory : ℕ → TgMem V
  /-- the turns of a threadgroup in each phase -/
  turns : ℕ → ℕ → List ℕ
  /-- the turns of the grid's threads at the output buffer -/
  storeOrder : List ℕ

/-- The stores of the grid, which is rounded up to whole threadgroups. -/
def storeOps {V : Type} (n : ℕ) (value : ℕ → V) (gid : ℕ) : List (ℕ × V) :=
  if gid < (n + tgSize - 1) / tgSize * tgSize ∧ gid < n then [(gid, value gid)] else []

def storeOutputs {V : Type} (n : ℕ) (value : ℕ → V) (output : List V) (order : List ℕ) : List V :=
  exec (storeOps n value) store output order

section Dispatch

variable {V : Type} [Zero V] [Add V] [Sub V]

/-- The output buffer after the dispatch. -/
def dispatchRollingSumF32Buf (div : V → ℕ → V) (g : RollingRun V) (input output : List V)
    (n w : ℕ) (isMean : Bool) : Except RollingError (List V) :=
  if w = 0 ∨ w > maxW then .error (.windowOutOfRange w)
  else if n = 0 then .ok output
  else
    let a : Args V := ⟨input, n, w⟩
    .ok (storeOutputs n (a.rollingSum div isMean g.memory g.turns) output g.storeOrder)

variable [Mul V]

def dispatchRollingVarF32Buf (div : V → ℕ → V) (sqrt : V → V) (g : RollingRun V)
    (input output : List V) (n w ddof : ℕ) (isStd : Bool) : Except RollingError (List V) :=
  if w = 0 ∨ w > maxW then .error (.windowOutOfRange w)
  else if w ≤ ddof then .error (.invalidDdof w ddof)
  else if n = 0 then .ok output
  else
    let a : Args V := ⟨input, n, w⟩
    .ok (storeOutputs n (a.rollingVar div sqrt ddof isStd g.memory g.turns) output g.storeOrder)

end Dispatch

/-! The entry point. -/

inductive RollingOp where
  | sum | mean | var | std
deriving DecidableEq, Repr

/-- `_OP_CODE` -/
def RollingOp.code : RollingOp → ℕ
  | .sum => 0
  | .mean => 1
  | .var => 2
  | .std => 3

inductive ExecuteError where
  | lengthMismatch
  | rowsExceeded
  | unknownOp (op : ℕ)
  | dispatch (e : RollingError)
deriving DecidableEq, Repr

/-- The output array after the call. Whether the buffers alias the arrays or are copied back, the
array ends with what the dispatch left. -/
def executeRolling {V : Type} [Zero V] [Add V] [Sub V] [Mul V] (div : V → ℕ → V) (sqrt : V → V)
    (g : RollingRun V) (input output : List V) (w op ddof : ℕ) : Except ExecuteError (List V) :=
  if input.length ≠ output.length then .error .lengthMismatch
  else if input.length = 0 then .ok output
  else if 2 ^ 32 ≤ input.length then .error .rowsExceeded
  else
    let n := input.length
    match op with
    | 0 => (dispatchRollingSumF32Buf div g input output n w false).mapError .dispatch
    | 1 => (dispatchRollingSumF32Buf div g input output n w true).mapError .dispatch
    | 2 => (dispatchRollingVarF32Buf div sqrt g input output n w ddof false).mapError .dispatch
    | 3 => (dispatchRollingVarF32Buf div sqrt g input output n w ddof true).mapError .dispatch
    | other => .error (.unknownOp other)

end PolarsMetal.Rolling
