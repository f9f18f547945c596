import PolarsMetal.GroupBy.AggPaths
import PolarsMetal.Lib.CasLoop

/-! The single-precision aggregates of the per-aggregate path. With few groups each thread gathers
its rows in registers, a simdgroup combines its lanes, and one thread of a threadgroup swaps the
threadgroup's totals into the device's cells; with many groups each row is swapped into its cell. A
swap that finds the cell changed, or that fails for no reason, is tried again. -/

namespace PolarsMetal.GroupBy
open Bitmap CasLoop

/-- `F32_AGG_MAX_GROUPS`, and `MAX_GROUPS` of the kernels -/
def f32AggMaxGroups : ℕ := 16
def f32AggTgWidth : ℕ := 256
def f32AggMaxTgs : ℕ := 128

/-- What tells the kernels of a name apart. -/
structure F32Kernel where
  initBits : Word
  /-- the update of a register, a simdgroup's reduce and a threadgroup's total -/
  combine : Word → Word → Word
  /-- a total that is not swapped in -/
  skips : Word → Bool
  /-- what the loop for `v` puts where `cur` is, if anything -/
  swapIn : Word → Word → Option Word

def aggSumF32 (fl : F32Ops) : F32Kernel where
  initBits := 0
  combine := fl.add
  skips := fl.isZero
  swapIn v cur := some (fl.add cur v)

def aggMinF32 (fl : F32Ops) : F32Kernel where
  initBits := f32Infinity
  combine := fl.min
  skips total := total == f32Infinity
  swapIn v cur := if fl.lt v cur then some v else none

def aggMaxF32 (fl : F32Ops) : F32Kernel where
  initBits := f32NegInfinity
  combine := fl.max
  skips total := total == f32NegInfinity
  swapIn v cur := if fl.lt cur v then some v else none

/-- How the lanes of a simdgroup are brought together. -/
inductive Shape where
  | lane (i : ℕ)
  | node (left right : Shape)

namespace Shape

def lanes : Shape → List ℕ
  | lane i => [i]
  | node left right => left.lanes ++ right.lanes

def eval {α : Type*} (op : α → α → α) (x : ℕ → α) : Shape → α
  | lane i => x i
  | node left right => op (left.eval op x) (right.eval op x)

/-- Lane after lane. -/
def row : ℕ → Shape
  | 0 => lane 0
  | n + 1 => node (row n) (lane (n + 1))

end Shape

/-- What the hardware decides in a launch: how each simdgroup of each threadgroup brings a group's
lanes together, and the turns of the swap loops. -/
structure F32Launch where
  shape : ℕ → ℕ → ℕ → Shape
  turns : List Turn

structure AggInput where
  values : List Word
  valid : List UInt8
  rowToGroup : List ℕ
  nRows : ℕ
  nGroups : ℕ

namespace F32Kernel

variable (k : F32Kernel) (inp : AggInput)

/-- The kernel of a thread for each row. -/
def perRow (gid : ℕ) : List (Update Word) :=
  if gid ≥ inp.nRows then []
  else if bitAt inp.valid gid = 0 then []
  else [⟨inp.rowToGroup.getD gid 0, k.swapIn (inp.values.getD gid 0)⟩]

/-- A thread's registers after the rows that it strides over. -/
def localAcc (rows : List ℕ) : List Word :=
  rows.foldl (fun acc row =>
    if bitAt inp.valid row = 0 then acc
    else
      let g := inp.rowToGroup.getD row 0
      if g ≥ inp.nGroups then acc
      else acc.modify g fun old => k.combine old (inp.values.getD row 0))
    (List.replicate f32AggMaxGroups k.initBits)

def tgTotal (shape : ℕ → ℕ → Shape) (tg : List (List (List ℕ))) (g : ℕ) : Word :=
  (List.range tg.length).foldl (fun total sg =>
    k.combine total ((shape sg g).eval k.combine fun lane =>
      (k.localAcc inp ((tg.getD sg []).getD lane [])).getD g 0)) k.initBits

/-- The loops of a threadgroup's first thread. -/
def prereduce (grid : Grid) (shape : ℕ → ℕ → ℕ → Shape) (tg : ℕ) : List (Update Word) :=
  if tg ≥ grid.length then []
  else (List.range (min f32AggMaxGroups inp.nGroups)).filterMap fun g =>
    let total := k.tgTotal inp (shape tg) (grid.getD tg []) g
    if k.skips total then none else some ⟨g, k.swapIn total⟩

end F32Kernel

/-- `target_tgs.clamp(1, F32_AGG_MAX_TGS)` threadgroups, each thread striding over the rows. -/
def f32AggGrid (nRows : ℕ) : Grid :=
  let nTgs := max 1 (min f32AggMaxTgs ((nRows + f32AggTgWidth - 1) / f32AggTgWidth))
  let nThreads := nTgs * f32AggTgWidth
  (List.range nTgs).map (fun tg =>
    (List.range (f32AggTgWidth / simdWidth)).map (fun sg =>
      (List.range simdWidth).map (fun lane =>
        stridedRows nRows nThreads (tg * f32AggTgWidth + sg * simdWidth + lane))))

namespace F32Kernel

variable (k : F32Kernel) (inp : AggInput)

/-- The loops of the launched kernel, and how many threads have any. -/
def loops (launch : F32Launch) : (ℕ → List (Update Word)) × ℕ :=
  if inp.nGroups ≤ f32AggMaxGroups then
    (k.prereduce inp (f32AggGrid inp.nRows) launch.shape, (f32AggGrid inp.nRows).length)
  else (k.perRow inp, inp.nRows)

/-- The device's cells after the launch. -/
def cells (launch : F32Launch) : State Word :=
  exec (k.loops inp launch).1 (fun _ => k.initBits) launch.turns

/-- The launch ran to its end. -/
def Finished (launch : F32Launch) : Prop :=
  Done (k.loops inp launch).1 (k.loops inp launch).2 (k.cells inp launch)

end F32Kernel

/-- What the dispatcher binds: of the bitmap, the bytes that the rows need. -/
def AggInput.bound (inp : AggInput) : AggInput :=
  { inp with valid := inp.valid.take ((inp.nRows + 7) / 8) }

/-- A row has a group, so no caller asks for zero groups of some rows: the empty output buffer
would be refused. -/
def dispatchAggF32 (k : F32Kernel) (inp : AggInput) (launch : F32Launch) :
    Except GroupByError (List Word) :=
  if inp.nRows = 0 then .ok (List.replicate inp.nGroups k.initBits)
  else if inp.nRows ≥ 2 ^ 32 then .error (.rowCountOverflow inp.nRows)
  else if inp.values.length < inp.nRows then .error (.outputTooShort inp.values.length inp.nRows)
  else if inp.rowToGroup.length < inp.nRows then
    .error (.outputTooShort inp.rowToGroup.length inp.nRows)
  else if inp.valid.length < (inp.nRows + 7) / 8 then
    .error (.outputTooShort inp.valid.length ((inp.nRows + 7) / 8))
  else .ok ((List.range inp.nGroups).map (k.cells inp.bound launch).mem)

inductive F32AggKind where
  | sumF32 | minF32 | maxF32 | meanF32
deriving DecidableEq, Repr

/-- The single-precision arms of `run_one_agg`; `threads` is the order of the counting kernel's. -/
def runOneAggF32 (fl : F32Ops) (kind : F32AggKind) (data : List Word) (valid : List UInt8)
    (rowToGroup : List ℕ) (nGroups : ℕ) (launch : F32Launch) (threads : List ℕ) :
    Except GroupByError AggOutput :=
  let nRows := rowToGroup.length
  let inp : AggInput := ⟨data, valid, rowToGroup, nRows, nGroups⟩
  match kind with
  | .sumF32 => do
    let out ← dispatchAggF32 (aggSumF32 fl) inp launch
    return .f32 out (List.replicate nGroups true)
  | .minF32 => do
    let out ← dispatchAggF32 (aggMinF32 fl) inp launch
    let counts ← dispatchCountU32 valid rowToGroup nRows nGroups threads
    return .f32 out (countToValid counts)
  | .maxF32 => do
    let out ← dispatchAggF32 (aggMaxF32 fl) inp launch
    let counts ← dispatchCountU32 valid rowToGroup nRows nGroups threads
    return .f32 out (countToValid counts)
  | .meanF32 => do
    let sums ← dispatchAggF32 (aggSumF32 fl) inp launch
    let counts ← dispatchCountU32 valid rowToGroup nRows nGroups threads
    return meanFromSumCount id fl sums counts

end PolarsMetal.GroupBy
