import PolarsMetal.GroupBy.AggSignature
import PolarsMetal.GroupBy.Build

/-! The fused aggregation path: the emitted kernel, run over a grid of threads in
simdgroups and threadgroups, and the dispatcher around it. Every output slot is
a reduction over 32-bit words; float arithmetic is a parameter. -/

namespace PolarsMetal.GroupBy
open Bitmap

/-- A 32-bit register or buffer cell: `int`, `uint`, or the bits of a `float`. -/
abbrev Word := BitVec 32

/-- Single-precision arithmetic on bit patterns, as the device computes it. -/
structure F32Ops where
  add : Word → Word → Word
  sub : Word → Word → Word
  mul : Word → Word → Word
  div : Word → Word → Word
  min : Word → Word → Word
  max : Word → Word → Word
  lt : Word → Word → Bool
  isZero : Word → Bool
  ofI32 : Word → Word
  ofU32 : Word → Word
  ofF64 : BitVec 64 → Word
  ofI64 : BitVec 64 → Word
deriving Inhabited

def maxGroups : ℕ := 16
def fusedTgWidth : ℕ := 256
def fusedMaxTgs : ℕ := 128
def simdWidth : ℕ := 32

def i32Max : Word := 0x7FFFFFFF
def i32Min : Word := 0x80000000
def u32MaxWord : Word := 0xFFFFFFFF
def f32Infinity : Word := 0x7F800000
def f32NegInfinity : Word := 0xFF800000

/-! Reduction slots. -/

inductive ReduceKind where
  | f32Sum | f32Min | f32Max | i32Sum | i32Min | i32Max | u32Sum | u32Min | u32Max | counter
deriving DecidableEq, Repr

namespace ReduceKind

def identity : ReduceKind → Word
  | f32Sum => 0
  | f32Min => f32Infinity
  | f32Max => f32NegInfinity
  | i32Sum | u32Sum | counter => 0
  | i32Min => GroupBy.i32Max
  | i32Max => GroupBy.i32Min
  | u32Min => u32MaxWord
  | u32Max => 0

/-- The row update, the simdgroup reduce and the threadgroup combine of a slot. -/
def combine (fl : F32Ops) : ReduceKind → Word → Word → Word
  | f32Sum => fl.add
  | f32Min => fl.min
  | f32Max => fl.max
  | i32Sum | u32Sum | counter => fun a b => a + b
  | i32Min => fun a b => if b.slt a then b else a
  | i32Max => fun a b => if a.slt b then b else a
  | u32Min => fun a b => if b.ult a then b else a
  | u32Max => fun a b => if a.ult b then b else a

/-- Whether the final flush touches the device buffer at all. -/
def flushes (fl : F32Ops) : ReduceKind → Word → Bool
  | f32Sum, total => !fl.isZero total
  | f32Min, total => total != f32Infinity
  | f32Max, total => total != f32NegInfinity
  | i32Sum, total | u32Sum, total | counter, total => total != 0
  | i32Min, total => total != GroupBy.i32Max
  | i32Max, total => total != GroupBy.i32Min
  | u32Min, total => total != u32MaxWord
  | u32Max, total => total != 0

/-- The atomic read-modify-write of the flush. -/
def flush (fl : F32Ops) : ReduceKind → Word → Word → Word
  | f32Sum, cur, total => fl.add cur total
  | f32Min, cur, total => if fl.lt total cur then total else cur
  | f32Max, cur, total => if fl.lt cur total then total else cur
  | k, cur, total => k.combine fl cur total

end ReduceKind

def sumKindFor : MetalDtype → ReduceKind
  | .f32 | .f64 => .f32Sum
  | .i32 | .i16 | .i8 | .i64 => .i32Sum
  | _ => .u32Sum

def minKindFor : MetalDtype → ReduceKind
  | .f32 | .f64 => .f32Min
  | .i32 | .i16 | .i8 | .i64 => .i32Min
  | _ => .u32Min

def maxKindFor : MetalDtype → ReduceKind
  | .f32 | .f64 => .f32Max
  | .i32 | .i16 | .i8 | .i64 => .i32Max
  | _ => .u32Max

def columnDtypeFor (sig : AggSignature) (name : String) : Option MetalDtype :=
  if name ∈ sig.columnOrder then sig.columnDtypes[sig.columnOrder.idxOf name]? else none

/-- The reduction kinds of one spec's output slots; a mean has two. -/
def aggSlots (sig : AggSignature) : AggSpec → List ReduceKind
  | .simple inputCol op _ =>
    let dt := (columnDtypeFor sig inputCol).getD .f32
    match op with
    | .count => [.counter]
    | .len => [.counter]
    | .sum => [sumKindFor dt]
    | .min => [minKindFor dt]
    | .max => [maxKindFor dt]
    | .mean => [sumKindFor dt, .counter]
  | .expression _ op _ =>
    match op with
    | .count => [.counter]
    | .len => [.counter]
    | .sum => [.f32Sum]
    | .min => [.f32Min]
    | .max => [.f32Max]
    | .mean => [.f32Sum, .counter]
  | .length _ => [.counter]

def buildAggSlots (specs : List AggSpec) (sig : AggSignature) : List (List ReduceKind) :=
  specs.map (aggSlots sig)

/-! The kernel. -/

/-- The buffers bound to the kernel's inputs, columns in slot order. -/
structure KernelInput where
  rowToGroup : List ℕ
  nRows : ℕ
  nGroups : ℕ
  columnOrder : List String
  columnDtypes : List MetalDtype
  values : List (List Word)
  validities : List (List UInt8)

namespace KernelInput

def rowValid (inp : KernelInput) (slot row : ℕ) : Bool :=
  bitAt (inp.validities.getD slot []) row != 0

def rowValue (inp : KernelInput) (slot row : ℕ) : Word := (inp.values.getD slot []).getD row 0

/-- `(float)val_<i>`: the conversion depends on the type the column is loaded as. -/
def rowFloat (fl : F32Ops) (inp : KernelInput) (slot row : ℕ) : Word :=
  match inp.columnDtypes.getD slot .f32 with
  | .f32 | .f64 => inp.rowValue slot row
  | .i32 | .i16 | .i8 | .i64 => fl.ofI32 (inp.rowValue slot row)
  | _ => fl.ofU32 (inp.rowValue slot row)

end KernelInput

def evalExprMsl (fl : F32Ops) (inp : KernelInput) (row : ℕ) : AggExpr → Word
  | .column name =>
    inp.rowFloat fl (if name ∈ inp.columnOrder then inp.columnOrder.idxOf name else 0) row
  | .literalF64 bits => fl.ofF64 bits
  | .literalI64 v => fl.ofI64 v
  | .binary op lhs rhs =>
    let l := evalExprMsl fl inp row lhs
    let r := evalExprMsl fl inp row rhs
    match op with
    | .add => fl.add l r
    | .sub => fl.sub l r
    | .mul => fl.mul l r
    | .div => fl.div l r

def exprValid (inp : KernelInput) (row : ℕ) (e : AggExpr) : Bool :=
  e.referencedColumns.all (fun c =>
    inp.rowValid (if c ∈ inp.columnOrder then inp.columnOrder.idxOf c else 0) row)

/-- What a row adds to slot `j` of a spec, if anything. -/
def aggRowUpdate (fl : F32Ops) (inp : KernelInput) (spec : AggSpec) (j row : ℕ) : Option Word :=
  match spec with
  | .simple inputCol op _ =>
    if inputCol ∈ inp.columnOrder then
      let slot := inp.columnOrder.idxOf inputCol
      match op with
      | .count => if inp.rowValid slot row then some 1 else none
      | .len => some 1
      | .sum | .min | .max => if inp.rowValid slot row then some (inp.rowValue slot row) else none
      | .mean =>
        if inp.rowValid slot row then some (if j = 0 then inp.rowValue slot row else 1) else none
    else none
  | .expression expr op _ =>
    match op with
    | .count => if exprValid inp row expr then some 1 else none
    | .len => some 1
    | .sum | .min | .max => if exprValid inp row expr then some (evalExprMsl fl inp row expr) else none
    | .mean =>
      if exprValid inp row expr then some (if j = 0 then evalExprMsl fl inp row expr else 1)
      else none
  | .length _ => some 1

/-- The rows a thread visits; lanes of a simdgroup, simdgroups of a threadgroup, threadgroups. -/
abbrev Grid := List (List (List (List ℕ)))

/-- One thread's row loop over its register array. -/
def threadAcc (fl : F32Ops) (inp : KernelInput) (k : ReduceKind) (update : ℕ → Option Word)
    (rows : List ℕ) : List Word :=
  rows.foldl (fun acc row =>
    let g := inp.rowToGroup.getD row 0
    if g ≥ inp.nGroups then acc
    else match update row with
      | none => acc
      | some v => acc.modify g (fun old => k.combine fl old v))
    (List.replicate maxGroups k.identity)

def simdReduce (fl : F32Ops) (k : ReduceKind) (lanes : List (List Word)) (gi : ℕ) : Word :=
  (lanes.map (fun acc => acc.getD gi 0)).foldl (k.combine fl) k.identity

/-- Thread 0's flushes for its threadgroup: one per group, unless the total is the identity. -/
def tgFlushes (fl : F32Ops) (inp : KernelInput) (k : ReduceKind) (update : ℕ → Option Word)
    (tg : List (List (List ℕ))) : List (ℕ × Word) :=
  let tgPart := tg.map (fun sg => simdReduce fl k (sg.map (threadAcc fl inp k update)))
  let totals := (List.range (min maxGroups inp.nGroups)).map
    (fun gi => (gi, (tgPart.map (fun part => part gi)).foldl (k.combine fl) k.identity))
  totals.filter (fun t => k.flushes fl t.2)

def gridFlushes (fl : F32Ops) (inp : KernelInput) (k : ReduceKind) (update : ℕ → Option Word)
    (grid : Grid) : List (ℕ × Word) :=
  grid.flatMap (tgFlushes fl inp k update)

/-- The device buffer after the atomics ran in the given order. -/
def runFlushes (fl : F32Ops) (k : ReduceKind) (out : List Word) (order : List (ℕ × Word)) :
    List Word :=
  order.foldl (fun out t => out.modify t.1 (fun cur => k.flush fl cur t.2)) out

/-- The dispatcher's own grid: thread `t` strides over `t, t + n_threads, …`. -/
def stridedRows (nRows nThreads thread : ℕ) : List ℕ :=
  (List.range nRows).filter (fun row => row % nThreads = thread)

def fusedGrid (nRows : ℕ) : Grid :=
  let nTgs := max 1 (min fusedMaxTgs ((nRows + fusedTgWidth - 1) / fusedTgWidth))
  let nThreads := nTgs * fusedTgWidth
  (List.range nTgs).map (fun tg =>
    (List.range (fusedTgWidth / simdWidth)).map (fun sg =>
      (List.range simdWidth).map (fun lane =>
        stridedRows nRows nThreads (tg * fusedTgWidth + sg * simdWidth + lane))))

/-! The dispatcher. -/

inductive ValueColumn where
  | i64 (data : List (BitVec 64)) (valid : List UInt8)
  | f64 (data : List (BitVec 64)) (valid : List UInt8)
  | i32 (data : List Word) (valid : List UInt8)
  | f32 (data : List Word) (valid : List UInt8)
deriving DecidableEq

inductive AggOutput where
  | i64 (values : List (BitVec 64)) (valid : List Bool)
  | f64 (values : List (BitVec 64)) (valid : List Bool)
  | u64 (values : List ℕ)
  | i32 (values : List Word) (valid : List Bool)
  | f32 (values : List Word) (valid : List Bool)
deriving DecidableEq, Repr

structure GroupByResult where
  aggOutputs : List AggOutput
  nGroups : ℕ
deriving DecidableEq, Repr

inductive FusedDispatchError where
  | outputTooShort (got need : ℕ)
  | rowCountOverflow (nRows : ℕ)
  | signature (e : AggSignatureError)
  | signatureNotFused
  | ngroupsExceedsFusedCap (nGroups maxGroups : ℕ)
  | missingValueColumn (slot : ℕ) (name : String)
  | valueDtypeMismatch (name : String) (sigDt : MetalDtype) (got : String)
deriving DecidableEq

abbrev ValueColumns := List (String × ValueColumn)

def ValueColumn.dtype : ValueColumn → MetalDtype
  | i32 _ _ => .i32
  | f32 _ _ => .f32
  | i64 _ _ => .i64
  | f64 _ _ => .f64

def ValueColumn.dtypeName : ValueColumn → String
  | i32 _ _ => "I32"
  | f32 _ _ => "F32"
  | i64 _ _ => "I64"
  | f64 _ _ => "F64"

def insertDtype (byName : ValueColumns) (out : ColDtypes) (name : String) :
    Except FusedDispatchError ColDtypes :=
  if (out.lookup name).isSome then .ok out
  else match byName.lookup name with
    | some vcol => .ok (out ++ [(name, vcol.dtype)])
    | none => .error (.missingValueColumn out.length name)

def collectDtypes (byName : ValueColumns) (specs : List AggSpec) :
    Except FusedDispatchError ColDtypes :=
  (specs.flatMap AggSpec.referencedColumns).foldlM (insertDtype byName) []

def vcolBytesForSlot (vcol : ValueColumn) (sigDt : MetalDtype) (name : String) :
    Except FusedDispatchError (List Word × List UInt8) :=
  match sigDt, vcol with
  | .i32, .i32 data valid => .ok (data, valid)
  | .f32, .f32 data valid => .ok (data, valid)
  | sigDt, got => .error (.valueDtypeMismatch name sigDt got.dtypeName)

def slotBuffers (byName : ValueColumns) (nRows : ℕ) (entry : (String × MetalDtype) × ℕ) :
    Except FusedDispatchError (List Word × List UInt8) := do
  let ((name, sigDt), slot) := entry
  match byName.lookup name with
  | none => throw (.missingValueColumn slot name)
  | some vcol =>
    let (data, valid) ← vcolBytesForSlot vcol sigDt name
    if valid.length < (nRows + 7) / 8 then
      throw (.outputTooShort valid.length ((nRows + 7) / 8))
    return (data, valid.take ((nRows + 7) / 8))

inductive PrimaryKind where
  | u32 | i32 | f32Bits
deriving DecidableEq, Repr

def primaryKindFor (op : AggOp) (inputDt : MetalDtype) : PrimaryKind :=
  match op with
  | .count | .len => .u32
  | _ => match inputDt with
    | .f32 | .f64 => .f32Bits
    | .i32 | .i16 | .i8 | .i64 => .i32
    | .u32 | .u16 | .u8 | .bool => .u32
    | .u64 | .utf8 => .u32

/-- The seed of an output buffer. -/
def primarySeed : AggOp → PrimaryKind → Word
  | .sum, _ | .count, _ | .len, _ | .mean, _ => 0
  | .min, .i32 => i32Max
  | .min, .u32 => u32MaxWord
  | .min, .f32Bits => f32Infinity
  | .max, .i32 => i32Min
  | .max, .u32 => 0
  | .max, .f32Bits => f32NegInfinity

def emptyOutputForKagg : AggSpec → AggOutput
  | .simple _ op _ | .expression _ op _ =>
    match op with
    | .count | .len => .u64 []
    | _ => .f32 [] []
  | .length _ => .u64 []

/-- The op and dtype a spec is allocated and finalised by. -/
def allocationOf (colDtypes : ColDtypes) : AggSpec → Except FusedDispatchError (AggOp × MetalDtype)
  | .simple inputCol op _ =>
    match colDtypes.lookup inputCol with
    | some dt => .ok (op, dt)
    | none => .error (.missingValueColumn 0 inputCol)
  | .expression _ op _ => .ok (op, .f32)
  | .length _ => .ok (.len, .u32)

def meanFromSumCount (toFloat : Word → Word) (fl : F32Ops) (sums counts : List Word) : AggOutput :=
  let pairs := sums.zip counts
  .f32 (pairs.map (fun (s, c) => if c = 0 then 0 else fl.div (toFloat s) (fl.ofU32 c)))
    (pairs.map (fun (_, c) => c != 0))

def finalizeSimpleLike (fl : F32Ops) (op : AggOp) (kind : PrimaryKind) (primary : List Word)
    (nGroups : ℕ) (counts : List Word) : AggOutput :=
  match op with
  | .count => .u64 (primary.map BitVec.toNat)
  | .len => .u64 (primary.map BitVec.toNat)
  | .sum => match kind with
    | .i32 => .i32 primary (List.replicate nGroups true)
    | .u32 => .i32 primary (List.replicate nGroups true)
    | .f32Bits => .f32 primary (List.replicate nGroups true)
  | .mean => match kind with
    | .i32 => meanFromSumCount fl.ofI32 fl primary counts
    | .u32 => meanFromSumCount fl.ofU32 fl primary counts
    | .f32Bits => meanFromSumCount id fl primary counts
  -- no count companion is materialised: every group is treated as valid
  | .min | .max => match kind with
    | .i32 => .i32 primary (List.replicate nGroups true)
    | .u32 => .i32 primary (List.replicate nGroups true)
    | .f32Bits => .f32 primary (List.replicate nGroups true)

/-- The order in which the flushes of slot `j` of spec `a` reach the device. -/
abbrev FlushOrder := ℕ → ℕ → List (ℕ × Word)

/-- One spec: allocate, run the kernel's slots, finalise. -/
def runFusedAgg (fl : F32Ops) (inp : KernelInput) (sig : AggSignature) (colDtypes : ColDtypes)
    (order : FlushOrder) (entry : AggSpec × ℕ) : Except FusedDispatchError AggOutput := do
  let (spec, a) := entry
  let (op, dt) ← allocationOf colDtypes spec
  let kind := primaryKindFor op dt
  let slots := aggSlots sig spec
  let buffer := fun (j : ℕ) (seed : Word) =>
    runFlushes fl (slots.getD j .counter) (List.replicate inp.nGroups seed) (order a j)
  return finalizeSimpleLike fl op kind (buffer 0 (primarySeed op kind)) inp.nGroups
    (if op = .mean then buffer 1 0 else List.replicate inp.nGroups 0)

def kernelInput (sig : AggSignature) (buffers : List (List Word × List UInt8)) (nRows : ℕ)
    (build : BuildOutput) : KernelInput where
  rowToGroup := build.rowToGroup
  nRows := nRows
  nGroups := build.nGroups
  columnOrder := sig.columnOrder
  columnDtypes := sig.columnDtypes
  values := buffers.map Prod.fst
  validities := buffers.map Prod.snd

/-- The signature and kernel inputs the dispatcher binds. -/
def fusedPrepare (specs : List AggSpec) (byName : ValueColumns) (nRows : ℕ) (build : BuildOutput) :
    Except FusedDispatchError (ColDtypes × AggSignature × KernelInput) := do
  let colDtypes ← collectDtypes byName specs
  let sig ← (AggSignature.fromSpecs specs colDtypes).mapError .signature
  if signatureSupportedByFused sig = false then throw .signatureNotFused
  if build.nGroups > maxGroups then throw (.ngroupsExceedsFusedCap build.nGroups maxGroups)
  let buffers ← (sig.columnOrder.zip sig.columnDtypes).zipIdx.mapM (slotBuffers byName nRows)
  if nRows ≥ 2 ^ 32 then throw (.rowCountOverflow nRows)
  return (colDtypes, sig, kernelInput sig buffers nRows build)

/-- The flushes the kernel issues for slot `j` of spec `a` on a grid. -/
def fusedFlushes (fl : F32Ops) (specs : List AggSpec) (sig : AggSignature) (inp : KernelInput)
    (grid : Grid) (a j : ℕ) : List (ℕ × Word) :=
  match specs[a]? with
  | none => []
  | some spec =>
    gridFlushes fl inp ((aggSlots sig spec).getD j .counter) (aggRowUpdate fl inp spec j) grid

/-- The fused path after the group build; `order` is one run of the kernel's atomics. -/
def dispatchGroupbyFused (fl : F32Ops) (specs : List AggSpec) (byName : ValueColumns) (nRows : ℕ)
    (build : BuildOutput) (order : FlushOrder) : Except FusedDispatchError GroupByResult := do
  if nRows = 0 then return ⟨specs.map emptyOutputForKagg, 0⟩
  let (colDtypes, sig, inp) ← fusedPrepare specs byName nRows build
  let aggOutputs ← specs.zipIdx.mapM (runFusedAgg fl inp sig colDtypes order)
  return ⟨aggOutputs, build.nGroups⟩

end PolarsMetal.GroupBy
