import PolarsMetal.Lib.Bitmap
import PolarsMetal.Lib.Interleave

/-! The filter compaction pipeline: keep flags, their prefix sum, and the scatter of one
column. The kernels' threads take their memory operations in any order; an `order` is the
GPU's. -/

namespace PolarsMetal.Filter
open Bitmap Interleave

inductive FilterError where
  | inputLengthMismatch (predBytes minBytes nRows : ℕ)
  | outputLengthMismatch (got expected : ℕ)
  | rowCountOverflow (nRows : ℕ)
  | scatterOverrun
  | dstDataTooSmall (got expected : ℕ)
  | dstValidTooSmall (got expected : ℕ)
  | dstDataBoolTooSmall (got expected : ℕ)
  | scatterPrefixSumMismatch (lastPrefix nOut : ℕ)
deriving DecidableEq, Repr

inductive PipelineError where
  | filter (error : FilterError)
  | cumsum (message : String)
deriving DecidableEq, Repr

def scatterSentinelI64 : BitVec 64 := 0xDEADBEEFCAFEBABE
def scatterSentinelF64Bits : BitVec 64 := 0x7FFDEADBEEFCAFE0

/-! The kernels. -/

def getValid (bitmap : List UInt8) (row : ℕ) : Bool := bitAt bitmap row != 0

def setValidAtomicOr (words : List (BitVec 32)) (row : ℕ) : List (BitVec 32) :=
  let byteIdx := row >>> 3
  let wordIdx := byteIdx >>> 2
  let bitInWord := ((byteIdx &&& 3) <<< 3) ||| (row &&& 7)
  words.modify wordIdx (fun word => word ||| 1#32 <<< bitInWord)

/-- `filter_predicate_to_u8`: a thread stores its row's flag. -/
def predicateThread (predData predValid : List UInt8) (nRows gid : ℕ) : List (ℕ × UInt8) :=
  if gid ≥ nRows then []
  else [(gid, if getValid predData gid && getValid predValid gid then 1 else 0)]

/-- A scatter thread's operations: a 64-bit store, or an OR into the data or validity words. -/
inductive DeviceOp where
  | store (slot : ℕ) (value : BitVec 64)
  | orData (row : ℕ)
  | orValid (row : ℕ)
deriving DecidableEq, Repr

/-- The output buffers; `dst_data` is `slots` or, for booleans, `dataWords`. -/
structure DeviceMem where
  slots : List (BitVec 64)
  dataWords : List (BitVec 32)
  validWords : List (BitVec 32)
deriving DecidableEq, Repr

def DeviceMem.apply (mem : DeviceMem) : DeviceOp → DeviceMem
  | .store slot value => { mem with slots := mem.slots.set slot value }
  | .orData row => { mem with dataWords := setValidAtomicOr mem.dataWords row }
  | .orValid row => { mem with validWords := setValidAtomicOr mem.validWords row }

/-- The inputs the scatter kernels share. -/
structure ScatterArgs where
  srcValid : List UInt8
  keep : List UInt8
  prefixSum : List ℕ
  nRows : ℕ
  nOut : ℕ

/-- `prefix_sum[gid] - 1u` -/
def ScatterArgs.outIdx (a : ScatterArgs) (gid : ℕ) : ℕ :=
  (a.prefixSum.getD gid 0 + (2 ^ 32 - 1)) % 2 ^ 32

/-- `filter_scatter_i64` and `filter_scatter_f64`, which differ in the sentinel. -/
def scatterThread64 (sentinel : BitVec 64) (srcData : List (BitVec 64)) (a : ScatterArgs)
    (gid : ℕ) : List DeviceOp :=
  if gid ≥ a.nRows then []
  else if a.keep.getD gid 0 = 0 then []
  else if a.outIdx gid ≥ a.nOut then [.store a.nOut sentinel]
  else .store (a.outIdx gid) (srcData.getD gid 0) ::
    if getValid a.srcValid gid then [.orValid (a.outIdx gid)] else []

/-- `filter_scatter_bool` -/
def scatterThreadBool (srcData : List UInt8) (a : ScatterArgs) (gid : ℕ) : List DeviceOp :=
  if gid ≥ a.nRows then []
  else if a.keep.getD gid 0 = 0 then []
  else if a.outIdx gid ≥ a.nOut then []
  else (if getValid srcData gid then [.orData (a.outIdx gid)] else []) ++
    if getValid a.srcValid gid then [.orValid (a.outIdx gid)] else []

/-! The dispatchers. -/

def minBytes (n : ℕ) : ℕ := (n + 7) / 8

/-- `(raw + 3) & !3`, at least one word. -/
def dstValidMinBytes (nOut : ℕ) : ℕ :=
  let padded := (minBytes nOut + 3) - (minBytes nOut + 3) % 4
  max padded 4

def zeroWords (bytes : ℕ) : List (BitVec 32) := List.replicate (bytes / 4) 0

def u32TryFrom (n : ℕ) : Except FilterError ℕ :=
  if n < 2 ^ 32 then .ok n else .error (.rowCountOverflow n)

def dispatchPredicateToU8 (order : List ℕ) (predData predValid : List UInt8) (nRows : ℕ)
    (out : List UInt8) : Except FilterError (List UInt8) := do
  if out.length ≠ nRows then throw (.outputLengthMismatch out.length nRows)
  if nRows = 0 then return out
  if predData.length < minBytes nRows then
    throw (.inputLengthMismatch predData.length (minBytes nRows) nRows)
  if predValid.length < minBytes nRows then
    throw (.inputLengthMismatch predValid.length (minBytes nRows) nRows)
  let n ← u32TryFrom nRows
  return exec (predicateThread (predData.take (minBytes nRows)) (predValid.take (minBytes nRows)) n)
    store (List.replicate nRows 0) order

/-- What the scatter kernels are handed for `src_valid`, `keep` and `prefix_sum`. -/
def scatterArgs (srcValid keep : List UInt8) (prefixSum : List ℕ) (nRows nOut : ℕ) : ScatterArgs :=
  ⟨srcValid.take (minBytes nRows), keep, prefixSum, nRows, nOut⟩

abbrev ScatterDispatch := List ℕ → List (BitVec 64) → List UInt8 → List UInt8 → List ℕ → ℕ →
  List (BitVec 64) → List UInt8 → Except FilterError (List (BitVec 64) × List UInt8)

/-- The body `dispatch_scatter_i64` and `dispatch_scatter_f64` share. -/
def dispatchScatter64 (sentinel : BitVec 64) : ScatterDispatch :=
    fun order srcData srcValid keep prefixSum nOut dstData dstValid => do
  let nRows := srcData.length
  if keep.length ≠ nRows then throw (.outputLengthMismatch keep.length nRows)
  if prefixSum.length ≠ nRows then throw (.outputLengthMismatch prefixSum.length nRows)
  -- `checked_add`
  if 2 ^ 64 ≤ nOut + 1 then throw (.rowCountOverflow nOut)
  if dstData.length < nOut + 1 then throw (.dstDataTooSmall dstData.length (nOut + 1))
  if dstValid.length < dstValidMinBytes nOut then
    throw (.dstValidTooSmall dstValid.length (dstValidMinBytes nOut))
  if srcValid.length < minBytes nRows then
    throw (.inputLengthMismatch srcValid.length (minBytes nRows) nRows)
  if nRows = 0 then return (dstData, dstValid)
  let nRowsU32 ← u32TryFrom nRows
  let nOutU32 ← u32TryFrom nOut
  let mem := exec
    (scatterThread64 sentinel srcData (scatterArgs srcValid keep prefixSum nRowsU32 nOutU32))
    DeviceMem.apply ⟨List.replicate (nOut + 1) 0, [], zeroWords (dstValidMinBytes nOut)⟩ order
  let dstData := mem.slots ++ dstData.drop (nOut + 1)
  let dstValid := toBytes mem.validWords ++ dstValid.drop (dstValidMinBytes nOut)
  if dstData.getD nOut 0 = sentinel then throw .scatterOverrun
  return (dstData, dstValid)

def dispatchScatterI64 : ScatterDispatch := dispatchScatter64 scatterSentinelI64

def dispatchScatterF64 : ScatterDispatch := dispatchScatter64 scatterSentinelF64Bits

def dispatchScatterBool (order : List ℕ) (srcData srcValid keep : List UInt8) (prefixSum : List ℕ)
    (nRows nOut : ℕ) (dstData dstValid : List UInt8) :
    Except FilterError (List UInt8 × List UInt8) := do
  if keep.length ≠ nRows then throw (.outputLengthMismatch keep.length nRows)
  if prefixSum.length ≠ nRows then throw (.outputLengthMismatch prefixSum.length nRows)
  if srcData.length < minBytes nRows then
    throw (.inputLengthMismatch srcData.length (minBytes nRows) nRows)
  if srcValid.length < minBytes nRows then
    throw (.inputLengthMismatch srcValid.length (minBytes nRows) nRows)
  if dstData.length < dstValidMinBytes nOut then
    throw (.dstDataBoolTooSmall dstData.length (dstValidMinBytes nOut))
  if dstValid.length < dstValidMinBytes nOut then
    throw (.dstValidTooSmall dstValid.length (dstValidMinBytes nOut))
  if nRows = 0 then return (dstData, dstValid)
  let nOutU32 ← u32TryFrom nOut
  if prefixSum.getD (nRows - 1) 0 ≠ nOutU32 then
    throw (.scatterPrefixSumMismatch (prefixSum.getD (nRows - 1) 0) nOut)
  let nRowsU32 ← u32TryFrom nRows
  let mem := exec
    (scatterThreadBool (srcData.take (minBytes nRows))
      (scatterArgs srcValid keep prefixSum nRowsU32 nOutU32))
    DeviceMem.apply
    ⟨[], zeroWords (dstValidMinBytes nOut), zeroWords (dstValidMinBytes nOut)⟩ order
  return (toBytes mem.dataWords ++ dstData.drop (dstValidMinBytes nOut),
    toBytes mem.validWords ++ dstValid.drop (dstValidMinBytes nOut))

/-! The pipeline. -/

/-- The MLX cumulative sum of a slice of bytes. -/
abbrev Cumsum := List UInt8 → Except String (List ℕ)

def computeKeepAndPrefix (cumsum : Cumsum) (order : List ℕ) (predData predValid : List UInt8)
    (nRows : ℕ) : Except PipelineError (List UInt8 × List ℕ × ℕ) := do
  if nRows = 0 then return ([], [], 0)
  let keep ← (dispatchPredicateToU8 order predData predValid nRows
    (List.replicate nRows 0)).mapError .filter
  let prefixSum ← (cumsum keep).mapError .cumsum
  return (keep, prefixSum, prefixSum.getD (nRows - 1) 0)

structure CompactionResult (α : Type) where
  data : List α
  valid : List UInt8
  nOut : ℕ
deriving DecidableEq, Repr

def compact64 (dispatchScatter : ScatterDispatch) (order : List ℕ) (srcData : List (BitVec 64))
    (srcValid keep : List UInt8) (prefixSum : List ℕ) (nOut : ℕ) :
    Except PipelineError (CompactionResult (BitVec 64)) := do
  let (dstData, dstValid) ← (dispatchScatter order srcData srcValid keep prefixSum nOut
    (List.replicate (nOut + 1) 0) (List.replicate (dstValidMinBytes nOut) 0)).mapError .filter
  return ⟨dstData.take nOut, dstValid, nOut⟩

def compactI64 := compact64 dispatchScatterI64

/-- On the bit patterns of the doubles. -/
def compactF64 := compact64 dispatchScatterF64

def compactBool (order : List ℕ) (srcData srcValid keep : List UInt8) (prefixSum : List ℕ)
    (nRows nOut : ℕ) : Except PipelineError (CompactionResult UInt8) := do
  let (dstData, dstValid) ← (dispatchScatterBool order srcData srcValid keep prefixSum nRows nOut
    (List.replicate (dstValidMinBytes nOut) 0)
    (List.replicate (dstValidMinBytes nOut) 0)).mapError .filter
  return ⟨dstData, dstValid, nOut⟩

end PolarsMetal.Filter
