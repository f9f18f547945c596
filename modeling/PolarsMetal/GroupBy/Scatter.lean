import PolarsMetal.GroupBy.Build
import PolarsMetal.Lib.Interleave
import PolarsMetal.Lib.Threads

/-! The scatter phase of the partitioned build, on the scratch buffers that are kept between builds.
The threads of its two kernels take turns in any order, each turn one access to device memory; an
allocation or a dispatch may fail, and the scratch stays as it is by then. -/

namespace PolarsMetal.GroupBy
open Threads

/-! The scratch. -/

/-- The device buffers, as the numbers in them. -/
structure BuildScratch where
  keys : List Lane
  counts : List ℕ
  cursors : List ℕ
  overflow : List ℕ
  offsets : List ℕ
  rowIdx : List ℕ
  pid : List ℕ
  r2lg : List ℕ
  ngPerPart : List ℕ
  nRowsBuf : ℕ
  nPartBuf : ℕ
  log2Buf : ℕ
  capacityRows : ℕ
  capacityPartitions : ℕ
deriving DecidableEq, Repr

def newBufferZeroed (n : ℕ) : List ℕ := List.replicate n 0

/-- Every buffer is seeded with 16 bytes, one key or four words. -/
def BuildScratch.new : BuildScratch where
  keys := [0]
  counts := newBufferZeroed 4
  cursors := newBufferZeroed 4
  overflow := newBufferZeroed 4
  offsets := newBufferZeroed 4
  rowIdx := newBufferZeroed 4
  pid := newBufferZeroed 4
  r2lg := newBufferZeroed 4
  ngPerPart := newBufferZeroed 4
  nRowsBuf := 0
  nPartBuf := 0
  log2Buf := 0
  capacityRows := 0
  capacityPartitions := 0

/-- The allocations for more partitions; the capacity follows the last. -/
def growPartitions (np : ℕ) : List (BuildScratch → BuildScratch) :=
  [fun s => { s with counts := newBufferZeroed np },
    fun s => { s with cursors := newBufferZeroed np },
    fun s => { s with offsets := newBufferZeroed (np + 1) },
    fun s => { s with ngPerPart := newBufferZeroed np, capacityPartitions := np }]

/-- The allocations for more rows; the capacity follows the last. -/
def growRows (nRows : ℕ) : List (BuildScratch → BuildScratch) :=
  [fun s => { s with keys := List.replicate nRows 0 },
    fun s => { s with rowIdx := newBufferZeroed nRows },
    fun s => { s with pid := newBufferZeroed nRows },
    fun s => { s with r2lg := newBufferZeroed nRows, capacityRows := nRows }]

namespace BuildScratch

/-- `allocs` allocations go through before one fails; the flag says that none had to. -/
def ensure (allocs : ℕ) (s : BuildScratch) (nRows np : ℕ) : BuildScratch × Bool :=
  let grow := (if np > s.capacityPartitions then growPartitions np else []) ++
    (if nRows > s.capacityRows then growRows nRows else [])
  ((grow.take allocs).foldl (fun s alloc => alloc s) s, decide (grow.length ≤ allocs))

/-- `none` is the slice's panic. -/
def zeroPrefix (buf : List ℕ) (n : ℕ) : Option (List ℕ) :=
  if n ≤ buf.length then some (List.replicate n 0 ++ buf.drop n) else none

/-- `none` is the slice's panic. -/
def copyPrefix {α : Type} (src dst : List α) : Option (List α) :=
  if src.length ≤ dst.length then some (src ++ dst.drop src.length) else none

def reset (s : BuildScratch) (nRows np log2Tgsm : ℕ) : Option BuildScratch := do
  let counts ← zeroPrefix s.counts np
  let cursors ← zeroPrefix s.cursors np
  let overflow ← zeroPrefix s.overflow 1
  return { s with
    counts := counts, cursors := cursors, overflow := overflow
    nRowsBuf := nRows, nPartBuf := np, log2Buf := log2Tgsm }

def writeKeys (s : BuildScratch) (keys : List Lane) : Option BuildScratch := do
  return { s with keys := ← copyPrefix keys s.keys }

def writeOffsets (s : BuildScratch) (partitionOffsets : List ℕ) : Option BuildScratch := do
  return { s with offsets := ← copyPrefix partitionOffsets s.offsets }

end BuildScratch

/-- `none` is the slice's panic. -/
def readbackU32 (buf : List ℕ) (n : ℕ) : Option (List ℕ) :=
  if n ≤ buf.length then some (buf.take n) else none

/-! The kernels. -/

/-- `partition_id` with the shader's arguments. -/
def devicePartitionId (key : Lane) (nPartitions log2TgsmSlots : ℕ) : ℕ :=
  ((hashU128 key >>> log2TgsmSlots).toNat) &&& (nPartitions - 1)

inductive CountPc where
  | start
  | done
deriving DecidableEq, Repr

/-- A turn of thread `gid` of `partition_count`. -/
def partitionCount (s : BuildScratch) (gid : ℕ) (pc : CountPc) (counts : List ℕ) :
    CountPc × List ℕ :=
  match pc with
  | .start =>
    if gid ≥ s.nRowsBuf then (.done, counts)
    else
      let p := devicePartitionId (s.keys.getD gid 0) s.nPartBuf s.log2Buf
      (.done, counts.set p (asU32 (counts.getD p 0 + 1)))
  | .done => (.done, counts)

inductive ScatterPc where
  | start
  | storeRow (p slot : ℕ)
  | storePid (p : ℕ)
  | done
deriving DecidableEq, Repr

structure ScatterMem where
  cursors : List ℕ
  rowIdx : List ℕ
  pid : List ℕ

/-- A turn of thread `gid` of `partition_scatter`. -/
def partitionScatterTurn (s : BuildScratch) (gid : ℕ) (pc : ScatterPc) (m : ScatterMem) :
    ScatterPc × ScatterMem :=
  match pc with
  | .start =>
    if gid ≥ s.nRowsBuf then (.done, m)
    else
      let p := devicePartitionId (s.keys.getD gid 0) s.nPartBuf s.log2Buf
      let slot := m.cursors.getD p 0
      (.storeRow p slot, { m with cursors := m.cursors.set p (asU32 (slot + 1)) })
  | .storeRow p slot =>
    (.storePid p, { m with rowIdx := m.rowIdx.set (asU32 (s.offsets.getD p 0 + slot)) gid })
  | .storePid p => (.done, { m with pid := m.pid.set gid p })
  | .done => (.done, m)

/-! The host. -/

inductive ScatterError where
  | buffer
  | dispatch
  | rowOverflow
deriving DecidableEq, Repr

/-- What the machine decides in one build. -/
structure ScatterRun where
  /-- how many allocations go through -/
  allocs : ℕ
  /-- how many dispatches go through -/
  dispatches : ℕ
  countOrder : List ℕ
  scatterOrder : List ℕ
  /-- what `partition_build` stores, in the order it takes effect -/
  r2lgStores : List (ℕ × ℕ)
  ngStores : List (ℕ × ℕ)
  overflowStores : List (ℕ × ℕ)

/-- The running sums of `counts`, on 32 bits. -/
def exclusiveScan : ℕ → List ℕ → List ℕ
  | total, [] => [total]
  | total, count :: counts => total :: exclusiveScan (asU32 (total + count)) counts

def log2Tgsm : ℕ := 10

/-- `none` is a panic; a dispatch that fails has run some turns of its threads. -/
def scatterPhase (g : ScatterRun) (s : BuildScratch) (np : ℕ) :
    Option (BuildScratch × Except ScatterError (List ℕ)) := do
  let s := { s with counts := (launch (partitionCount s) s.counts .start g.countOrder).mem }
  if g.dispatches = 0 then return (s, .error .dispatch)
  let counts ← readbackU32 s.counts np
  let partitionOffsets := exclusiveScan 0 counts
  let s ← s.writeOffsets partitionOffsets
  let m := (launch (partitionScatterTurn s) ⟨s.cursors, s.rowIdx, s.pid⟩ .start g.scatterOrder).mem
  let s := { s with cursors := m.cursors, rowIdx := m.rowIdx, pid := m.pid }
  if g.dispatches = 1 then return (s, .error .dispatch)
  return (s, .ok partitionOffsets)

/-- What both entry points do once the arguments are checked. -/
def scatterRows (g : ScatterRun) (s : BuildScratch) (keys : List Lane) (np : ℕ) :
    Option (BuildScratch × Except ScatterError (List ℕ)) := do
  let (s, grown) := s.ensure g.allocs keys.length np
  if grown = false then return (s, .error .buffer)
  let s ← s.reset keys.length np log2Tgsm
  let s ← s.writeKeys keys
  scatterPhase g s np

structure ScatterOutput where
  rowIndices : List ℕ
  partitionOffsets : List ℕ
  partitionIdPerRow : List ℕ
deriving DecidableEq, Repr

/-- The one-shot scatter, on a scratch of its own. -/
def partitionAndScatter (g : ScatterRun) (keys : List Lane) (np : ℕ) :
    Option (Except ScatterError ScatterOutput) :=
  if keys = [] then some (.ok ⟨[], List.replicate (np + 1) 0, []⟩)
  -- the assert
  else if np ≠ 2 ^ np.log2 then none
  else do
    -- the rows are counted after the allocation
    if keys.length ≥ 2 ^ 32 then
      return .error (if (BuildScratch.new.ensure g.allocs keys.length np).2 then .rowOverflow
        else .buffer)
    let (s, scattered) ← scatterRows g .new keys np
    match scattered with
    | .error e => return .error e
    | .ok partitionOffsets =>
      let rowIndices ← readbackU32 s.rowIdx keys.length
      let partitionIdPerRow ← readbackU32 s.pid keys.length
      return .ok ⟨rowIndices, partitionOffsets, partitionIdPerRow⟩

/-- A build on the kept scratch, as far as the scratch goes. `partition_build` reads the keys, the
rows and the offsets and stores in the other buffers; what it makes of them is the build's. -/
def buildOnScratch (g : ScatterRun) (s : BuildScratch) (keys : List Lane) (np : ℕ) :
    Option (BuildScratch × Except ScatterError (List ℕ)) :=
  if keys = [] then some (s, .ok [])
  -- the assert
  else if np ≠ 2 ^ np.log2 then none
  else if keys.length ≥ 2 ^ 32 then some (s, .error .rowOverflow)
  else do
    let (s, scattered) ← scatterRows g s keys np
    match scattered with
    | .error e => return (s, .error e)
    | .ok partitionOffsets =>
      return ({ s with
        r2lg := g.r2lgStores.foldl Interleave.store s.r2lg
        ngPerPart := g.ngStores.foldl Interleave.store s.ngPerPart
        overflow := g.overflowStores.foldl Interleave.store s.overflow }, .ok partitionOffsets)

/-- A scratch as a sequence of builds may leave it, whatever became of each. -/
inductive Reachable : BuildScratch → Prop
  | new : Reachable .new
  | build {s s' : BuildScratch} {g : ScatterRun} {keys : List Lane} {np : ℕ}
      {out : Except ScatterError (List ℕ)} (h : Reachable s)
      (hrun : buildOnScratch g s keys np = some (s', out)) : Reachable s'

/-- The allocations and dispatches go through, and every thread gets its turns. -/
structure ScatterRun.Completes (g : ScatterRun) (nRows : ℕ) : Prop where
  allocs : 8 ≤ g.allocs
  dispatches : 2 ≤ g.dispatches
  count : ∀ gid < nRows, 1 ≤ g.countOrder.count gid
  scatter : ∀ gid < nRows, 3 ≤ g.scatterOrder.count gid

/-- `rowIndices` lists the rows `0 .. n`, and between a partition's offset and the next one stand
the rows whose keys hash to it. -/
structure PartitionsRows (keys : List Lane) (np : ℕ) (rowIndices offsets : List ℕ) : Prop where
  perm : rowIndices.Perm (List.range keys.length)
  length : offsets.length = np + 1
  first : offsets.getD 0 0 = 0
  slice : ∀ p < np, offsets.getD p 0 ≤ offsets.getD (p + 1) 0 ∧
    offsets.getD (p + 1) 0 ≤ keys.length ∧
    ∀ r, r ∈ (rowIndices.take (offsets.getD (p + 1) 0)).drop (offsets.getD p 0) ↔
      r < keys.length ∧ partitionId (keys.getD r 0) np = p

end PolarsMetal.GroupBy
