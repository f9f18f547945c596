import PolarsMetal.GroupBy.Keys
import PolarsMetal.Lib.ProbeTable
import PolarsMetal.Lib.StableSort
import Std.Data.HashMap.Basic
import Mathlib.Data.Nat.Log

/-! The group builds: one pass over a hash map, a partitioned build with one
open-addressing table per partition, and a radix sort followed by a segment
scan. All return a `BuildOutput` for the router. -/

namespace PolarsMetal.GroupBy
open Bitmap ProbeTable StableSort

structure BuildOutput where
  rowToGroup : List ℕ
  firstRowPerGroup : List ℕ
  nGroups : ℕ
deriving DecidableEq, Repr

def u32Max : ℕ := 2 ^ 32 - 1

/-- The `as u32` cast. -/
def asU32 (n : ℕ) : ℕ := n % 2 ^ 32

/-! Hash map build. -/

structure HashMapState where
  groupForKey : Std.HashMap Lane ℕ
  nextGid : ℕ
  rowToGroup : List ℕ
  firstRowPerGroup : List ℕ

def hashMapStep (s : HashMapState) (entry : Lane × ℕ) : HashMapState :=
  let (key, row) := entry
  match s.groupForKey[key]? with
  | some gid => { s with rowToGroup := s.rowToGroup ++ [gid] }
  | none =>
    { groupForKey := s.groupForKey.insert key s.nextGid
      nextGid := if s.nextGid + 1 < 2 ^ 32 then s.nextGid + 1 else u32Max
      rowToGroup := s.rowToGroup ++ [s.nextGid]
      firstRowPerGroup := s.firstRowPerGroup ++ [asU32 row] }

def cpuHashmapBuild (encoded : List Lane) : BuildOutput :=
  let s := encoded.zipIdx.foldl hashMapStep ⟨∅, 0, [], []⟩
  ⟨s.rowToGroup, s.firstRowPerGroup, s.nextGid⟩

/-! Partitioned build. -/

def hashU128 (key : Lane) : BitVec 64 :=
  let h : BitVec 64 := 0x9E3779B97F4A7C15
  let h := h ^^^ (key.setWidth 64 * 0xBF58476D1CE4E5B9)
  let h := h ^^^ ((key >>> 64).setWidth 64 * 0x94D049BB133111EB)
  let h := h ^^^ (h >>> 31)
  h * 0x9E3779B97F4A7C15

def tgsmSlotsPerPartition : ℕ := 1024

def partitionId (key : Lane) (nPartitions : ℕ) : ℕ :=
  ((hashU128 key >>> tgsmSlotsPerPartition.log2).toNat) &&& (nPartitions - 1)

def nextPowerOfTwo (n : ℕ) : ℕ := 2 ^ Nat.clog 2 n

def capacity (nRows : ℕ) : ℕ := max (nextPowerOfTwo (nRows * 2)) 8

/-- The probe loop; `none` when every slot was tried and the loop would go round again. -/
def probeLoop (slots : List (Option (Lane × ℕ))) (k : Lane) (cap : ℕ) : ℕ → ℕ → Option (Probe ℕ)
  | 0, _ => none
  | fuel + 1, idx =>
    match slots.getD idx none with
    | none => some (.vacant idx)
    | some (existing, gid) =>
      if existing = k then some (.found gid)
      else probeLoop slots k cap fuel ((idx + 1) &&& (cap - 1))

structure PartitionState where
  slots : List (Option (Lane × ℕ))
  table : List (Lane × ℕ)
  localNext : ℕ
  rowLocalGroup : List ℕ

def partitionStep (keys : List Lane) (cap : ℕ) (s : PartitionState) (r : ℕ) :
    Option PartitionState := do
  let k := keys.getD r 0
  let h := (hashU128 k).toNat
  match ← probeLoop s.slots k cap cap (h &&& (cap - 1)) with
  | .vacant idx =>
    return { slots := s.slots.set idx (some (k, s.localNext))
             table := s.table ++ [(k, s.localNext)]
             localNext := s.localNext + 1
             rowLocalGroup := s.rowLocalGroup.set r s.localNext }
  | .found gid => return { s with rowLocalGroup := s.rowLocalGroup.set r gid }

/-- The build of one partition: its group table, and the rows' local ids. -/
def buildPartition (keys : List Lane) (rows rowLocalGroup : List ℕ) :
    Option (List (Lane × ℕ) × List ℕ) := do
  let cap := capacity rows.length
  let s ← rows.foldlM (partitionStep keys cap)
    ⟨List.replicate cap none, [], 0, rowLocalGroup⟩
  return (s.table, s.rowLocalGroup)

def pushRow (nPartitions : ℕ) (rows : List (List ℕ)) (entry : Lane × ℕ) : List (List ℕ) :=
  rows.modify (partitionId entry.1 nPartitions) (fun bucket => bucket ++ [asU32 entry.2])

def rowsByPartition (keys : List Lane) (nPartitions : ℕ) : List (List ℕ) :=
  keys.zipIdx.foldl (pushRow nPartitions) (List.replicate nPartitions [])

def buildPartitions (keys : List Lane) (partitions : List (List ℕ)) :
    Option (List (List (Lane × ℕ)) × List ℕ) :=
  partitions.foldlM (fun (tables, rowLocalGroup) rows => do
    let (table, rowLocalGroup) ← buildPartition keys rows rowLocalGroup
    return (tables ++ [table], rowLocalGroup)) ([], List.replicate keys.length 0)

/-- Running totals, one more than the lengths they sum. -/
def offsetsFrom : ℕ → List ℕ → List ℕ
  | total, [] => [total]
  | total, n :: ns => total :: offsetsFrom (total + asU32 n) ns

def globalStep (partitionOffset rowLocalGroup : List ℕ) (nPartitions : ℕ)
    (out : List ℕ × List ℕ) (entry : Lane × ℕ) : List ℕ × List ℕ :=
  let (k, r) := entry
  let global := partitionOffset.getD (partitionId k nPartitions) 0 + rowLocalGroup.getD r 0
  (out.1.set r global,
    if out.2.getD global 0 = u32Max then out.2.set global (asU32 r) else out.2)

def cpuPartitionedHash (keys : List Lane) (nPartitions : ℕ) : Option BuildOutput :=
  if keys = [] then some ⟨[], [], 0⟩
  -- the assert
  else if nPartitions ≠ 2 ^ nPartitions.log2 then none
  else do
    let (tables, rowLocalGroup) ← buildPartitions keys (rowsByPartition keys nPartitions)
    let partitionOffset := offsetsFrom 0 (tables.map List.length)
    let nGroups := partitionOffset.getD nPartitions 0
    let (rowToGroup, firstRowPerGroup) :=
      keys.zipIdx.foldl (globalStep partitionOffset rowLocalGroup nPartitions)
        (List.replicate keys.length 0, List.replicate nGroups u32Max)
    return ⟨rowToGroup, firstRowPerGroup, nGroups⟩

/-! Sort build. -/

/-- The byte of a key that a lane pass sorts by. -/
def laneDigit (lane : ℕ) (pair : Lane × ℕ) : ℕ := ((pair.1 >>> (8 * lane)) &&& 0xFF).toNat

/-- One stable pass over the (key, row) pairs by one byte of the key. -/
def runRadixLane (pairs : List (Lane × ℕ)) (lane : ℕ) : List (Lane × ℕ) :=
  bucketPass 256 (laneDigit lane) pairs

def sortU128 (keys : List Lane) : List Lane × List ℕ :=
  let pairs := (List.range 16).foldl runRadixLane (keys.zip ((List.range keys.length).map asU32))
  (pairs.map Prod.fst, pairs.map Prod.snd)

/-- One thread of the boundary kernel. -/
def segmentStartsThread (sortedLo sortedHi : List (BitVec 64)) (nRows : ℕ)
    (starts : List (BitVec 32)) (gid : ℕ) : List (BitVec 32) :=
  if gid ≥ nRows then starts
  else if gid = 0 ∨ sortedLo.getD gid 0 ≠ sortedLo.getD (gid - 1) 0 ∨
      sortedHi.getD gid 0 ≠ sortedHi.getD (gid - 1) 0 then orBit starts gid
  else starts

/-- The boundary kernel, its threads run in the given order. -/
def segmentStarts (sortedKeys : List Lane) (threads : List ℕ) : List UInt8 :=
  let sizeBytes := max (4 * (((sortedKeys.length + 7) >>> 3 + 3) / 4)) 4
  let sortedLo := sortedKeys.map (fun k : Lane => k.setWidth 64)
  let sortedHi := sortedKeys.map (fun k : Lane => (k >>> 64).setWidth 64)
  toBytes (threads.foldl (segmentStartsThread sortedLo sortedHi sortedKeys.length)
    (List.replicate (sizeBytes / 4) 0))

structure SegmentState where
  rowToGroup : List ℕ
  firstRowPerGroup : List ℕ
  curGroup : ℕ

def segmentStep (starts : List UInt8) (s : SegmentState) (entry : ℕ × ℕ) : SegmentState :=
  let (row, i) := entry
  let bit := bitAt starts i
  let curGroup := if i > 0 ∧ bit = 1 then s.curGroup + 1 else s.curGroup
  { rowToGroup := s.rowToGroup.set row curGroup
    firstRowPerGroup :=
      if i = 0 ∨ bit = 1 then s.firstRowPerGroup ++ [row] else s.firstRowPerGroup
    curGroup := curGroup }

/-- The sort build; `threads` is the order in which the boundary kernel's threads run. -/
def sortAndSegment (keys : List Lane) (threads : List ℕ) : BuildOutput :=
  if keys = [] then ⟨[], [], 0⟩
  else
    let (sortedKeys, sortedIdx) := sortU128 keys
    let starts := segmentStarts sortedKeys threads
    let s := sortedIdx.zipIdx.foldl (segmentStep starts) ⟨List.replicate keys.length 0, [], 0⟩
    ⟨s.rowToGroup, s.firstRowPerGroup, s.curGroup + 1⟩

end PolarsMetal.GroupBy
