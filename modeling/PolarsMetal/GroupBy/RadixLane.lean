import PolarsMetal.GroupBy.Build
import PolarsMetal.Lib.Interleave

/-! The lane pass of the radix sort on the GPU. A tile is one threadgroup of 256 threads, eight
simdgroups of 32 lanes. Between two barriers the threads of a tile take their turns in any order;
threadgroup memory is a tile's own, and the stores to device memory of all tiles interleave. -/

namespace PolarsMetal.GroupBy
open Interleave

def tileSize : ℕ := 256

def tileCount (nRows : ℕ) : ℕ := (nRows + tileSize - 1) / tileSize

def simdsPerTile : ℕ := 8

def laneSimdWidth : ℕ := 32

def extractDigit (keyLo keyHi : BitVec 64) (laneIdx : ℕ) : ℕ :=
  if laneIdx < 8 then ((keyLo >>> (laneIdx * 8)) &&& 0xFF).toNat
  else ((keyHi >>> ((laneIdx - 8) * 8)) &&& 0xFF).toNat

/-- What both kernels read. -/
structure LaneInput where
  keysLo : List (BitVec 64)
  keysHi : List (BitVec 64)
  rowIdx : List ℕ
  nRows : ℕ
  laneIdx : ℕ

/-- What the hardware decides in one pass. -/
structure LaneRun where
  /-- what a tile's threadgroup memory holds at the launch of each kernel -/
  histMemory : ℕ → ℕ → ℕ
  simdMemory : ℕ → ℕ → ℕ
  /-- for each tile, the turns between two barriers -/
  zeroHist : ℕ → List ℕ
  addHist : ℕ → List ℕ
  zeroSimd : ℕ → List ℕ
  publish : ℕ → List ℕ
  /-- the turns of the grid at each device buffer -/
  storeHist : List ℕ
  storeLo : List ℕ
  storeHi : List ℕ
  storeIdx : List ℕ

namespace LaneInput

variable (b : LaneInput)

def digit (gid : ℕ) : ℕ := extractDigit (b.keysLo.getD gid 0) (b.keysHi.getD gid 0) b.laneIdx

/-! `lane_tile_hist` -/

def zeroOps (cells tid : ℕ) : List (ℕ × ℕ) :=
  if tid < tileSize then (strided tid tileSize cells).map (fun i => (i, 0)) else []

def addOps (tgId tid : ℕ) : List ℕ :=
  if tid < tileSize ∧ tgId * tileSize + tid < b.nRows then [b.digit (tgId * tileSize + tid)]
  else []

/-- A tile's histogram after the second barrier. -/
def tgsmHist (g : LaneRun) (tgId : ℕ) : List ℕ :=
  let zeroed := exec (zeroOps 256) store ((List.range 256).map (g.histMemory tgId)) (g.zeroHist tgId)
  exec (b.addOps tgId) (addOne (2 ^ 32)) zeroed (g.addHist tgId)

def histOps (g : LaneRun) (nTiles gid : ℕ) : List (ℕ × ℕ) :=
  let tgId := gid / tileSize
  let tid := gid % tileSize
  if gid < nTiles * tileSize then
    (strided tid tileSize 256).map (fun i => (tgId * 256 + i, (b.tgsmHist g tgId).getD i 0))
  else []

def laneTileHist (g : LaneRun) (nTiles : ℕ) : List ℕ :=
  exec (b.histOps g nTiles) store (List.replicate (nTiles * 256) 0) g.storeHist

/-! `lane_stable_scatter` -/

def myDigit (gid : ℕ) : ℕ := if gid < b.nRows then b.digit gid else 0

/-- Lane `k` of the simdgroup broadcasts its digit. -/
def matchLane (gid : ℕ) (s : ℕ × ℕ) (k : ℕ) : ℕ × ℕ :=
  let other := gid / laneSimdWidth * laneSimdWidth + k
  if gid < b.nRows ∧ other < b.nRows ∧ b.myDigit other = b.myDigit gid then
    (if k < gid % laneSimdWidth then s.1 + 1 else s.1, s.2 + 1)
  else s

/-- The rank of the thread among the lanes of its simdgroup with its digit, and their number. -/
def simdMatch (gid : ℕ) : ℕ × ℕ := (List.range laneSimdWidth).foldl (b.matchLane gid) (0, 0)

def publishOps (tgId tid : ℕ) : List (ℕ × ℕ) :=
  let gid := tgId * tileSize + tid
  let (simdRank, simdTotal) := b.simdMatch gid
  if tid < tileSize ∧ gid < b.nRows ∧ simdRank = 0 ∧ simdTotal > 0 then
    [(tid / laneSimdWidth * 256 + b.myDigit gid, simdTotal)]
  else []

/-- A tile's counts for its simdgroups after the second barrier. -/
def simdDigitCounts (g : LaneRun) (tgId : ℕ) : List ℕ :=
  let zeroed := exec (zeroOps (simdsPerTile * 256)) store
    ((List.range (simdsPerTile * 256)).map (g.simdMemory tgId)) (g.zeroSimd tgId)
  exec (b.publishOps tgId) store zeroed (g.publish tgId)

def crossRank (g : LaneRun) (gid : ℕ) : ℕ :=
  let counts := b.simdDigitCounts g (gid / tileSize)
  (List.range (gid % tileSize / laneSimdWidth)).foldl
    (fun acc s => asU32 (acc + counts.getD (s * 256 + b.myDigit gid) 0)) 0

def outPos (g : LaneRun) (tilePrefix globalOffset : List ℕ) (gid : ℕ) : ℕ :=
  let myLocalRank := asU32 (b.crossRank g gid + (b.simdMatch gid).1)
  asU32 (asU32 (globalOffset.getD (b.myDigit gid) 0 +
    tilePrefix.getD (gid / tileSize * 256 + b.myDigit gid) 0) + myLocalRank)

/-- The stores of the grid's threads to one of the three output buffers. -/
def scatterOps {α : Type} (g : LaneRun) (nTiles : ℕ) (tilePrefix globalOffset : List ℕ)
    (source : List α) (zero : α) (gid : ℕ) : List (ℕ × α) :=
  if gid < nTiles * tileSize ∧ gid < b.nRows then
    [(b.outPos g tilePrefix globalOffset gid, source.getD gid zero)]
  else []

def laneStableScatter {α : Type} (g : LaneRun) (nTiles : ℕ) (tilePrefix globalOffset : List ℕ)
    (source : List α) (zero : α) (order : List ℕ) : List α :=
  exec (b.scatterOps g nTiles tilePrefix globalOffset source zero) store
    (List.replicate b.nRows zero) order

end LaneInput

/-! The host. -/

def scanTile (tileHist : List ℕ) (d : ℕ) (s : List ℕ × ℕ) (t : ℕ) : List ℕ × ℕ :=
  let off := t * 256 + d
  (s.1.set off s.2, asU32 (s.2 + tileHist.getD off 0))

/-- The tiles' counts of digit `d` summed from the top. -/
def scanDigit (tileHist : List ℕ) (nTiles : ℕ) (s : List ℕ × List ℕ) (d : ℕ) :
    List ℕ × List ℕ :=
  let (tilePrefix, acc) := (List.range nTiles).foldl (scanTile tileHist d) (s.1, 0)
  (tilePrefix, s.2.set d acc)

/-- `tile_prefix` and `bucket_total`. -/
def scanTiles (tileHist : List ℕ) (nTiles : ℕ) : List ℕ × List ℕ :=
  (List.range 256).foldl (scanDigit tileHist nTiles)
    (List.replicate (nTiles * 256) 0, List.replicate 256 0)

def offsetStep (bucketTotal globalOffset : List ℕ) (d : ℕ) : List ℕ :=
  globalOffset.set d (asU32 (globalOffset.getD (d - 1) 0 + bucketTotal.getD (d - 1) 0))

def globalOffsets (bucketTotal : List ℕ) : List ℕ :=
  (List.range' 1 255).foldl (offsetStep bucketTotal) (List.replicate 256 0)

inductive SortError where
  | rowOverflow
deriving DecidableEq, Repr

/-- `none` is the assertion's panic. -/
def runRadixLaneGpu (g : LaneRun) (keys : List Lane) (rowIdxIn : List ℕ) (lane : ℕ) :
    Option (Except SortError (List Lane × List ℕ)) :=
  if keys.length ≠ rowIdxIn.length then none
  else if keys = [] then some (.ok ([], []))
  else if keys.length ≥ 2 ^ 32 then some (.error .rowOverflow)
  else
    let b : LaneInput :=
      { keysLo := keys.map (fun k : Lane => k.setWidth 64)
        keysHi := keys.map (fun k : Lane => (k >>> 64).setWidth 64)
        rowIdx := rowIdxIn
        nRows := keys.length
        laneIdx := lane }
    let nTiles := tileCount keys.length
    let (tilePrefix, bucketTotal) := scanTiles (b.laneTileHist g nTiles) nTiles
    let globalOffset := globalOffsets bucketTotal
    let lo := b.laneStableScatter g nTiles tilePrefix globalOffset b.keysLo 0 g.storeLo
    let hi := b.laneStableScatter g nTiles tilePrefix globalOffset b.keysHi 0 g.storeHi
    let idx := b.laneStableScatter g nTiles tilePrefix globalOffset b.rowIdx 0 g.storeIdx
    let sortedKeys := (List.range keys.length).map (fun i =>
      ((hi.getD i 0).setWidth 128 <<< 64) ||| (lo.getD i 0).setWidth 128)
    some (.ok (sortedKeys, (List.range keys.length).map (fun i => idx.getD i 0)))

/-- The loop's turn for one lane. -/
def sortLane (g : ℕ → LaneRun) (current : Option (Except SortError (List Lane × List ℕ)))
    (lane : ℕ) : Option (Except SortError (List Lane × List ℕ)) :=
  match current with
  | some (.ok (keys, idx)) => runRadixLaneGpu (g lane) keys idx lane
  | stopped => stopped

/-- The sixteen passes, each a run of its own. -/
def sortU128Gpu (g : ℕ → LaneRun) (keys : List Lane) :
    Option (Except SortError (List Lane × List ℕ)) :=
  if keys = [] then some (.ok ([], []))
  else if keys.length ≥ 2 ^ 32 then some (.error .rowOverflow)
  else
    (List.range 16).foldl (sortLane g) (some (.ok (keys, List.range keys.length)))

/-- Every thread gets its turns in every phase. -/
structure LaneRun.Completes (g : LaneRun) (nRows : ℕ) : Prop where
  zeroHist : ∀ tgId < tileCount nRows, ∀ tid < tileSize, 1 ≤ (g.zeroHist tgId).count tid
  addHist : ∀ tgId < tileCount nRows, ∀ tid < tileSize, 1 ≤ (g.addHist tgId).count tid
  zeroSimd : ∀ tgId < tileCount nRows, ∀ tid < tileSize,
    simdsPerTile ≤ (g.zeroSimd tgId).count tid
  publish : ∀ tgId < tileCount nRows, ∀ tid < tileSize, 1 ≤ (g.publish tgId).count tid
  storeHist : ∀ gid < tileCount nRows * tileSize, 1 ≤ g.storeHist.count gid
  storeLo : ∀ gid < nRows, 1 ≤ g.storeLo.count gid
  storeHi : ∀ gid < nRows, 1 ≤ g.storeHi.count gid
  storeIdx : ∀ gid < nRows, 1 ≤ g.storeIdx.count gid

end PolarsMetal.GroupBy
