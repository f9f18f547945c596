import PolarsMetal.GroupBy.Build
import PolarsMetal.Lib.Runs
import Mathlib.Logic.Function.Basic

/-! The partitioned build on the GPU. One threadgroup per partition fills a hash
table in threadgroup memory; its threads take one atomic operation at a time, in
any order. The host turns the local ids into global ones. -/

namespace PolarsMetal.GroupBy
open Runs

/-- What one threadgroup of `partition_build` is launched with. -/
structure PartitionArgs where
  keys : List Lane
  /-- `row_indices[start .. end]` -/
  rowIndices : List ℕ
  tgsmSlots : ℕ
  tgSize : ℕ

def tgsmProbeLimit : ℕ := 64

/-- Where a thread stands in the kernel, with the locals it needs from there on. -/
inductive Pc where
  | rowLoop (i : ℕ)
  | loadState (i slot probe : ℕ)
  | claim (i slot probe : ℕ)
  | writeKey (i slot : ℕ)
  | takeId (i slot : ℕ)
  | publish (i slot gid : ℕ)
  | spin (i slot probe : ℕ)
  | compareKey (i slot probe state : ℕ)
  | setOverflow (i : ℕ)
  | storeGroup (i groupId : ℕ)
  | barrier
deriving DecidableEq, Repr

structure BuildState where
  slotKey : ℕ → Lane
  /-- 0 is empty, `u32Max` is being claimed, else a group id plus one. -/
  slotState : ℕ → ℕ
  nextLocalId : ℕ
  rowToLocalGroup : ℕ → ℕ
  overflowFlag : Bool
  pc : ℕ → Pc

namespace PartitionArgs

variable (a : PartitionArgs)

def count : ℕ := a.rowIndices.length

def row (i : ℕ) : ℕ := a.rowIndices.getD i 0

def keyAt (i : ℕ) : Lane := a.keys.getD (a.row i) 0

def homeSlot (k : Lane) : ℕ := (hashU128 k).toNat &&& (a.tgsmSlots - 1)

def nextSlot (slot : ℕ) : ℕ := asU32 (slot + 1) &&& (a.tgsmSlots - 1)

end PartitionArgs

def BuildState.goto (s : BuildState) (t : ℕ) (pc : Pc) : BuildState :=
  { s with pc := Function.update s.pc t pc }

/-- A state that is not empty: wait while it is being claimed, else compare the key. -/
def settle (i slot probe state : ℕ) : Pc :=
  if state = u32Max then .spin i slot probe else .compareKey i slot probe state

/-- The probe loop is left with `groupId`. -/
def leaveProbe (i groupId : ℕ) : Pc :=
  if groupId = u32Max then .setOverflow i else .storeGroup i groupId

/-- One step of thread `label.1`; `label.2` makes a weak compare-exchange fail spuriously. -/
def partitionBuildStep (a : PartitionArgs) (s : BuildState) (label : ℕ × Bool) : BuildState :=
  let (t, spurious) := label
  match s.pc t with
  | .rowLoop i =>
    s.goto t (if i < a.count then .loadState i (a.homeSlot (a.keyAt i)) 0 else .barrier)
  | .loadState i slot probe =>
    if probe < tgsmProbeLimit then
      if s.slotState slot = 0 then s.goto t (.claim i slot probe)
      else s.goto t (settle i slot probe (s.slotState slot))
    else s.goto t (leaveProbe i u32Max)
  | .claim i slot probe =>
    if s.slotState slot = 0 ∧ spurious = false then
      { s with slotState := Function.update s.slotState slot u32Max }.goto t (.writeKey i slot)
    else s.goto t (settle i slot probe (s.slotState slot))
  | .writeKey i slot =>
    { s with slotKey := Function.update s.slotKey slot (a.keyAt i) }.goto t (.takeId i slot)
  | .takeId i slot =>
    { s with nextLocalId := asU32 (s.nextLocalId + 1) }.goto t (.publish i slot s.nextLocalId)
  | .publish i slot gid =>
    { s with slotState := Function.update s.slotState slot (asU32 (gid + 1)) }.goto t
      (leaveProbe i gid)
  | .spin i slot probe => s.goto t (settle i slot probe (s.slotState slot))
  | .compareKey i slot probe state =>
    if s.slotKey slot = a.keyAt i then
      -- `state - 1` on 32 bits
      s.goto t (leaveProbe i (asU32 (state + u32Max)))
    else s.goto t (.loadState i (a.nextSlot slot) (probe + 1))
  | .setOverflow i => { s with overflowFlag := true }.goto t (.storeGroup i u32Max)
  | .storeGroup i groupId =>
    { s with rowToLocalGroup := Function.update s.rowToLocalGroup (a.row i) groupId }.goto t
      (.rowLoop (asU32 (i + a.tgSize)))
  | .barrier => s

/-- After the initialising barrier; whatever `row_to_local_group` held before. -/
def partitionBuildInit (a : PartitionArgs) (before : ℕ → ℕ) : BuildState where
  slotKey := fun _ => 0
  slotState := fun _ => 0
  nextLocalId := 0
  rowToLocalGroup := before
  overflowFlag := false
  pc := fun t => if t < a.tgSize then .rowLoop t else .barrier

/-- One threadgroup's run under a schedule of its threads. -/
def partitionBuild (a : PartitionArgs) (before : ℕ → ℕ) (schedule : List (ℕ × Bool)) :
    BuildState :=
  run (partitionBuildStep a) (partitionBuildInit a before) schedule

/-- Every thread has reached the last barrier. -/
def BuildState.Finished (s : BuildState) : Prop := ∀ t, s.pc t = .barrier

/-- A weak compare-exchange that fails although the slot is still empty. -/
def SpuriousFailure (s : BuildState) (label : ℕ × Bool) : Prop :=
  ∃ i slot probe, s.pc label.1 = .claim i slot probe ∧ s.slotState slot = 0 ∧ label.2 = true

/-! The host around the kernel. -/

inductive PartitionedBuildError where
  | rowOverflow
  | overflow
  /-- the power-of-two assertion -/
  | assertion
deriving DecidableEq, Repr

/-- One thread of the scatter kernel: it takes the next place of its partition's slice. -/
def scatterStep (keys : List Lane) (nPartitions : ℕ) (slices : List (List ℕ)) (gid : ℕ) :
    List (List ℕ) :=
  if gid ≥ keys.length then slices
  else slices.modify (partitionId (keys.getD gid 0) nPartitions) (fun slice => slice ++ [gid])

/-- Each partition's slice of `row_indices`, the threads run in the given order. -/
def partitionScatter (keys : List Lane) (nPartitions : ℕ) (threads : List ℕ) : List (List ℕ) :=
  threads.foldl (scatterStep keys nPartitions) (List.replicate nPartitions [])

/-- What the hardware decides, and the launch's sizes. -/
structure GpuRun where
  tgsmSlots : ℕ
  tgSize : ℕ
  /-- the order in which the scatter threads run -/
  scatterOrder : List ℕ
  /-- each threadgroup's interleaving -/
  schedule : ℕ → List (ℕ × Bool)
  /-- what the reused scratch buffer holds -/
  scratch : ℕ → ℕ

def GpuRun.args (g : GpuRun) (keys : List Lane) (nPartitions p : ℕ) : PartitionArgs :=
  ⟨keys, (partitionScatter keys nPartitions g.scatterOrder).getD p [], g.tgsmSlots, g.tgSize⟩

/-- The threadgroup of partition `p` at its end. Threadgroups share no slots, write disjoint rows
and only ever set the overflow flag. -/
def GpuRun.group (g : GpuRun) (keys : List Lane) (nPartitions p : ℕ) : BuildState :=
  partitionBuild (g.args keys nPartitions p) g.scratch (g.schedule p)

/-- Local ids to global ones, and the first row of each group. -/
def readBack (keys : List Lane) (nPartitions : ℕ) (nGroupsPerPart rowToLocalGroup : List ℕ) :
    BuildOutput :=
  let partitionGroupOffset := offsetsFrom 0 nGroupsPerPart
  let nGroups := partitionGroupOffset.getD nPartitions 0
  let (rowToGroup, firstRowPerGroup) :=
    keys.zipIdx.foldl (globalStep partitionGroupOffset rowToLocalGroup nPartitions)
      (List.replicate keys.length 0, List.replicate nGroups u32Max)
  ⟨rowToGroup, firstRowPerGroup, nGroups⟩

def partitionAndBuildWithScratch (g : GpuRun) (keys : List Lane) (nPartitions : ℕ) :
    Except PartitionedBuildError BuildOutput :=
  if keys = [] then .ok ⟨[], [], 0⟩
  else if nPartitions ≠ 2 ^ nPartitions.log2 then .error .assertion
  else if keys.length ≥ 2 ^ 32 then .error .rowOverflow
  else if ∃ p ∈ List.range nPartitions, (g.group keys nPartitions p).overflowFlag = true then
    .error .overflow
  else
    let nGroupsPerPart :=
      (List.range nPartitions).map (fun p => (g.group keys nPartitions p).nextLocalId)
    let rowToLocalGroup := (List.range keys.length).map (fun r =>
      (g.group keys nPartitions (partitionId (keys.getD r 0) nPartitions)).rowToLocalGroup r)
    .ok (readBack keys nPartitions nGroupsPerPart rowToLocalGroup)

end PolarsMetal.GroupBy
