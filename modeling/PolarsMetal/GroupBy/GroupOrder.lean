import PolarsMetal.GroupBy.Dispatch

/-! The order of the groups. Output groups come in the order of their ids. The hash
map numbers keys by first occurrence; the GPU build numbers them partition by
partition, and within a partition in the order in which threads took the ids. -/

namespace PolarsMetal.GroupBy
open Runs Grouping Reads BuildState

/-- Lower partitions hold the keys that occur earlier. -/
def PartitionsInOrder (keys : List Lane) (nPartitions : ℕ) : Prop :=
  ∀ k ∈ keys, ∀ k' ∈ keys, partitionId k nPartitions < partitionId k' nPartitions →
    keys.idxOf k < keys.idxOf k'

/-- Within each partition a thread takes an id only after all earlier keys have theirs. -/
def GpuRun.TakesIdsInOrder (g : GpuRun) (keys : List Lane) (nPartitions : ℕ) : Prop :=
  ∀ p < nPartitions, Throughout (partitionBuildStep (g.args keys nPartitions p))
    (TakesIdInOrder (g.args keys nPartitions p))
    (partitionBuildInit (g.args keys nPartitions p) g.scratch) (g.schedule p)

/-! One partition. -/

section Partition

variable {a : PartitionArgs} {s : BuildState} (h : BuildInv a s) (hsize : 0 < a.tgSize)
  (hcount : a.count < 2 ^ 32) (hdone : s.Finished) (hclear : s.overflowFlag = false)

include h hsize hcount hdone hclear

theorem BuildInv.local_held {i : ℕ} (hi : i < a.count) :
    ∃ x, s.Holds x (s.rowToLocalGroup (a.row i)) ∧ s.slotKey x = a.keyAt i := by
  obtain ⟨x, hpub, hkey, hstate⟩ := (h.recorded hsize hcount hdone hi).resolve_left
    (fun hover => by rw [hclear] at hover; cases hover)
  exact ⟨x, Or.inl ⟨hpub, hstate⟩, hkey⟩

theorem BuildInv.ordered_iff : s.Ordered a ↔ ∀ i < a.count, ∀ j < a.count,
    a.keys.idxOf (a.keyAt i) < a.keys.idxOf (a.keyAt j) →
      s.rowToLocalGroup (a.row i) < s.rowToLocalGroup (a.row j) := by
  refine ⟨fun hord i hi j hj hlt => ?_, fun hrows x g y g' hx hy hlt => ?_⟩
  · obtain ⟨x, hx, hkx⟩ := h.local_held hsize hcount hdone hclear hi
    obtain ⟨y, hy, hky⟩ := h.local_held hsize hcount hdone hclear hj
    exact hord x _ y _ hx hy (by rw [hkx, hky]; exact hlt)
  · obtain ⟨-, i, hi, hki⟩ := h.held_spec hx
    obtain ⟨-, j, hj, hkj⟩ := h.held_spec hy
    obtain ⟨x', hx', hkx'⟩ := h.local_held hsize hcount hdone hclear hi
    obtain ⟨y', hy', hky'⟩ := h.local_held hsize hcount hdone hclear hj
    rw [h.held_key_inj hx hx' (hki.symm.trans hkx'.symm),
      h.held_key_inj hy hy' (hkj.symm.trans hky'.symm)]
    exact hrows i hi j hj (by rw [hki, hkj]; exact hlt)

end Partition

/-- A partition's keys are numbered by first occurrence exactly when the ids were taken in order. -/
theorem names_sorted_iff {g : GpuRun} {keys : List Lane} {nPartitions p : ℕ}
    (hrun : g.Complete keys nPartitions) (hcas : g.NoSpuriousFailure keys nPartitions)
    (hclear : g.NoOverflow keys nPartitions) (hlen : keys.length < 2 ^ 32) (hp : p < nPartitions)
    {names : ℕ → List Lane} (hnum : PartitionNumbering keys nPartitions names)
    (hlocal : ∀ r < keys.length, partitionId (keyOf keys r) nPartitions = p →
      (g.group keys nPartitions p).rowToLocalGroup r = (names p).idxOf (keyOf keys r)) :
    (names p).Pairwise (fun k k' => keys.idxOf k < keys.idxOf k') ↔
      Throughout (partitionBuildStep (g.args keys nPartitions p))
        (TakesIdInOrder (g.args keys nPartitions p))
        (partitionBuildInit (g.args keys nPartitions p) g.scratch) (g.schedule p) := by
  have hinv : BuildInv (g.args keys nPartitions p) (g.group keys nPartitions p) :=
    buildInv_run hrun.slots.1 hrun.slots.2 (hcas p hp)
  have hcount := (count_le hp hrun.scatter).trans_lt hlen
  have hordered : (g.group keys nPartitions p).Ordered (g.args keys nPartitions p) ↔
      Throughout (partitionBuildStep (g.args keys nPartitions p))
        (TakesIdInOrder (g.args keys nPartitions p))
        (partitionBuildInit (g.args keys nPartitions p) g.scratch) (g.schedule p) := by
    refine ⟨fun hend => ?_, fun htake => ordered_run hrun.slots.1 hrun.slots.2 (hcas p hp) htake⟩
    refine takesIdInOrder_of_ordered hrun.slots.1 hrun.slots.2 (buildInv_init _ _) (hcas p hp)
      (fun j hj => ?_) hend
    obtain ⟨x, hx, hkey⟩ := hinv.local_held hrun.threads hcount (hrun.finished p hp)
      (hclear p hp) hj
    exact ⟨x, _, hx, hkey⟩
  rw [← hordered, hinv.ordered_iff hrun.threads hcount (hrun.finished p hp) (hclear p hp)]
  have hsorted := pairwise_map_iff_idxOf (hnum.nodup p hp) (f := fun k => keys.idxOf k)
    (fun k hk k' hk' heq => (List.idxOf_inj ((hnum.mem_iff p hp k).1 hk).1).1 heq)
  rw [List.pairwise_map] at hsorted
  rw [hsorted]
  -- positions of the slice, and the keys at them
  have hpos : ∀ i < (g.args keys nPartitions p).count,
      (g.args keys nPartitions p).row i < keys.length ∧
        partitionId ((g.args keys nPartitions p).keyAt i) nPartitions = p ∧
        (g.group keys nPartitions p).rowToLocalGroup ((g.args keys nPartitions p).row i) =
          (names p).idxOf ((g.args keys nPartitions p).keyAt i) := by
    intro i hi
    have hin : (g.args keys nPartitions p).row i ∈ (g.args keys nPartitions p).rowIndices := by
      rw [PartitionArgs.row, getD_of_lt _ hi]
      exact List.getElem_mem hi
    obtain ⟨hlt, hpart⟩ := (mem_slice hp hrun.scatter).1 hin
    exact ⟨hlt, hpart, hlocal _ hlt hpart⟩
  have hmem : ∀ k, k ∈ names p ↔ ∃ i < (g.args keys nPartitions p).count,
      (g.args keys nPartitions p).keyAt i = k := by
    intro k
    rw [hnum.mem_iff p hp]
    refine ⟨?_, ?_⟩
    · rintro ⟨hk, hpart⟩
      obtain ⟨r, hr, rfl⟩ := List.getElem_of_mem hk
      have hkr : keyOf keys r = keys[r] := getD_of_lt keys hr 0
      obtain ⟨i, hi, hget⟩ := List.getElem_of_mem
        ((mem_slice (g := g) hp hrun.scatter).2 ⟨hr, by rw [hkr]; exact hpart⟩)
      refine ⟨i, hi, ?_⟩
      rw [PartitionArgs.keyAt, PartitionArgs.row, getD_of_lt _ hi, hget]
      exact hkr
    · rintro ⟨i, hi, rfl⟩
      obtain ⟨hlt, hpart, -⟩ := hpos i hi
      refine ⟨?_, hpart⟩
      change keyOf keys _ ∈ keys
      rw [keyOf, getD_of_lt keys hlt]
      exact List.getElem_mem hlt
  refine ⟨fun hnames i hi j hj hlt => ?_, fun hrows k hk k' hk' hlt => ?_⟩
  · rw [(hpos i hi).2.2, (hpos j hj).2.2]
    exact hnames _ ((hmem _).2 ⟨i, hi, rfl⟩) _ ((hmem _).2 ⟨j, hj, rfl⟩) hlt
  · obtain ⟨i, hi, rfl⟩ := (hmem k).1 hk
    obtain ⟨j, hj, rfl⟩ := (hmem k').1 hk'
    have := hrows i hi j hj hlt
    rwa [(hpos i hi).2.2, (hpos j hj).2.2] at this

/-- Over all partitions. -/
theorem PartitionNumbering.sorted_iff {keys : List Lane} {nPartitions : ℕ} {names : ℕ → List Lane}
    (hnum : PartitionNumbering keys nPartitions names) (hpos : 0 < nPartitions) :
    (firstsBy (allNames nPartitions names) keys).Pairwise (· < ·) ↔
      (∀ p < nPartitions, (names p).Pairwise (fun k k' => keys.idxOf k < keys.idxOf k')) ∧
        PartitionsInOrder keys nPartitions := by
  rw [firstsBy, List.pairwise_map, allNames, List.pairwise_flatten]
  refine and_congr ?_ ?_
  · simp only [List.forall_mem_map, List.mem_range]
  · rw [List.pairwise_map]
    refine ⟨fun hcross k hk k' hk' hlt => ?_, fun hparts => ?_⟩
    · have hp := partitionId_lt k hpos
      have hq := partitionId_lt k' hpos
      have := List.pairwise_iff_getElem.1 hcross _ _ (by simpa using hp) (by simpa using hq) hlt
      simp only [List.getElem_range] at this
      exact this k ((hnum.mem_iff _ hp k).2 ⟨hk, rfl⟩) k' ((hnum.mem_iff _ hq k').2 ⟨hk', rfl⟩)
    · refine List.pairwise_lt_range.imp_of_mem (fun hp hq hlt k hk k' hk' => ?_)
      obtain ⟨hk, hkp⟩ := (hnum.mem_iff _ (List.mem_range.1 hp) k).1 hk
      obtain ⟨hk', hkq⟩ := (hnum.mem_iff _ (List.mem_range.1 hq) k').1 hk'
      exact hparts k hk k' hk' (by omega)

/-- The GPU build's groups come in order of first occurrence exactly when the partitions, and the
ids within each, follow the first occurrences. -/
theorem partitionAndBuild_in_order_iff {g : GpuRun} {keys : List Lane} {nPartitions : ℕ}
    (hpow : ∃ b, nPartitions = 2 ^ b) (hlen : keys.length < 2 ^ 32)
    (hrun : g.Complete keys nPartitions) (hcas : g.NoSpuriousFailure keys nPartitions)
    (hclear : g.NoOverflow keys nPartitions) :
    ∃ out, partitionAndBuildWithScratch g keys nPartitions = .ok out ∧ Groups keys out ∧
      (out.firstRowPerGroup.Pairwise (· < ·) ↔
        PartitionsInOrder keys nPartitions ∧ g.TakesIdsInOrder keys nPartitions) := by
  have hpos : 0 < nPartitions := by obtain ⟨b, rfl⟩ := hpow; exact Nat.two_pow_pos b
  obtain ⟨names, hnum, hnames⟩ := g.numbering hrun hcas hclear hlen
  refine ⟨_, partitionAndBuild_eq hpow hlen hclear hnum hnames, (hnum.enumerates hpos).isGrouping, ?_⟩
  have hparts : (∀ p < nPartitions, (names p).Pairwise (fun k k' => keys.idxOf k < keys.idxOf k')) ↔
      g.TakesIdsInOrder keys nPartitions :=
    forall₂_congr (fun p hp => names_sorted_iff hrun hcas hclear hlen hp hnum (hnames p hp).2)
  rw [hnum.sorted_iff hpos, hparts, and_comm]

/-! The dispatcher. -/

/-- The dispatcher returns the GPU build's result. -/
def GpuRun.Used (g : GpuRun) (deviceOk : Bool) (lanes : List Lane) : Prop :=
  a1RowsThreshold ≤ lanes.length ∧ deviceOk = true ∧ g.NoOverflow lanes 16

/-- The groups come in order of first occurrence exactly when the hash map built them, or the
partitions and the ids within each follow the first occurrences. -/
theorem groups_in_order_iff {g : GpuRun} {deviceOk : Bool} {lanes : List Lane}
    (hlen : lanes.length < 2 ^ 32) (hrun : g.Sound deviceOk lanes) :
    ∃ out, dispatchBuild g deviceOk lanes lanes.length = .ok out ∧ Groups lanes out ∧
      (out.firstRowPerGroup.Pairwise (· < ·) ↔
        (g.Used deviceOk lanes → PartitionsInOrder lanes 16 ∧ g.TakesIdsInOrder lanes 16)) := by
  have hpow : ∃ b, 16 = 2 ^ b := ⟨4, rfl⟩
  rcases dispatchBuild_cases g deviceOk lanes with ⟨hrows, out, htry, hout⟩ | ⟨hcpu, hout⟩
  · obtain ⟨hdev, ha1⟩ := tryA1Build_eq_some.1 htry
    obtain ⟨hcomplete, hcas⟩ := hrun hrows hdev
    have hclear := noOverflow_of_ok ha1 (ne_nil_of_threshold hrows)
    obtain ⟨out', hok, hgroups, hiff⟩ :=
      partitionAndBuild_in_order_iff hpow hlen hcomplete hcas hclear
    rw [ha1] at hok
    cases hok
    refine ⟨out, hout, hgroups, hiff.trans ?_⟩
    exact ⟨fun h _ => h, fun h => h ⟨hrows, hdev, hclear⟩⟩
  · refine ⟨_, hout, groups_cpuHashmapBuild hlen, ?_⟩
    rw [cpuHashmapBuild_eq hlen]
    refine iff_of_true (pairwise_firstsBy_firstSeen lanes) (fun hused => ?_)
    -- a GPU result would have been returned
    exfalso
    obtain ⟨hrows, hdev, hclear⟩ := hused
    obtain ⟨hcomplete, hcas⟩ := hrun hrows hdev
    obtain ⟨out, hok, -⟩ := groups_partitionAndBuild hpow hlen hcomplete hcas hclear
    have hsome := tryA1Build_eq_some.2 ⟨hdev, hok⟩
    rcases hcpu with hlt | hnone
    · omega
    · rw [hnone] at hsome
      cases hsome

/-- The lanes of an integer key column that holds 0 in the first row and 1 in all the others: lane 0
belongs to partition 9 and lane 2 to partition 5. -/
def twoKeys : List Lane := 0 :: List.replicate 499999 2

theorem length_twoKeys : twoKeys.length = a1RowsThreshold := by
  rw [twoKeys, List.length_cons, List.length_replicate, a1RowsThreshold]

theorem mem_twoKeys {k : Lane} : k ∈ twoKeys ↔ k = 0 ∨ k = 2 := by
  rw [twoKeys, List.mem_cons, List.mem_replicate]
  simp

/-- Each partition holds at most one of the two keys. -/
theorem noOverflow_twoKeys {g : GpuRun} (hrun : g.Complete twoKeys 16)
    (hcas : g.NoSpuriousFailure twoKeys 16) : g.NoOverflow twoKeys 16 := by
  intro p hp
  refine noOverflow_of_oneKey (k := if p = 9 then 0 else 2) (fun j hj => ?_) hrun.slots.1
    hrun.slots.2 (hcas p hp)
  have hin : (g.args twoKeys 16 p).row j ∈ (g.args twoKeys 16 p).rowIndices := by
    rw [PartitionArgs.row, getD_of_lt _ hj]
    exact List.getElem_mem hj
  obtain ⟨hlt, hpart⟩ := (mem_slice hp hrun.scatter).1 hin
  change keyOf twoKeys _ = _
  have hk : keyOf twoKeys ((g.args twoKeys 16 p).row j) ∈ twoKeys := by
    rw [keyOf, getD_of_lt _ hlt]
    exact List.getElem_mem hlt
  rcases mem_twoKeys.1 hk with heq | heq
  · rw [heq] at hpart ⊢
    rw [if_pos (hpart.symm.trans (by decide +kernel))]
  · rw [heq] at hpart ⊢
    rw [if_neg (fun h9 => absurd (hpart.trans h9) (by decide +kernel))]

theorem groups_in_order_iff_sample :
    ∃ schedule, (hostLaunch twoKeys.length schedule).Used true twoKeys ∧
      ∃ out, dispatchBuild (hostLaunch twoKeys.length schedule) true twoKeys twoKeys.length =
          .ok out ∧ Groups twoKeys out ∧
        (out.firstRowPerGroup.Pairwise (· < ·) ↔
          ((hostLaunch twoKeys.length schedule).Used true twoKeys → PartitionsInOrder twoKeys 16 ∧
            (hostLaunch twoKeys.length schedule).TakesIdsInOrder twoKeys 16)) := by
  have hlen : twoKeys.length + 256 < 2 ^ 32 := by rw [length_twoKeys]; decide
  obtain ⟨schedule, hrun, hcas⟩ := exists_complete 16 hlen
  refine ⟨schedule, ⟨length_twoKeys.ge, rfl, noOverflow_twoKeys hrun hcas⟩, ?_⟩
  exact groups_in_order_iff ((Nat.le_add_right _ 256).trans_lt hlen) (fun _ _ => ⟨hrun, hcas⟩)

/-- With the host's sizes and 500000 rows, a run to the end puts the later key's group first. -/
theorem later_key_first :
    ∃ schedule, (hostLaunch twoKeys.length schedule).Sound true twoKeys ∧
      ∃ out, dispatchBuild (hostLaunch twoKeys.length schedule) true twoKeys twoKeys.length =
          .ok out ∧ Groups twoKeys out ∧ ¬ out.firstRowPerGroup.Pairwise (· < ·) := by
  have hlen : twoKeys.length + 256 < 2 ^ 32 := by rw [length_twoKeys]; decide
  obtain ⟨schedule, hrun, hcas⟩ := exists_complete 16 hlen
  have hrows : twoKeys.length < 2 ^ 32 := (Nat.le_add_right _ 256).trans_lt hlen
  obtain ⟨out, hok, hgroups, hiff⟩ := partitionAndBuild_in_order_iff
    (show ∃ b, 16 = 2 ^ b from ⟨4, rfl⟩) hrows hrun hcas (noOverflow_twoKeys hrun hcas)
  have htry := tryA1Build_eq_some.2 ⟨rfl, hok⟩
  refine ⟨schedule, fun _ _ => ⟨hrun, hcas⟩, out, ?_, hgroups, fun hsorted => ?_⟩
  · rcases dispatchBuild_cases (hostLaunch twoKeys.length schedule) true twoKeys with
      ⟨-, out', htry', hout⟩ | ⟨hrows | hnone, -⟩
    · rw [htry] at htry'
      cases htry'
      exact hout
    · rw [length_twoKeys] at hrows
      exact absurd hrows (lt_irrefl _)
    · rw [htry] at hnone
      cases hnone
  · have hparts := (hiff.1 hsorted).1 2 (mem_twoKeys.2 (Or.inr rfl)) 0 (mem_twoKeys.2 (Or.inl rfl))
      (by decide +kernel)
    rw [twoKeys, List.idxOf_cons_self] at hparts
    exact absurd hparts (Nat.not_lt_zero _)

end PolarsMetal.GroupBy
