import PolarsMetal.GroupBy.BuildGpuInv
import PolarsMetal.GroupBy.BuildSpec

/-! The GPU build under every interleaving. Without a spurious failure the local
ids number the partition's distinct keys, so the host's output is a grouping; one
spurious failure can give a key two ids. -/

namespace PolarsMetal.GroupBy
open Runs Grouping Reads

/-! One threadgroup. -/

/-- A finished run without overflow has numbered the distinct keys of its rows. -/
theorem BuildInv.names {a : PartitionArgs} {s : BuildState} (h : BuildInv a s)
    (hsize : 0 < a.tgSize) (hcount : a.count < 2 ^ 32) (hdone : s.Finished)
    (hclear : s.overflowFlag = false) :
    ∃ names : List Lane, names.Nodup ∧ names.length = s.nextLocalId ∧
      (∀ k, k ∈ names ↔ ∃ i < a.count, a.keyAt i = k) ∧
      ∀ i < a.count, s.rowToLocalGroup (a.row i) = names.idxOf (a.keyAt i) := by
  have hheld : ∀ g < s.nextLocalId, ∃ x, s.Published x ∧ s.slotState x = g + 1 := by
    intro g hg
    obtain ⟨x, hx | ⟨t, i, ht⟩⟩ := (h.table.issued g).1 hg
    · exact ⟨x, hx⟩
    · rw [hdone] at ht
      cases ht
  choose! slot hpub hstate using hheld
  have hfound : ∀ g < s.nextLocalId, s.Found (s.slotKey (slot g)) g :=
    fun g hg => ⟨slot g, hpub g hg, rfl, hstate g hg⟩
  have hrow : ∀ i < a.count, s.Found (a.keyAt i) (s.rowToLocalGroup (a.row i)) := by
    intro i hi
    refine (h.recorded hsize hcount hdone hi).resolve_left (fun hover => ?_)
    rw [hclear] at hover
    cases hover
  have hissued : ∀ i < a.count, s.rowToLocalGroup (a.row i) < s.nextLocalId := by
    intro i hi
    obtain ⟨x, hx, -, hg⟩ := hrow i hi
    exact (h.table.issued _).2 ⟨x, Or.inl ⟨hx, hg⟩⟩
  set names := (List.range s.nextLocalId).map (fun g => s.slotKey (slot g)) with hnames
  have hlength : names.length = s.nextLocalId := by simp [hnames]
  have hnodup : names.Nodup := by
    refine List.Nodup.map_on (fun g hg g' hg' heq => ?_) List.nodup_range
    exact (h.table.found_inj (hfound g (List.mem_range.1 hg))
      (hfound g' (List.mem_range.1 hg'))).2 heq
  have hget : ∀ i (hi : i < a.count),
      names.get ⟨s.rowToLocalGroup (a.row i), by rw [hlength]; exact hissued i hi⟩ = a.keyAt i := by
    intro i hi
    simp only [hnames, List.get_eq_getElem, List.getElem_map, List.getElem_range]
    exact (h.table.found_inj (hfound _ (hissued i hi)) (hrow i hi)).1 rfl
  simp only [List.get_eq_getElem] at hget
  refine ⟨names, hnodup, hlength, fun k => ?_, fun i hi => ?_⟩
  · refine ⟨?_, ?_⟩
    · intro hk
      obtain ⟨g, hg, rfl⟩ := List.mem_map.1 hk
      exact (h.table.entry _ (hpub g (List.mem_range.1 hg))).2
    · rintro ⟨i, hi, rfl⟩
      rw [← hget i hi]
      exact List.getElem_mem _
  · have := hnodup.idxOf_getElem _ (by rw [hlength]; exact hissued i hi)
    rw [hget i hi] at this
    exact this.symm

theorem partitionBuild_idle (a : PartitionArgs) (before : ℕ → ℕ) (schedule : List (ℕ × Bool))
    {t : ℕ} (ht : a.tgSize ≤ t) : (partitionBuild a before schedule).pc t = .barrier := by
  have hstep : ∀ s label, s.pc t = .barrier → (partitionBuildStep a s label).pc t = .barrier := by
    rintro s ⟨u, spurious⟩ hs
    by_cases hu : t = u
    · subst hu
      simp only [partitionBuildStep, hs]
    · cases hpc : s.pc u <;> simp only [partitionBuildStep, hpc] <;> (try split_ifs) <;>
        simp [BuildState.goto, hu, hs]
  induction schedule using List.reverseRecOn with
  | nil => exact if_neg (Nat.not_lt.2 ht)
  | append_singleton schedule label ih =>
    rw [partitionBuild, run_append]
    exact hstep _ label ih

theorem noSpurious_of_strong {a : PartitionArgs} {schedule : List (ℕ × Bool)}
    (h : ∀ label ∈ schedule, label.2 = false) (s : BuildState) :
    Throughout (partitionBuildStep a) (fun s label => ¬ SpuriousFailure s label) s schedule := by
  induction schedule generalizing s with
  | nil => trivial
  | cons label schedule ih =>
    obtain ⟨hnow, hrest⟩ := List.forall_mem_cons.1 h
    refine ⟨?_, ih hrest _⟩
    rintro ⟨-, -, -, -, -, hfail⟩
    rw [hnow] at hfail
    cases hfail

/-! The slices. -/

theorem partitionScatter_eq (keys : List Lane) (nPartitions : ℕ) (threads : List ℕ) :
    partitionScatter keys nPartitions threads = (List.range nPartitions).map (fun p =>
      threads.filter (fun r => r < keys.length ∧ partitionId (keyOf keys r) nPartitions = p)) := by
  unfold partitionScatter
  induction threads using List.reverseRecOn with
  | nil => simp
  | append_singleton threads r ih =>
    rw [List.foldl_append, ih, List.foldl_cons, List.foldl_nil, scatterStep, ← keyOf.eq_1]
    by_cases hr : r < keys.length
    · rw [if_neg (by omega)]
      apply List.ext_getElem
      · simp
      · intro p h1 h2
        rw [List.getElem_modify, List.getElem_map, List.getElem_map, List.getElem_range,
          List.filter_append, List.filter_singleton]
        simp only [hr, true_and]
        by_cases hp : partitionId (keyOf keys r) nPartitions = p
        · rw [if_pos hp, decide_eq_true hp, cond_true]
        · rw [if_neg hp, decide_eq_false hp, cond_false, List.append_nil]
    · rw [if_pos (by omega)]
      simp [List.filter_append, hr]

theorem mem_slice {g : GpuRun} {keys : List Lane} {nPartitions p : ℕ} (hp : p < nPartitions)
    (hscatter : g.scatterOrder.Perm (List.range keys.length)) {r : ℕ} :
    r ∈ (g.args keys nPartitions p).rowIndices ↔
      r < keys.length ∧ partitionId (keyOf keys r) nPartitions = p := by
  rw [GpuRun.args, partitionScatter_eq, getD_of_lt _ (by simpa using hp)]
  simp only [List.getElem_map, List.getElem_range, List.mem_filter, decide_eq_true_eq,
    hscatter.mem_iff, List.mem_range]
  refine ⟨fun h => h.2, fun h => ⟨h.1, h⟩⟩

theorem count_le {g : GpuRun} {keys : List Lane} {nPartitions p : ℕ} (hp : p < nPartitions)
    (hscatter : g.scatterOrder.Perm (List.range keys.length)) :
    (g.args keys nPartitions p).count ≤ keys.length := by
  rw [PartitionArgs.count, GpuRun.args, partitionScatter_eq, getD_of_lt _ (by simpa using hp)]
  simp only [List.getElem_map, List.getElem_range]
  refine (List.length_filter_le _ _).trans ?_
  rw [hscatter.length_eq, List.length_range]

/-! The whole dispatch. -/

/-- The launch is well formed and every threadgroup runs to its end. -/
structure GpuRun.Complete (g : GpuRun) (keys : List Lane) (nPartitions : ℕ) : Prop where
  slots : 0 < g.tgsmSlots ∧ g.tgsmSlots < 2 ^ 32
  threads : 0 < g.tgSize
  scatter : g.scatterOrder.Perm (List.range keys.length)
  finished : ∀ p < nPartitions, (g.group keys nPartitions p).Finished

/-- No weak compare-exchange fails on a slot that is still empty. -/
def GpuRun.NoSpuriousFailure (g : GpuRun) (keys : List Lane) (nPartitions : ℕ) : Prop :=
  ∀ p < nPartitions, Throughout (partitionBuildStep (g.args keys nPartitions p))
    (fun s label => ¬ SpuriousFailure s label)
    (partitionBuildInit (g.args keys nPartitions p) g.scratch) (g.schedule p)

def GpuRun.NoOverflow (g : GpuRun) (keys : List Lane) (nPartitions : ℕ) : Prop :=
  ∀ p < nPartitions, (g.group keys nPartitions p).overflowFlag = false

/-- Each partition's keys in the order of their local ids. -/
theorem GpuRun.numbering {g : GpuRun} {keys : List Lane} {nPartitions : ℕ}
    (hrun : g.Complete keys nPartitions) (hcas : g.NoSpuriousFailure keys nPartitions)
    (hclear : g.NoOverflow keys nPartitions) (hlen : keys.length < 2 ^ 32) :
    ∃ names : ℕ → List Lane, PartitionNumbering keys nPartitions names ∧
      ∀ p < nPartitions, (names p).length = (g.group keys nPartitions p).nextLocalId ∧
        ∀ r < keys.length, partitionId (keyOf keys r) nPartitions = p →
          (g.group keys nPartitions p).rowToLocalGroup r = (names p).idxOf (keyOf keys r) := by
  have hnames : ∀ p < nPartitions, ∃ names : List Lane, names.Nodup ∧
      names.length = (g.group keys nPartitions p).nextLocalId ∧
      (∀ k, k ∈ names ↔ k ∈ keys ∧ partitionId k nPartitions = p) ∧
      ∀ r < keys.length, partitionId (keyOf keys r) nPartitions = p →
        (g.group keys nPartitions p).rowToLocalGroup r = names.idxOf (keyOf keys r) := by
    intro p hp
    have hinv := buildInv_run hrun.slots.1 hrun.slots.2 (hcas p hp)
    obtain ⟨names, hnodup, hlength, hmem, hlocal⟩ := hinv.names hrun.threads
      ((count_le hp hrun.scatter).trans_lt hlen) (hrun.finished p hp) (hclear p hp)
    -- positions in the slice are the partition's rows
    have hpos : ∀ r < keys.length, partitionId (keyOf keys r) nPartitions = p →
        ∃ i < (g.args keys nPartitions p).count, (g.args keys nPartitions p).row i = r := by
      intro r hr hpart
      obtain ⟨i, hi, hget⟩ := List.getElem_of_mem ((mem_slice hp hrun.scatter).2 ⟨hr, hpart⟩)
      exact ⟨i, hi, by rw [PartitionArgs.row, getD_of_lt _ hi, hget]⟩
    have hkey : ∀ i, (g.args keys nPartitions p).keyAt i =
        keyOf keys ((g.args keys nPartitions p).row i) := fun _ => rfl
    refine ⟨names, hnodup, hlength, fun k => ?_, fun r hr hpart => ?_⟩
    · rw [hmem]
      refine ⟨?_, ?_⟩
      · rintro ⟨i, hi, rfl⟩
        have hin : (g.args keys nPartitions p).row i ∈ (g.args keys nPartitions p).rowIndices := by
          rw [PartitionArgs.row, getD_of_lt _ hi]
          exact List.getElem_mem hi
        obtain ⟨hlt, hpart⟩ := (mem_slice hp hrun.scatter).1 hin
        refine ⟨?_, hpart⟩
        rw [hkey, keyOf, getD_of_lt keys hlt]
        exact List.getElem_mem hlt
      · rintro ⟨hk, hpart⟩
        obtain ⟨r, hr, rfl⟩ := List.getElem_of_mem hk
        have hkr : keyOf keys r = keys[r] := getD_of_lt keys hr 0
        obtain ⟨i, hi, hrow⟩ := hpos r hr (by rw [hkr]; exact hpart)
        exact ⟨i, hi, by rw [hkey, hrow, hkr]⟩
    · obtain ⟨i, hi, hrow⟩ := hpos r hr hpart
      have := hlocal i hi
      rwa [hkey, hrow] at this
  choose! names hnodup hlength hmem hlocal using hnames
  exact ⟨names, ⟨hnodup, hmem⟩, fun p hp => ⟨hlength p hp, hlocal p hp⟩⟩

/-- The host's output numbers the keys partition by partition. -/
theorem partitionAndBuild_eq {g : GpuRun} {keys : List Lane} {nPartitions : ℕ}
    (hpow : ∃ b, nPartitions = 2 ^ b) (hlen : keys.length < 2 ^ 32)
    (hclear : g.NoOverflow keys nPartitions) {names : ℕ → List Lane}
    (hnum : PartitionNumbering keys nPartitions names)
    (hnames : ∀ p < nPartitions, (names p).length = (g.group keys nPartitions p).nextLocalId ∧
      ∀ r < keys.length, partitionId (keyOf keys r) nPartitions = p →
        (g.group keys nPartitions p).rowToLocalGroup r = (names p).idxOf (keyOf keys r)) :
    partitionAndBuildWithScratch g keys nPartitions =
      .ok ⟨idsBy (allNames nPartitions names) keys, firstsBy (allNames nPartitions names) keys,
        (allNames nPartitions names).length⟩ := by
  have hpos : 0 < nPartitions := by obtain ⟨b, rfl⟩ := hpow; exact Nat.two_pow_pos b
  have henum := hnum.enumerates hpos
  by_cases hnil : keys = []
  · subst hnil
    have hempty : allNames nPartitions names = [] := by
      rw [List.eq_nil_iff_forall_not_mem]
      intro k hk
      exact absurd ((henum.mem_iff k).1 hk) (by simp)
    rw [hempty]
    rfl
  have hassert : ¬ nPartitions ≠ 2 ^ nPartitions.log2 := by
    obtain ⟨b, rfl⟩ := hpow
    simp [Nat.log2_two_pow]
  have hover : ¬ ∃ p ∈ List.range nPartitions,
      (g.group keys nPartitions p).overflowFlag = true := by
    rintro ⟨p, hp, hflag⟩
    rw [hclear p (List.mem_range.1 hp)] at hflag
    cases hflag
  have hcounts : (List.range nPartitions).map (fun p => (g.group keys nPartitions p).nextLocalId) =
      (List.range nPartitions).map (fun p => (names p).length) :=
    List.map_congr_left (fun p hp => (hnames p (List.mem_range.1 hp)).1.symm)
  obtain ⟨hgroups, hfold⟩ := hnum.globalRun hpos hlen
    ((List.range keys.length).map (fun r =>
      (g.group keys nPartitions (partitionId (keys.getD r 0) nPartitions)).rowToLocalGroup r))
    (fun r hr => by
      rw [getD_of_lt _ (by simpa using hr), List.getElem_map, List.getElem_range]
      exact (hnames _ (partitionId_lt _ hpos)).2 r hr rfl)
  rw [partitionAndBuildWithScratch, if_neg hnil, if_neg hassert, if_neg (by omega), if_neg hover]
  simp only [readBack, hcounts, hgroups, hfold]

theorem groups_partitionAndBuild {g : GpuRun} {keys : List Lane} {nPartitions : ℕ}
    (hpow : ∃ b, nPartitions = 2 ^ b) (hlen : keys.length < 2 ^ 32)
    (hrun : g.Complete keys nPartitions) (hcas : g.NoSpuriousFailure keys nPartitions)
    (hclear : g.NoOverflow keys nPartitions) :
    ∃ out, partitionAndBuildWithScratch g keys nPartitions = .ok out ∧ Groups keys out := by
  obtain ⟨names, hnum, hnames⟩ := g.numbering hrun hcas hclear hlen
  have hpos : 0 < nPartitions := by obtain ⟨b, rfl⟩ := hpow; exact Nat.two_pow_pos b
  exact ⟨_, partitionAndBuild_eq hpow hlen hclear hnum hnames, (hnum.enumerates hpos).isGrouping⟩

/-- Where the host puts the ids of partition `p`. -/
def GpuRun.groupOffset (g : GpuRun) (keys : List Lane) (nPartitions p : ℕ) : ℕ :=
  ((List.range p).map (fun q => (g.group keys nPartitions q).nextLocalId)).sum

theorem GpuRun.groupOffset_eq {g : GpuRun} {keys : List Lane} {nPartitions p : ℕ}
    {names : ℕ → List Lane}
    (hnames : ∀ q < nPartitions, (names q).length = (g.group keys nPartitions q).nextLocalId)
    (hp : p ≤ nPartitions) :
    g.groupOffset keys nPartitions p =
      ((((List.range nPartitions).map names).map List.length).take p).sum := by
  rw [List.map_map, ← List.map_take, List.take_range, Nat.min_eq_left hp, groupOffset]
  congr 1
  exact List.map_congr_left (fun q hq => (hnames q ((List.mem_range.1 hq).trans_le hp)).symm)

/-- Without spurious failures, every interleaving that ends without overflow gives equal keys one
local id, issues exactly the ids below the count, and records a first row that has the id's key. -/
theorem partitionBuild_numbers_keys {g : GpuRun} {keys : List Lane} {nPartitions : ℕ}
    (hpow : ∃ b, nPartitions = 2 ^ b) (hlen : keys.length < 2 ^ 32)
    (hrun : g.Complete keys nPartitions) (hcas : g.NoSpuriousFailure keys nPartitions)
    (hclear : g.NoOverflow keys nPartitions) :
    (∀ p < nPartitions,
      (∀ r ∈ (g.args keys nPartitions p).rowIndices, ∀ r' ∈ (g.args keys nPartitions p).rowIndices,
        (g.group keys nPartitions p).rowToLocalGroup r =
          (g.group keys nPartitions p).rowToLocalGroup r' ↔ keyOf keys r = keyOf keys r') ∧
      ∀ id, (∃ r ∈ (g.args keys nPartitions p).rowIndices,
        (g.group keys nPartitions p).rowToLocalGroup r = id) ↔
          id < (g.group keys nPartitions p).nextLocalId) ∧
    ∃ out, partitionAndBuildWithScratch g keys nPartitions = .ok out ∧
      ∀ p < nPartitions, ∀ id < (g.group keys nPartitions p).nextLocalId,
        ∃ first, out.firstRowPerGroup[g.groupOffset keys nPartitions p + id]? = some first ∧
          ∀ r ∈ (g.args keys nPartitions p).rowIndices,
            (g.group keys nPartitions p).rowToLocalGroup r = id →
              keys[first]? = some (keyOf keys r) := by
  obtain ⟨names, hnum, hnames⟩ := g.numbering hrun hcas hclear hlen
  have hpos : 0 < nPartitions := by obtain ⟨b, rfl⟩ := hpow; exact Nat.two_pow_pos b
  refine ⟨fun p hp => ⟨fun r hr r' hr' => ?_, fun id => ?_⟩, ?_⟩
  · obtain ⟨hlt, hpart⟩ := (mem_slice hp hrun.scatter).1 hr
    obtain ⟨hlt', hpart'⟩ := (mem_slice hp hrun.scatter).1 hr'
    rw [(hnames p hp).2 r hlt hpart, (hnames p hp).2 r' hlt' hpart']
    refine List.idxOf_inj ((hnum.mem_iff p hp _).2 ⟨?_, hpart⟩)
    rw [keyOf, getD_of_lt keys hlt]
    exact List.getElem_mem hlt
  · rw [← (hnames p hp).1]
    refine ⟨?_, ?_⟩
    · rintro ⟨r, hr, rfl⟩
      obtain ⟨hlt, hpart⟩ := (mem_slice hp hrun.scatter).1 hr
      rw [(hnames p hp).2 r hlt hpart]
      refine List.idxOf_lt_length_of_mem ((hnum.mem_iff p hp _).2 ⟨?_, hpart⟩)
      rw [keyOf, getD_of_lt keys hlt]
      exact List.getElem_mem hlt
    · intro hid
      obtain ⟨hk, hpart⟩ := (hnum.mem_iff p hp _).1 (List.getElem_mem hid)
      obtain ⟨r, hr, hkr⟩ := List.getElem_of_mem hk
      have hkey : keyOf keys r = (names p)[id] := (getD_of_lt keys hr 0).trans hkr
      refine ⟨r, (mem_slice hp hrun.scatter).2 ⟨hr, by rw [hkey]; exact hpart⟩, ?_⟩
      rw [(hnames p hp).2 r hr (by rw [hkey]; exact hpart), hkey]
      exact (hnum.nodup p hp).idxOf_getElem id hid
  · refine ⟨_, partitionAndBuild_eq hpow hlen hclear hnum hnames, fun p hp id hid => ?_⟩
    rw [← (hnames p hp).1] at hid
    obtain ⟨hk, hpart⟩ := (hnum.mem_iff p hp _).1 (List.getElem_mem hid)
    have hplace : (allNames nPartitions names).idxOf (names p)[id] =
        g.groupOffset keys nPartitions p + id := by
      rw [g.groupOffset_eq (fun q hq => (hnames q hq).1) hp.le, hnum.idxOf_allNames hpos hk, hpart,
        (hnum.nodup p hp).idxOf_getElem id hid]
    have hlt := List.idxOf_lt_length_of_mem ((hnum.enumerates hpos).mem_iff _ |>.2 hk)
    refine ⟨keys.idxOf (names p)[id], ?_, fun r hr hlocal => ?_⟩
    · rw [← hplace, firstsBy, List.getElem?_map, List.getElem?_eq_getElem hlt, List.getElem_idxOf hlt]
      rfl
    · obtain ⟨hr', hpart'⟩ := (mem_slice hp hrun.scatter).1 hr
      have hkr : keyOf keys r ∈ names p := by
        refine (hnum.mem_iff p hp _).2 ⟨?_, hpart'⟩
        rw [keyOf, getD_of_lt keys hr']
        exact List.getElem_mem hr'
      have hsame : (names p)[id] = keyOf keys r := by
        have hidx := (hnames p hp).2 r hr' hpart'
        rw [hlocal] at hidx
        subst hidx
        exact List.getElem_idxOf hid
      rw [hsame, (isLeast_idxOf (hsame ▸ hk)).1]

/-- Two threads, one partition; the threads run one after the other. -/
def sequentialRun : GpuRun where
  tgsmSlots := 1024
  tgSize := 2
  scatterOrder := [1, 0, 2]
  schedule := fun _ => List.replicate 24 (0, false) ++ List.replicate 24 (1, false)
  scratch := fun _ => 9

/-- Thread 0 loses its compare-exchange on an empty slot; thread 1 then claims that slot. -/
def spuriousRun : GpuRun where
  tgsmSlots := 1024
  tgSize := 2
  scatterOrder := [0, 1]
  schedule := fun _ => [(0, false), (0, false), (0, true)] ++ List.replicate 8 (0, false) ++
    List.replicate 8 (1, false)
  scratch := fun _ => 0

theorem finished_of_threads {a : PartitionArgs} {before : ℕ → ℕ} {schedule : List (ℕ × Bool)}
    (h : ∀ t < a.tgSize, (partitionBuild a before schedule).pc t = .barrier) :
    (partitionBuild a before schedule).Finished := by
  intro t
  by_cases ht : t < a.tgSize
  · exact h t ht
  · exact partitionBuild_idle a before schedule (Nat.le_of_not_lt ht)

theorem complete_sequentialRun : sequentialRun.Complete [5, 7, 5] 1 := by
  refine ⟨by decide, by decide, by decide, fun p hp => ?_⟩
  obtain rfl : p = 0 := by omega
  exact finished_of_threads (by decide +kernel)

theorem noSpuriousFailure_sequentialRun (keys : List Lane) (nPartitions : ℕ) :
    sequentialRun.NoSpuriousFailure keys nPartitions :=
  fun p _ => noSpurious_of_strong (by simp [sequentialRun]) _

theorem partitionBuild_numbers_keys_sample :
    (∀ p < 1,
      (∀ r ∈ (sequentialRun.args [5, 7, 5] 1 p).rowIndices,
        ∀ r' ∈ (sequentialRun.args [5, 7, 5] 1 p).rowIndices,
        (sequentialRun.group [5, 7, 5] 1 p).rowToLocalGroup r =
          (sequentialRun.group [5, 7, 5] 1 p).rowToLocalGroup r' ↔
            keyOf [5, 7, 5] r = keyOf [5, 7, 5] r') ∧
      ∀ id, (∃ r ∈ (sequentialRun.args [5, 7, 5] 1 p).rowIndices,
        (sequentialRun.group [5, 7, 5] 1 p).rowToLocalGroup r = id) ↔
          id < (sequentialRun.group [5, 7, 5] 1 p).nextLocalId) ∧
    ∃ out, partitionAndBuildWithScratch sequentialRun [5, 7, 5] 1 = .ok out ∧
      ∀ p < 1, ∀ id < (sequentialRun.group [5, 7, 5] 1 p).nextLocalId,
        ∃ first, out.firstRowPerGroup[sequentialRun.groupOffset [5, 7, 5] 1 p + id]? = some first ∧
          ∀ r ∈ (sequentialRun.args [5, 7, 5] 1 p).rowIndices,
            (sequentialRun.group [5, 7, 5] 1 p).rowToLocalGroup r = id →
              ([5, 7, 5] : List Lane)[first]? = some (keyOf [5, 7, 5] r) :=
  partitionBuild_numbers_keys ⟨0, rfl⟩ (by decide) complete_sequentialRun
    (noSpuriousFailure_sequentialRun _ _)
    (fun p hp => by obtain rfl : p = 0 := by omega
                    decide +kernel)

/-- After a spurious failure two rows with one key get two ids, and the overflow flag stays clear. -/
theorem spurious_failure_splits_key :
    spuriousRun.Complete [5, 5] 1 ∧ spuriousRun.NoOverflow [5, 5] 1 ∧
      ¬ ((spuriousRun.group [5, 5] 1 0).rowToLocalGroup 0 =
          (spuriousRun.group [5, 5] 1 0).rowToLocalGroup 1 ↔
        keyOf [5, 5] 0 = keyOf [5, 5] 1) := by
  refine ⟨⟨by decide, by decide, by decide, fun p hp => ?_⟩, fun p hp => ?_, by decide +kernel⟩
  · obtain rfl : p = 0 := by omega
    exact finished_of_threads (by decide +kernel)
  · obtain rfl : p = 0 := by omega
    decide +kernel

end PolarsMetal.GroupBy
