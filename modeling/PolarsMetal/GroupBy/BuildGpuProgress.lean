import PolarsMetal.GroupBy.BuildGpuOrder

/-! Every launch can run to its end: threads taken one after the other never wait.
A partition whose rows share one key never overflows. -/

namespace PolarsMetal.GroupBy
open Runs BuildState

/-- Steps left to a thread that runs alone, bounded from above. -/
def Pc.stepsLeft (a : PartitionArgs) : Pc → ℕ
  | .barrier => 0
  | .rowLoop i => (a.count - i) * 400 + 1
  | .loadState i _ probe => (a.count - i - 1) * 400 + (tgsmProbeLimit - probe) * 5 + 24
  | .claim i _ probe => (a.count - i - 1) * 400 + (tgsmProbeLimit - probe) * 5 + 23
  | .spin i _ probe => (a.count - i - 1) * 400 + (tgsmProbeLimit - probe) * 5 + 22
  | .compareKey i _ probe _ => (a.count - i - 1) * 400 + (tgsmProbeLimit - probe) * 5 + 21
  | .writeKey i _ => (a.count - i - 1) * 400 + 10
  | .takeId i _ => (a.count - i - 1) * 400 + 9
  | .publish i _ _ => (a.count - i - 1) * 400 + 8
  | .setOverflow i => (a.count - i - 1) * 400 + 5
  | .storeGroup i _ => (a.count - i - 1) * 400 + 4

/-- Past the probe limit a thread only loads. -/
def Pc.ProbeOk : Pc → Prop
  | .claim _ _ probe | .spin _ _ probe | .compareKey _ _ probe _ => probe < tgsmProbeLimit
  | _ => True

/-- Only thread `t` may be between a claim and its publication. -/
structure Alone (s : BuildState) (t : ℕ) : Prop where
  claims : ∀ x, s.slotState x = u32Max → (s.pc t).claimed = some x
  probe : (s.pc t).ProbeOk

section Step

variable {a : PartitionArgs} {s : BuildState} {t : ℕ}

theorem step_others (a : PartitionArgs) (s : BuildState) (t : ℕ) (spurious : Bool) {u : ℕ}
    (hu : u ≠ t) : (partitionBuildStep a s (t, spurious)).pc u = s.pc u := by
  cases hpc : s.pc t <;> simp only [partitionBuildStep, hpc] <;> (try split_ifs) <;>
    simp [BuildState.goto, hu]

theorem settle_stepsLeft (i slot probe state : ℕ) :
    (settle i slot probe state).stepsLeft a <
      (a.count - i - 1) * 400 + (tgsmProbeLimit - probe) * 5 + 23 := by
  unfold settle
  split_ifs <;> simp only [Pc.stepsLeft] <;> omega

theorem settle_probeOk {i slot probe : ℕ} (state : ℕ) (h : probe < tgsmProbeLimit) :
    (settle i slot probe state).ProbeOk := by
  unfold settle
  split_ifs <;> exact h

theorem leaveProbe_stepsLeft (i groupId : ℕ) :
    (leaveProbe i groupId).stepsLeft a < (a.count - i - 1) * 400 + 8 := by
  unfold leaveProbe
  split_ifs <;> simp only [Pc.stepsLeft] <;> omega

theorem leaveProbe_probeOk (i groupId : ℕ) : (leaveProbe i groupId).ProbeOk := by
  unfold leaveProbe
  split_ifs <;> trivial

/-- A step that only moves the thread, from and to points outside a claim. -/
theorem Alone.goto (h : Alone s t) {pc : Pc} (hold : (s.pc t).claimed = none) (hok : pc.ProbeOk) :
    Alone (s.goto t pc) t := by
  refine ⟨fun x hx => ?_, by rw [goto_pc_self]; exact hok⟩
  have := h.claims x hx
  rw [hold] at this
  cases this

/-- A thread that runs alone comes closer to the barrier with every step. -/
theorem Alone.step (h : Alone s t) (hinv : BuildInv a s) (hfit : a.count + a.tgSize < 2 ^ 32)
    (hsize : 0 < a.tgSize) (hpc : s.pc t ≠ .barrier) :
    Alone (partitionBuildStep a s (t, false)) t ∧
      ((partitionBuildStep a s (t, false)).pc t).stepsLeft a < (s.pc t).stepsLeft a := by
  have hok := hinv.thread t
  have hprobe := h.probe
  -- a slot that no other thread claims is not being claimed
  have hfree : (s.pc t).claimed = none → ∀ x, s.slotState x ≠ u32Max := by
    intro hnone x hx
    have := h.claims x hx
    rw [hnone] at this
    cases this
  cases hp : s.pc t with
  | barrier => exact absurd hp hpc
  | rowLoop i =>
    simp only [partitionBuildStep, hp, goto_pc_self]
    split_ifs with hi
    · refine ⟨h.goto (by rw [hp]; rfl) trivial, ?_⟩
      simp only [Pc.stepsLeft, tgsmProbeLimit]
      omega
    · refine ⟨h.goto (by rw [hp]; rfl) trivial, ?_⟩
      simp only [Pc.stepsLeft]
      omega
  | loadState i slot probe =>
    simp only [partitionBuildStep, hp]
    split_ifs with hlim hempty
    · refine ⟨h.goto (by rw [hp]; rfl) hlim, ?_⟩
      rw [goto_pc_self]
      simp only [Pc.stepsLeft]
      omega
    · refine ⟨h.goto (by rw [hp]; rfl) (settle_probeOk _ hlim), ?_⟩
      rw [goto_pc_self]
      refine (settle_stepsLeft i slot probe (s.slotState slot)).trans ?_
      simp only [Pc.stepsLeft]
      omega
    · refine ⟨h.goto (by rw [hp]; rfl) (leaveProbe_probeOk _ _), ?_⟩
      rw [goto_pc_self]
      refine (leaveProbe_stepsLeft i u32Max).trans_le ?_
      simp only [Pc.stepsLeft]
      omega
  | claim i slot probe =>
    rw [hp] at hprobe
    simp only [partitionBuildStep, hp]
    split_ifs with hwin
    · refine ⟨⟨fun x hx => ?_, by rw [goto_pc_self]; trivial⟩, ?_⟩
      · rw [goto_pc_self]
        by_cases hxs : x = slot
        · rw [hxs]
          rfl
        · simp only [goto_slotState, Function.update_of_ne hxs] at hx
          exact absurd hx (hfree (by rw [hp]; rfl) x)
      · rw [goto_pc_self]
        simp only [Pc.stepsLeft]
        omega
    · refine ⟨h.goto (by rw [hp]; rfl) (settle_probeOk _ hprobe), ?_⟩
      rw [goto_pc_self]
      exact settle_stepsLeft i slot probe (s.slotState slot)
  | writeKey i slot =>
    simp only [partitionBuildStep, hp]
    refine ⟨⟨fun x hx => ?_, by rw [goto_pc_self]; trivial⟩, ?_⟩
    · rw [goto_pc_self]
      have := h.claims x hx
      rw [hp] at this
      exact this
    · rw [goto_pc_self]
      simp only [Pc.stepsLeft]
      omega
  | takeId i slot =>
    simp only [partitionBuildStep, hp]
    refine ⟨⟨fun x hx => ?_, by rw [goto_pc_self]; trivial⟩, ?_⟩
    · rw [goto_pc_self]
      have := h.claims x hx
      rw [hp] at this
      exact this
    · rw [goto_pc_self]
      simp only [Pc.stepsLeft]
      omega
  | publish i slot gid =>
    simp only [partitionBuildStep, hp]
    have hgid : gid < s.nextLocalId := (hinv.table.issued gid).2 ⟨slot, Or.inr ⟨t, i, hp⟩⟩
    have hids := hinv.table.ids
    refine ⟨⟨fun x hx => ?_, by rw [goto_pc_self]; exact leaveProbe_probeOk _ _⟩, ?_⟩
    · by_cases hxs : x = slot
      · have hstate : asU32 (gid + 1) = u32Max := by simpa [hxs] using hx
        rw [asU32_of_lt (by simp only [u32Max] at hids; omega)] at hstate
        omega
      · simp only [goto_slotState, Function.update_of_ne hxs] at hx
        have := h.claims x hx
        rw [hp] at this
        cases this
        exact absurd rfl hxs
    · rw [goto_pc_self]
      exact leaveProbe_stepsLeft i gid
  | spin i slot probe =>
    rw [hp] at hprobe
    simp only [partitionBuildStep, hp]
    refine ⟨h.goto (by rw [hp]; rfl) (settle_probeOk _ hprobe), ?_⟩
    rw [goto_pc_self, settle, if_neg (hfree (by rw [hp]; rfl) slot)]
    simp only [Pc.stepsLeft]
    omega
  | compareKey i slot probe state =>
    rw [hp] at hprobe
    have hlim : probe < tgsmProbeLimit := hprobe
    simp only [partitionBuildStep, hp]
    split_ifs with hkey
    · generalize asU32 (state + u32Max) = groupId
      refine ⟨h.goto (by rw [hp]; rfl) (leaveProbe_probeOk _ _), ?_⟩
      rw [goto_pc_self]
      refine (leaveProbe_stepsLeft i groupId).trans_le ?_
      simp only [Pc.stepsLeft]
      omega
    · refine ⟨h.goto (by rw [hp]; rfl) trivial, ?_⟩
      rw [goto_pc_self]
      simp only [Pc.stepsLeft]
      omega
  | setOverflow i =>
    simp only [partitionBuildStep, hp]
    refine ⟨⟨fun x hx => ?_, by rw [goto_pc_self]; trivial⟩, ?_⟩
    · exact absurd hx (hfree (by rw [hp]; rfl) x)
    · rw [goto_pc_self]
      simp only [Pc.stepsLeft]
      omega
  | storeGroup i groupId =>
    rw [hp] at hok
    have hi : i < a.count := hok.1
    simp only [partitionBuildStep, hp]
    refine ⟨⟨fun x hx => ?_, by rw [goto_pc_self]; trivial⟩, ?_⟩
    · exact absurd hx (hfree (by rw [hp]; rfl) x)
    · rw [goto_pc_self]
      simp only [Pc.stepsLeft]
      rw [asU32_of_lt (by omega)]
      omega

end Step

/-! Thread after thread. -/

section Runs

variable {a : PartitionArgs}

theorem noSpurious_replicate (a : PartitionArgs) (s : BuildState) (n t : ℕ) :
    Throughout (partitionBuildStep a) (fun s label => ¬ SpuriousFailure s label) s
      (List.replicate n (t, false)) :=
  noSpurious_of_strong (fun label hlabel => by rw [List.eq_of_mem_replicate hlabel]) s

/-- A thread that runs alone reaches the barrier, and the others do not move. -/
theorem Alone.finishes {s : BuildState} {t : ℕ} (h : Alone s t) (hinv : BuildInv a s)
    (hpos : 0 < a.tgsmSlots) (hcap : a.tgsmSlots < 2 ^ 32) (hfit : a.count + a.tgSize < 2 ^ 32)
    (hsize : 0 < a.tgSize) :
    ∃ n, (run (partitionBuildStep a) s (List.replicate n (t, false))).pc t = .barrier ∧
      Alone (run (partitionBuildStep a) s (List.replicate n (t, false))) t ∧
      ∀ u, u ≠ t → (run (partitionBuildStep a) s (List.replicate n (t, false))).pc u = s.pc u := by
  induction hleft : (s.pc t).stepsLeft a using Nat.strong_induction_on generalizing s with
  | _ left ih =>
    by_cases hpc : s.pc t = .barrier
    · exact ⟨0, hpc, h, fun _ _ => rfl⟩
    · obtain ⟨hnext, hlt⟩ := h.step hinv hfit hsize hpc
      have hcas := noSpurious_replicate a s 1 t
      obtain ⟨n, hdone, halone, hother⟩ := ih _ (hleft ▸ hlt) hnext
        (buildInv_step hpos hcap hcas.1 hinv) rfl
      refine ⟨n + 1, hdone, halone, fun u hu => ?_⟩
      exact (hother u hu).trans (step_others a s t false hu)

/-- Every launch has a run to its end. -/
theorem exists_finished (hpos : 0 < a.tgsmSlots) (hcap : a.tgsmSlots < 2 ^ 32)
    (hfit : a.count + a.tgSize < 2 ^ 32) (hsize : 0 < a.tgSize) (before : ℕ → ℕ) :
    ∃ schedule : List (ℕ × Bool), (∀ label ∈ schedule, label.2 = false) ∧
      (partitionBuild a before schedule).Finished := by
  have hprefix : ∀ k, ∃ schedule : List (ℕ × Bool), (∀ label ∈ schedule, label.2 = false) ∧
      (∀ t < k, (partitionBuild a before schedule).pc t = .barrier) ∧
      (∀ t, k ≤ t → (partitionBuild a before schedule).pc t = (partitionBuildInit a before).pc t) ∧
      ∀ x, (partitionBuild a before schedule).slotState x ≠ u32Max := by
    intro k
    induction k with
    | zero =>
      refine ⟨[], by simp, by simp, fun _ _ => rfl, fun x hx => ?_⟩
      exact absurd (show 0 = u32Max from hx) (by decide)
    | succ k ih =>
      obtain ⟨schedule, hstrong, hdone, hrest, hfree⟩ := ih
      have hinv := buildInv_run hpos hcap
        (noSpurious_of_strong hstrong (partitionBuildInit a before))
      have halone : Alone (partitionBuild a before schedule) k := by
        refine ⟨fun x hx => absurd hx (hfree x), ?_⟩
        rw [hrest k le_rfl]
        change (if k < a.tgSize then Pc.rowLoop k else .barrier).ProbeOk
        split_ifs <;> trivial
      obtain ⟨n, hk, hend, hother⟩ := halone.finishes hinv hpos hcap hfit hsize
      have hrun : partitionBuild a before (schedule ++ List.replicate n (k, false)) =
          run (partitionBuildStep a) (partitionBuild a before schedule)
            (List.replicate n (k, false)) := run_append ..
      refine ⟨schedule ++ List.replicate n (k, false), fun label hlabel => ?_, fun t ht => ?_,
        fun t ht => ?_, fun x hx => ?_⟩
      · rcases List.mem_append.1 hlabel with hl | hl
        · exact hstrong label hl
        · rw [List.eq_of_mem_replicate hl]
      · rw [hrun]
        rcases Nat.lt_succ_iff_lt_or_eq.1 ht with hlt | rfl
        · rw [hother t (by omega)]
          exact hdone t hlt
        · exact hk
      · rw [hrun, hother t (by omega)]
        exact hrest t (by omega)
      · rw [hrun] at hx
        have := hend.claims x hx
        rw [hk] at this
        cases this
  obtain ⟨schedule, hstrong, hdone, -, -⟩ := hprefix a.tgSize
  exact ⟨schedule, hstrong, finished_of_threads hdone⟩

end Runs

/-! One key. -/

/-- No thread has had to probe past its home slot. -/
def Pc.AtHome : Pc → Prop
  | .loadState _ _ probe | .claim _ _ probe | .spin _ _ probe | .compareKey _ _ probe _ => probe = 0
  | .setOverflow _ => False
  | .storeGroup _ groupId => groupId ≠ u32Max
  | _ => True

structure AllHome (s : BuildState) : Prop where
  flag : s.overflowFlag = false
  threads : ∀ t, (s.pc t).AtHome

theorem step_overflowFlag {a : PartitionArgs} {s : BuildState} {t : ℕ} {spurious : Bool}
    (h : ∀ i, s.pc t ≠ .setOverflow i) :
    (partitionBuildStep a s (t, spurious)).overflowFlag = s.overflowFlag := by
  cases hpc : s.pc t with
  | setOverflow i => exact absurd hpc (h i)
  | _ =>
    simp only [partitionBuildStep, hpc]
    try split_ifs
    all_goals rfl

theorem AllHome.step {a : PartitionArgs} {s : BuildState} (h : AllHome s) {t : ℕ} {spurious : Bool}
    (hok : ((partitionBuildStep a s (t, spurious)).pc t).AtHome) :
    AllHome (partitionBuildStep a s (t, spurious)) := by
  refine ⟨?_, fun u => ?_⟩
  · rw [step_overflowFlag]
    · exact h.flag
    · intro i hi
      have := h.threads t
      rw [hi] at this
      exact this
  · by_cases hu : u = t
    · rw [hu]
      exact hok
    · rw [step_others a s t spurious hu]
      exact h.threads u

theorem settle_atHome (i slot state : ℕ) : (settle i slot 0 state).AtHome := by
  unfold settle
  split_ifs <;> rfl

theorem leaveProbe_atHome (i : ℕ) {groupId : ℕ} (h : groupId ≠ u32Max) :
    (leaveProbe i groupId).AtHome := by
  rw [leaveProbe, if_neg h]
  exact h

/-- A row finds its home slot empty or holding the one key. -/
theorem allHome_step {a : PartitionArgs} {s : BuildState} {k : Lane}
    (hone : ∀ j < a.count, a.keyAt j = k) (hinv : BuildInv a s) (h : AllHome s)
    (label : ℕ × Bool) : AllHome (partitionBuildStep a s label) := by
  obtain ⟨t, spurious⟩ := label
  have hok := hinv.thread t
  have hhome := h.threads t
  have hids := hinv.table.ids
  cases hpc : s.pc t with
  | rowLoop i =>
    refine h.step ?_
    simp only [partitionBuildStep, hpc, goto_pc_self]
    split_ifs <;> trivial
  | loadState i slot probe =>
    rw [hpc] at hhome
    obtain rfl : probe = 0 := hhome
    have hlim : 0 < tgsmProbeLimit := by decide
    refine h.step ?_
    simp only [partitionBuildStep, hpc, if_pos hlim]
    split_ifs
    · rw [goto_pc_self]
      rfl
    · rw [goto_pc_self]
      exact settle_atHome _ _ _
  | claim i slot probe =>
    rw [hpc] at hhome
    obtain rfl : probe = 0 := hhome
    refine h.step ?_
    simp only [partitionBuildStep, hpc]
    split_ifs
    · rw [goto_pc_self]
      trivial
    · rw [goto_pc_self]
      exact settle_atHome _ _ _
  | writeKey i slot =>
    refine h.step ?_
    simp only [partitionBuildStep, hpc, goto_pc_self]
    trivial
  | takeId i slot =>
    refine h.step ?_
    simp only [partitionBuildStep, hpc, goto_pc_self]
    trivial
  | publish i slot gid =>
    have hgid : gid < s.nextLocalId := (hinv.table.issued gid).2 ⟨slot, Or.inr ⟨t, i, hpc⟩⟩
    refine h.step ?_
    simp only [partitionBuildStep, hpc, goto_pc_self]
    exact leaveProbe_atHome i (by omega)
  | spin i slot probe =>
    rw [hpc] at hhome
    obtain rfl : probe = 0 := hhome
    refine h.step ?_
    simp only [partitionBuildStep, hpc, goto_pc_self]
    exact settle_atHome _ _ _
  | compareKey i slot probe state =>
    rw [hpc] at hok
    obtain ⟨hi, -, -, hpub, hstate⟩ := hok
    have hkey : s.slotKey slot = a.keyAt i := by
      obtain ⟨-, j, hj, hjkey⟩ := hinv.table.entry slot hpub
      rw [← hjkey, hone j hj, hone i hi]
    obtain ⟨gid, hgid⟩ : ∃ gid, s.slotState slot = gid + 1 :=
      Nat.exists_eq_succ_of_ne_zero hpub.1
    have hlt : gid < s.nextLocalId := (hinv.table.issued gid).2 ⟨slot, Or.inl ⟨hpub, hgid⟩⟩
    have hsub : asU32 (state + u32Max) ≠ u32Max := by
      rw [← hstate, hgid]
      simp only [asU32, u32Max] at hids ⊢
      omega
    refine h.step ?_
    simp only [partitionBuildStep, hpc, if_pos hkey, goto_pc_self]
    generalize asU32 (state + u32Max) = groupId at hsub ⊢
    exact leaveProbe_atHome i hsub
  | setOverflow i =>
    rw [hpc] at hhome
    exact absurd hhome (by simp [Pc.AtHome])
  | storeGroup i groupId =>
    refine h.step ?_
    simp only [partitionBuildStep, hpc, goto_pc_self]
    trivial
  | barrier =>
    simp only [partitionBuildStep, hpc]
    exact h

theorem noOverflow_of_oneKey {a : PartitionArgs} {k : Lane} (hone : ∀ j < a.count, a.keyAt j = k)
    (hpos : 0 < a.tgsmSlots) (hcap : a.tgsmSlots < 2 ^ 32) {before : ℕ → ℕ}
    {schedule : List (ℕ × Bool)}
    (hcas : Throughout (partitionBuildStep a) (fun s label => ¬ SpuriousFailure s label)
      (partitionBuildInit a before) schedule) :
    (partitionBuild a before schedule).overflowFlag = false := by
  have hinit : AllHome (partitionBuildInit a before) := by
    refine ⟨rfl, fun t => ?_⟩
    change (if t < a.tgSize then Pc.rowLoop t else .barrier).AtHome
    split_ifs <;> trivial
  have hinv := hcas.invariant (I := fun s => BuildInv a s ∧ AllHome s)
    (fun s label hok hs => ⟨buildInv_step hpos hcap hok hs.1, allHome_step hone hs.1 hs.2 label⟩)
    ⟨buildInv_init a before, hinit⟩
  exact hinv.2.flag

/-- The sizes the host launches with; the scatter threads run in row order. -/
def hostLaunch (nRows : ℕ) (schedule : ℕ → List (ℕ × Bool)) : GpuRun :=
  ⟨1024, 256, List.range nRows, schedule, fun _ => 0⟩

/-- Any table small enough for the row counter has a run to its end under the host's sizes. -/
theorem exists_complete {keys : List Lane} (nPartitions : ℕ)
    (hlen : keys.length + 256 < 2 ^ 32) :
    ∃ schedule, (hostLaunch keys.length schedule).Complete keys nPartitions ∧
      (hostLaunch keys.length schedule).NoSpuriousFailure keys nPartitions := by
  have hperm : ∀ schedule, (hostLaunch keys.length schedule).scatterOrder.Perm
      (List.range keys.length) := fun _ => List.Perm.refl _
  have hrun : ∀ p < nPartitions, ∃ schedule : List (ℕ × Bool),
      (∀ label ∈ schedule, label.2 = false) ∧ (partitionBuild
        ((hostLaunch keys.length (fun _ => [])).args keys nPartitions p) (fun _ => 0)
        schedule).Finished := by
    intro p hp
    have hcount := count_le hp (hperm (fun _ => []))
    exact exists_finished (show 0 < 1024 by decide) (show 1024 < 2 ^ 32 by decide)
      ((Nat.add_le_add_right hcount 256).trans_lt hlen) (show 0 < 256 by decide) _
  choose! schedule hstrong hfinished using hrun
  refine ⟨schedule, ⟨?_, show 0 < 256 by decide, hperm schedule, fun p hp => hfinished p hp⟩,
    fun p hp => noSpurious_of_strong (hstrong p hp) _⟩
  exact ⟨show 0 < 1024 by decide, show 1024 < 2 ^ 32 by decide⟩

end PolarsMetal.GroupBy
