import PolarsMetal.GroupBy.BuildGpuSpec

/-! The order of the local ids. A partition's ids follow the first occurrences of
its keys exactly when every id is taken after the ids of the keys that occur
earlier. -/

namespace PolarsMetal.GroupBy
open Runs Grouping Reads BuildState

/-- The key has an id, published or not yet. -/
def BuildState.HasId (s : BuildState) (k : Lane) : Prop := ∃ x g, s.Holds x g ∧ s.slotKey x = k

/-- An id is taken only once every key of the partition that occurs earlier in the input has one. -/
def TakesIdInOrder (a : PartitionArgs) (s : BuildState) (label : ℕ × Bool) : Prop :=
  ∀ i slot, s.pc label.1 = .takeId i slot → ∀ j < a.count,
    a.keys.idxOf (a.keyAt j) < a.keys.idxOf (a.keyAt i) → s.HasId (a.keyAt j)

/-- Ids follow the first occurrences of their keys. -/
def BuildState.Ordered (s : BuildState) (a : PartitionArgs) : Prop :=
  ∀ x g y g', s.Holds x g → s.Holds y g' → a.keys.idxOf (s.slotKey x) < a.keys.idxOf (s.slotKey y) →
    g < g'

section Steps

variable {a : PartitionArgs} {s : BuildState}

theorem BuildInv.held_claimed (h : BuildInv a s) {t x g : ℕ} (hx : s.Holds x g)
    (ht : (s.pc t).claimed = some x) : ∃ i, s.pc t = .publish i x g := by
  rcases hx with ⟨hpub, -⟩ | ⟨u, i, hu⟩
  · exact absurd ((h.thread t).claimed_state ht) hpub.2
  · obtain rfl := h.owner u t x (by rw [hu]; rfl) ht
    exact ⟨i, hu⟩

theorem holds_goto {q : BuildState} {t x g : ℕ} {pc : Pc} (hx : q.Holds x g)
    (ht : ∀ i, q.pc t ≠ .publish i x g) : (q.goto t pc).Holds x g := by
  rcases hx with hpub | ⟨u, i, hu⟩
  · exact Or.inl hpub
  · have hut : u ≠ t := by
      rintro rfl
      exact ht i hu
    exact Or.inr ⟨u, i, by rw [goto_pc, if_neg hut, hu]⟩

/-- An id once taken stays with its slot and key. -/
theorem BuildInv.holds_step (h : BuildInv a s) (label : ℕ × Bool) {x g : ℕ} (hx : s.Holds x g) :
    (partitionBuildStep a s label).Holds x g ∧
      (partitionBuildStep a s label).slotKey x = s.slotKey x := by
  obtain ⟨t, spurious⟩ := label
  have hids := h.table.ids
  have hlt : g < s.nextLocalId := (h.table.issued g).2 ⟨x, hx⟩
  have hquiet : ∀ pc, (∀ i, s.pc t ≠ .publish i x g) → (s.goto t pc).Holds x g ∧
      (s.goto t pc).slotKey x = s.slotKey x := fun pc ht => ⟨holds_goto hx ht, rfl⟩
  cases hpc : s.pc t with
  | rowLoop i =>
    simp only [partitionBuildStep, hpc]
    exact hquiet _ (fun j hj => by rw [hpc] at hj; cases hj)
  | loadState i slot probe =>
    simp only [partitionBuildStep, hpc]
    split_ifs <;> exact hquiet _ (fun j hj => by rw [hpc] at hj; cases hj)
  | claim i slot probe =>
    simp only [partitionBuildStep, hpc]
    split_ifs with hwin
    · refine ⟨holds_goto (q := { s with slotState := Function.update s.slotState slot u32Max })
        (hx.imp (fun hpub => ?_) id) (fun j hj => ?_), rfl⟩
      · have hne : x ≠ slot := by
          rintro rfl
          exact hpub.1.1 hwin.1
        simp only [Published, Function.update_of_ne hne]
        exact hpub
      · rw [show s.pc t = _ from hj] at hpc
        cases hpc
    · exact hquiet _ (fun j hj => by rw [hpc] at hj; cases hj)
  | writeKey i slot =>
    simp only [partitionBuildStep, hpc]
    have hne : x ≠ slot := by
      rintro rfl
      obtain ⟨j, hj⟩ := h.held_claimed (t := t) hx (by rw [hpc]; rfl)
      rw [hpc] at hj
      cases hj
    refine ⟨holds_goto (q := { s with slotKey := Function.update s.slotKey slot (a.keyAt i) })
      hx (fun j hj => ?_), ?_⟩
    · rw [show s.pc t = _ from hj] at hpc
      cases hpc
    · exact Function.update_of_ne hne _ _
  | takeId i slot =>
    simp only [partitionBuildStep, hpc]
    refine ⟨holds_goto (q := { s with nextLocalId := asU32 (s.nextLocalId + 1) }) hx
      (fun j hj => ?_), rfl⟩
    rw [show s.pc t = _ from hj] at hpc
    cases hpc
  | publish i slot gid =>
    simp only [partitionBuildStep, hpc]
    refine ⟨?_, rfl⟩
    have hstate : asU32 (gid + 1) = gid + 1 := by
      have hgid : gid < s.nextLocalId := (h.table.issued gid).2 ⟨slot, Or.inr ⟨t, i, hpc⟩⟩
      refine asU32_of_lt ?_
      simp only [u32Max] at hids
      omega
    rw [hstate]
    by_cases hxs : x = slot
    · -- the thread's own slot, now published
      subst hxs
      have hown : gid = g := by
        obtain ⟨j, hj⟩ := h.held_claimed (t := t) hx (by rw [hpc]; rfl)
        rw [hpc] at hj
        cases hj
        rfl
      subst hown
      refine Or.inl ⟨⟨?_, ?_⟩, ?_⟩
      · simp
      · simp only [goto_slotState, Function.update_self]
        omega
      · simp
    · refine holds_goto (q := { s with slotState := Function.update s.slotState slot (gid + 1) })
        (hx.imp (fun hpub => ?_) id) (fun j hj => ?_)
      · simp only [Published, Function.update_of_ne hxs]
        exact hpub
      · rw [show s.pc t = _ from hj] at hpc
        cases hpc
        exact hxs rfl
  | spin i slot probe =>
    simp only [partitionBuildStep, hpc]
    exact hquiet _ (fun j hj => by rw [hpc] at hj; cases hj)
  | compareKey i slot probe state =>
    simp only [partitionBuildStep, hpc]
    split_ifs <;> exact hquiet _ (fun j hj => by rw [hpc] at hj; cases hj)
  | setOverflow i =>
    simp only [partitionBuildStep, hpc]
    refine ⟨holds_goto (q := { s with overflowFlag := true }) hx (fun j hj => ?_), rfl⟩
    rw [show s.pc t = _ from hj] at hpc
    cases hpc
  | storeGroup i groupId =>
    simp only [partitionBuildStep, hpc]
    refine ⟨holds_goto (q := { s with
      rowToLocalGroup := Function.update s.rowToLocalGroup (a.row i) groupId }) hx
        (fun j hj => ?_), rfl⟩
    rw [show s.pc t = _ from hj] at hpc
    cases hpc
  | barrier =>
    simp only [partitionBuildStep, hpc]
    exact ⟨hx, trivial⟩

theorem step_nextLocalId {label : ℕ × Bool} (h : ∀ i slot, s.pc label.1 ≠ .takeId i slot) :
    (partitionBuildStep a s label).nextLocalId = s.nextLocalId := by
  obtain ⟨t, spurious⟩ := label
  cases hpc : s.pc t with
  | takeId i slot => exact absurd hpc (h i slot)
  | _ =>
    simp only [partitionBuildStep, hpc]
    try split_ifs
    all_goals rfl

/-- The only new id is the one a thread takes for the slot it has claimed. -/
theorem BuildInv.holds_of_step (h : BuildInv a s) {label : ℕ × Bool}
    (h' : BuildInv a (partitionBuildStep a s label)) {x g : ℕ}
    (hx : (partitionBuildStep a s label).Holds x g) :
    s.Holds x g ∨ ∃ i, s.pc label.1 = .takeId i x ∧ g = s.nextLocalId := by
  have hlt := (h'.table.issued g).2 ⟨x, hx⟩
  have hold : g < s.nextLocalId → s.Holds x g := by
    intro hg
    obtain ⟨y, hy⟩ := (h.table.issued g).1 hg
    exact h'.table.heldOnce y x g (h.holds_step label hy).1 hx ▸ hy
  by_cases htake : ∃ i slot, s.pc label.1 = .takeId i slot
  · obtain ⟨i, slot, hpc⟩ := htake
    have hids := h.table.ids
    have hnext : (partitionBuildStep a s label).nextLocalId = s.nextLocalId + 1 := by
      simp only [partitionBuildStep, hpc]
      refine asU32_of_lt ?_
      simp only [u32Max] at hids
      omega
    rw [hnext] at hlt
    rcases Nat.lt_succ_iff_lt_or_eq.1 hlt with hg | rfl
    · exact Or.inl (hold hg)
    · refine Or.inr ⟨i, ?_, rfl⟩
      have hnew : (partitionBuildStep a s label).Holds slot s.nextLocalId := by
        refine Or.inr ⟨label.1, i, ?_⟩
        simp only [partitionBuildStep, hpc, goto_pc_self]
      rw [h'.table.heldOnce x slot _ hx hnew, hpc]
  · push Not at htake
    rw [step_nextLocalId htake] at hlt
    exact Or.inl (hold hlt)

theorem BuildInv.held_spec (h : BuildInv a s) {x g : ℕ} (hx : s.Holds x g) :
    s.EndsPath a (s.slotKey x) x ∧ ∃ j < a.count, a.keyAt j = s.slotKey x := by
  rcases hx with ⟨hpub, -⟩ | ⟨t, i, ht⟩
  · exact h.table.entry x hpub
  · obtain ⟨hi, -, hpath, hkey⟩ : (Pc.publish i x g).Ok a s := ht ▸ h.thread t
    exact ⟨hkey ▸ hpath, i, hi, hkey.symm⟩

/-- A key's id is its only one. -/
theorem BuildInv.held_key_inj (h : BuildInv a s) {x y g g' : ℕ} (hx : s.Holds x g)
    (hy : s.Holds y g') (hkey : s.slotKey x = s.slotKey y) : g = g' := by
  have hxy := endsPath_unique (h.held_spec hx).1 (hkey ▸ (h.held_spec hy).1) rfl hkey.symm
  subst hxy
  exact h.holds_id hx hy

end Steps

/-! Ids taken in order stay in order. -/

/-- Every key that occurs before a key with an id has a smaller one. -/
def BuildState.Earlier (s : BuildState) (a : PartitionArgs) : Prop :=
  ∀ x g, s.Holds x g → ∀ j < a.count, a.keys.idxOf (a.keyAt j) < a.keys.idxOf (s.slotKey x) →
    ∃ y g', g' < g ∧ s.Holds y g' ∧ s.slotKey y = a.keyAt j

theorem earlier_step {a : PartitionArgs} {s : BuildState} {label : ℕ × Bool} (h : BuildInv a s)
    (h' : BuildInv a (partitionBuildStep a s label)) (htake : TakesIdInOrder a s label)
    (hs : s.Earlier a) : (partitionBuildStep a s label).Earlier a := by
  intro x g hx j hj hlt
  have hkeep : ∀ y g', s.Holds y g' → g' < g → s.slotKey y = a.keyAt j →
      ∃ y g', g' < g ∧ (partitionBuildStep a s label).Holds y g' ∧
        (partitionBuildStep a s label).slotKey y = a.keyAt j := by
    intro y g' hy hg' hkey
    obtain ⟨hy', hsame⟩ := h.holds_step label hy
    exact ⟨y, g', hg', hy', hsame.trans hkey⟩
  rcases h.holds_of_step h' hx with hold | ⟨i, hpc, rfl⟩
  · rw [(h.holds_step label hold).2] at hlt
    obtain ⟨y, g', hg', hy, hkey⟩ := hs x g hold j hj hlt
    exact hkeep y g' hy hg' hkey
  · have hok : (Pc.takeId i x).Ok a s := hpc ▸ h.thread label.1
    have hkx : (partitionBuildStep a s label).slotKey x = a.keyAt i := by
      simp only [partitionBuildStep, hpc]
      exact hok.2.2.2
    rw [hkx] at hlt
    obtain ⟨y, g', hy, hkey⟩ := htake i x hpc j hj hlt
    exact hkeep y g' hy ((h.table.issued g').2 ⟨y, hy⟩) hkey

theorem BuildInv.ordered {a : PartitionArgs} {s : BuildState} (h : BuildInv a s)
    (hs : s.Earlier a) : s.Ordered a := by
  intro x g y g' hx hy hlt
  obtain ⟨-, j, hj, hkey⟩ := h.held_spec hx
  obtain ⟨z, g'', hg'', hz, hzkey⟩ := hs y g' hy j hj (by rw [hkey]; exact hlt)
  rw [h.held_key_inj hx hz (hkey.symm.trans hzkey.symm)]
  exact hg''

section Run

variable {a : PartitionArgs} (hpos : 0 < a.tgsmSlots) (hcap : a.tgsmSlots < 2 ^ 32)

include hpos hcap

theorem ordered_run {before : ℕ → ℕ} {schedule : List (ℕ × Bool)}
    (hcas : Throughout (partitionBuildStep a) (fun s label => ¬ SpuriousFailure s label)
      (partitionBuildInit a before) schedule)
    (htake : Throughout (partitionBuildStep a) (TakesIdInOrder a) (partitionBuildInit a before)
      schedule) : (partitionBuild a before schedule).Ordered a := by
  have hinit : (partitionBuildInit a before).Earlier a := by
    intro x g hx
    have hlt := ((buildInv_init a before).table.issued g).2 ⟨x, hx⟩
    exact absurd hlt (Nat.not_lt_zero g)
  have hinv := (hcas.and htake).invariant (I := fun s => BuildInv a s ∧ s.Earlier a)
    (fun s label hok hs => by
      have hnext := buildInv_step hpos hcap hok.1 hs.1
      exact ⟨hnext, earlier_step hs.1 hnext hok.2 hs.2⟩)
    ⟨buildInv_init a before, hinit⟩
  exact hinv.1.ordered hinv.2

theorem holds_run {s : BuildState} (h : BuildInv a s) (schedule : List (ℕ × Bool))
    (hcas : Throughout (partitionBuildStep a) (fun s label => ¬ SpuriousFailure s label) s schedule)
    {x g : ℕ} (hx : s.Holds x g) :
    (run (partitionBuildStep a) s schedule).Holds x g ∧
      (run (partitionBuildStep a) s schedule).slotKey x = s.slotKey x := by
  induction schedule generalizing s with
  | nil => exact ⟨hx, rfl⟩
  | cons label schedule ih =>
    obtain ⟨hnow, hkey⟩ := h.holds_step label hx
    obtain ⟨hlater, hkey'⟩ := ih (buildInv_step hpos hcap hcas.1 h) hcas.2 hnow
    exact ⟨hlater, hkey'.trans hkey⟩

/-- When every key ends with an id and the ids are in order, each was taken in order. -/
theorem takesIdInOrder_of_ordered {s : BuildState} (h : BuildInv a s)
    {schedule : List (ℕ × Bool)}
    (hcas : Throughout (partitionBuildStep a) (fun s label => ¬ SpuriousFailure s label) s schedule)
    (hall : ∀ j < a.count, (run (partitionBuildStep a) s schedule).HasId (a.keyAt j))
    (hend : (run (partitionBuildStep a) s schedule).Ordered a) :
    Throughout (partitionBuildStep a) (TakesIdInOrder a) s schedule := by
  induction schedule generalizing s with
  | nil => trivial
  | cons label schedule ih =>
    have hnext := buildInv_step hpos hcap hcas.1 h
    refine ⟨fun i slot hpc j hj hlt => ?_, ih hnext hcas.2 hall hend⟩
    have hok : (Pc.takeId i slot).Ok a s := hpc ▸ h.thread label.1
    -- the id taken here, and the earlier key's, as they stand at the end
    have hnew : (partitionBuildStep a s label).Holds slot s.nextLocalId := by
      refine Or.inr ⟨label.1, i, ?_⟩
      simp only [partitionBuildStep, hpc, goto_pc_self]
    obtain ⟨hslot, hkey⟩ := holds_run hpos hcap hnext schedule hcas.2 hnew
    have hkeyi : (run (partitionBuildStep a) s (label :: schedule)).slotKey slot = a.keyAt i := by
      refine hkey.trans ?_
      simp only [partitionBuildStep, hpc]
      exact hok.2.2.2
    obtain ⟨y, g', hy, hykey⟩ := hall j hj
    have hlt' : g' < s.nextLocalId := hend y g' slot _ hy hslot (by rw [hykey, hkeyi]; exact hlt)
    obtain ⟨z, hz⟩ := (h.table.issued g').1 hlt'
    obtain ⟨hzend, hzkey⟩ := holds_run hpos hcap h (label :: schedule) hcas hz
    have hend' := buildInv_runFrom hpos hcap h hcas
    rw [hend'.table.heldOnce z y g' hzend hy] at hzkey hz
    exact ⟨y, g', hz, hzkey.symm.trans hykey⟩

end Run

end PolarsMetal.GroupBy
