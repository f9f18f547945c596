import PolarsMetal.GroupBy.BuildGpu
import PolarsMetal.GroupBy.BuildHash

/-! The table the threads share. A published slot never changes again, and a key
is only ever claimed at the end of a chain of published slots that hold other
keys, so no key gets two slots. -/

namespace PolarsMetal.GroupBy
open Runs

namespace PartitionArgs

/-- The slots a key is probed at. -/
def path (a : PartitionArgs) (k : Lane) : ℕ → ℕ
  | 0 => a.homeSlot k
  | d + 1 => a.nextSlot (a.path k d)

/-- A thread's position after so many turns of its row loop. -/
def loopIndex (a : PartitionArgs) (t : ℕ) : ℕ → ℕ
  | 0 => t
  | m + 1 => asU32 (a.loopIndex t m + a.tgSize)

end PartitionArgs

namespace BuildState

@[simp] theorem goto_slotKey (s : BuildState) (t : ℕ) (pc : Pc) :
    (s.goto t pc).slotKey = s.slotKey := rfl

@[simp] theorem goto_slotState (s : BuildState) (t : ℕ) (pc : Pc) :
    (s.goto t pc).slotState = s.slotState := rfl

@[simp] theorem goto_nextLocalId (s : BuildState) (t : ℕ) (pc : Pc) :
    (s.goto t pc).nextLocalId = s.nextLocalId := rfl

@[simp] theorem goto_rowToLocalGroup (s : BuildState) (t : ℕ) (pc : Pc) :
    (s.goto t pc).rowToLocalGroup = s.rowToLocalGroup := rfl

@[simp] theorem goto_overflowFlag (s : BuildState) (t : ℕ) (pc : Pc) :
    (s.goto t pc).overflowFlag = s.overflowFlag := rfl

theorem goto_pc (s : BuildState) (t : ℕ) (pc : Pc) (u : ℕ) :
    (s.goto t pc).pc u = if u = t then pc else s.pc u := by
  simp [goto, Function.update_apply]

@[simp] theorem goto_pc_self (s : BuildState) (t : ℕ) (pc : Pc) : (s.goto t pc).pc t = pc := by
  simp [goto]

def Published (s : BuildState) (x : ℕ) : Prop := s.slotState x ≠ 0 ∧ s.slotState x ≠ u32Max

/-- The first `d` slots of a key's path hold other keys. -/
def Clear (s : BuildState) (a : PartitionArgs) (k : Lane) (d : ℕ) : Prop :=
  ∀ e < d, s.Published (a.path k e) ∧ s.slotKey (a.path k e) ≠ k

/-- The slot ends a clear path of the key. -/
def EndsPath (s : BuildState) (a : PartitionArgs) (k : Lane) (x : ℕ) : Prop :=
  ∃ d, x = a.path k d ∧ s.Clear a k d

/-- The key's group is `g`. -/
def Found (s : BuildState) (k : Lane) (g : ℕ) : Prop :=
  ∃ x, s.Published x ∧ s.slotKey x = k ∧ s.slotState x = g + 1

/-- The row at this position has its group, or the build has failed. -/
def Recorded (s : BuildState) (a : PartitionArgs) (j : ℕ) : Prop :=
  s.overflowFlag = true ∨ s.Found (a.keyAt j) (s.rowToLocalGroup (a.row j))

/-- The id is issued, to the slot. -/
def Holds (s : BuildState) (x g : ℕ) : Prop :=
  (s.Published x ∧ s.slotState x = g + 1) ∨ ∃ t i, s.pc t = .publish i x g

end BuildState

open BuildState

/-- The slot a thread has claimed and not yet published. -/
def Pc.claimed : Pc → Option ℕ
  | .writeKey _ slot | .takeId _ slot | .publish _ slot _ => some slot
  | _ => none

/-- The row loop stands at position `j`, or has been left there. -/
def Pc.At (a : PartitionArgs) (j : ℕ) : Pc → Prop
  | .rowLoop i | .loadState i _ _ | .claim i _ _ | .writeKey i _ | .takeId i _ | .publish i _ _
  | .spin i _ _ | .compareKey i _ _ _ | .setOverflow i | .storeGroup i _ => i = j
  | .barrier => a.count ≤ j

/-- What a thread relies on at each point of the kernel. -/
def Pc.Ok (a : PartitionArgs) (s : BuildState) : Pc → Prop
  | .rowLoop _ | .barrier => True
  | .loadState i slot probe | .claim i slot probe =>
    i < a.count ∧ slot = a.path (a.keyAt i) probe ∧ s.Clear a (a.keyAt i) probe
  | .spin i slot probe =>
    i < a.count ∧ slot = a.path (a.keyAt i) probe ∧ s.Clear a (a.keyAt i) probe ∧
      s.slotState slot ≠ 0
  | .writeKey i slot =>
    i < a.count ∧ s.slotState slot = u32Max ∧ s.EndsPath a (a.keyAt i) slot
  | .takeId i slot | .publish i slot _ =>
    i < a.count ∧ s.slotState slot = u32Max ∧ s.EndsPath a (a.keyAt i) slot ∧
      s.slotKey slot = a.keyAt i
  | .compareKey i slot probe state =>
    i < a.count ∧ slot = a.path (a.keyAt i) probe ∧ s.Clear a (a.keyAt i) probe ∧
      s.Published slot ∧ s.slotState slot = state
  | .setOverflow i => i < a.count
  | .storeGroup i groupId =>
    i < a.count ∧ (s.overflowFlag = true ∨ s.Found (a.keyAt i) groupId)

structure TableInv (a : PartitionArgs) (s : BuildState) : Prop where
  entry : ∀ x, s.Published x →
    s.EndsPath a (s.slotKey x) x ∧ ∃ j < a.count, a.keyAt j = s.slotKey x
  issued : ∀ g, g < s.nextLocalId ↔ ∃ x, s.Holds x g
  heldOnce : ∀ x y g, s.Holds x g → s.Holds y g → x = y
  ids : s.nextLocalId < u32Max

structure BuildInv (a : PartitionArgs) (s : BuildState) : Prop where
  table : TableInv a s
  thread : ∀ t, (s.pc t).Ok a s
  owner : ∀ t u x, (s.pc t).claimed = some x → (s.pc u).claimed = some x → t = u
  visited : ∀ t < a.tgSize, ∃ m, (s.pc t).At a (a.loopIndex t m) ∧
    ∀ m' < m, s.Recorded a (a.loopIndex t m')

/-- What no step undoes. -/
structure Extends (s s' : BuildState) : Prop where
  published : ∀ x, s.Published x → s'.slotState x = s.slotState x ∧ s'.slotKey x = s.slotKey x
  nonempty : ∀ x, s.slotState x ≠ 0 → s'.slotState x ≠ 0
  overflow : s.overflowFlag = true → s'.overflowFlag = true

section Extends

variable {a : PartitionArgs} {s s' : BuildState}

theorem Extends.published_mono (h : Extends s s') {x : ℕ} (hx : s.Published x) :
    s'.Published x := by
  rw [Published, (h.published x hx).1]
  exact hx

theorem Extends.clear (h : Extends s s') {k : Lane} {d : ℕ} (hc : s.Clear a k d) :
    s'.Clear a k d := by
  intro e he
  obtain ⟨hpub, hne⟩ := hc e he
  refine ⟨h.published_mono hpub, ?_⟩
  rw [(h.published _ hpub).2]
  exact hne

theorem Extends.endsPath (h : Extends s s') {k : Lane} {x : ℕ} (hc : s.EndsPath a k x) :
    s'.EndsPath a k x := by
  obtain ⟨d, hd, hclear⟩ := hc
  exact ⟨d, hd, h.clear hclear⟩

theorem Extends.found (h : Extends s s') {k : Lane} {g : ℕ} (hf : s.Found k g) : s'.Found k g := by
  obtain ⟨x, hpub, hkey, hstate⟩ := hf
  obtain ⟨h1, h2⟩ := h.published x hpub
  exact ⟨x, h.published_mono hpub, h2.trans hkey, h1.trans hstate⟩

/-- A thread whose claimed slot a step leaves alone keeps what it relies on. -/
theorem Extends.ok (h : Extends s s') {pc : Pc} (hok : pc.Ok a s)
    (hkeep : ∀ x, pc.claimed = some x →
      s'.slotState x = s.slotState x ∧ s'.slotKey x = s.slotKey x) : pc.Ok a s' := by
  cases pc with
  | rowLoop i => trivial
  | barrier => trivial
  | loadState i slot probe => exact ⟨hok.1, hok.2.1, h.clear hok.2.2⟩
  | claim i slot probe => exact ⟨hok.1, hok.2.1, h.clear hok.2.2⟩
  | spin i slot probe =>
    obtain ⟨hi, hslot, hclear, hstate⟩ := hok
    exact ⟨hi, hslot, h.clear hclear, h.nonempty slot hstate⟩
  | writeKey i slot =>
    obtain ⟨hi, hstate, hpath⟩ := hok
    exact ⟨hi, (hkeep slot rfl).1.trans hstate, h.endsPath hpath⟩
  | takeId i slot =>
    obtain ⟨hi, hstate, hpath, hkey⟩ := hok
    exact ⟨hi, (hkeep slot rfl).1.trans hstate, h.endsPath hpath, (hkeep slot rfl).2.trans hkey⟩
  | publish i slot gid =>
    obtain ⟨hi, hstate, hpath, hkey⟩ := hok
    exact ⟨hi, (hkeep slot rfl).1.trans hstate, h.endsPath hpath, (hkeep slot rfl).2.trans hkey⟩
  | compareKey i slot probe state =>
    obtain ⟨hi, hslot, hclear, hpub, hstate⟩ := hok
    exact ⟨hi, hslot, h.clear hclear, h.published_mono hpub, (h.published _ hpub).1.trans hstate⟩
  | setOverflow i => exact hok
  | storeGroup i groupId => exact ⟨hok.1, hok.2.imp h.overflow h.found⟩

theorem Extends.recorded (h : Extends s s') {j : ℕ}
    (hrow : s'.rowToLocalGroup (a.row j) = s.rowToLocalGroup (a.row j)) (hr : s.Recorded a j) :
    s'.Recorded a j := by
  refine hr.imp h.overflow (fun hf => ?_)
  rw [hrow]
  exact h.found hf

end Extends

/-! No key has two slots, and no id two keys. -/

theorem endsPath_unique {a : PartitionArgs} {s : BuildState} {k : Lane} {x y : ℕ}
    (hx : s.EndsPath a k x) (hy : s.EndsPath a k y) (hkx : s.slotKey x = k) (hky : s.slotKey y = k) :
    x = y := by
  obtain ⟨d, rfl, hclear⟩ := hx
  obtain ⟨d', rfl, hclear'⟩ := hy
  rcases Nat.lt_trichotomy d d' with hlt | rfl | hgt
  · exact absurd hkx (hclear' d hlt).2
  · rfl
  · exact absurd hky (hclear d' hgt).2

theorem TableInv.found_inj {a : PartitionArgs} {s : BuildState} (h : TableInv a s) {k k' : Lane}
    {g g' : ℕ} (hf : s.Found k g) (hf' : s.Found k' g') : g = g' ↔ k = k' := by
  obtain ⟨x, hx, rfl, hg⟩ := hf
  obtain ⟨y, hy, rfl, hg'⟩ := hf'
  refine ⟨?_, ?_⟩
  · rintro rfl
    rw [h.heldOnce x y g (Or.inl ⟨hx, hg⟩) (Or.inl ⟨hy, hg'⟩)]
  · intro heq
    have hxy := endsPath_unique (h.entry x hx).1 (heq ▸ (h.entry y hy).1) rfl heq.symm
    subst hxy
    omega

/-! What one step may do, and that this keeps the invariant. -/

structure Effect (a : PartitionArgs) (s : BuildState) (t : ℕ) (s' : BuildState) : Prop where
  extends' : Extends s s'
  others : ∀ u, u ≠ t → s'.pc u = s.pc u
  ok : (s'.pc t).Ok a s'
  claims : ∀ x, (s'.pc t).claimed = some x → (s.pc t).claimed = some x ∨ s.slotState x = 0
  writes : ∀ x, (s'.slotState x = s.slotState x ∧ s'.slotKey x = s.slotKey x) ∨
    (s.pc t).claimed = some x ∨ s.slotState x = 0
  recorded : ∀ j, s.Recorded a j → s'.Recorded a j
  moves : ∀ j, (s.pc t).At a j →
    (s'.pc t).At a j ∨ ((s'.pc t).At a (asU32 (j + a.tgSize)) ∧ s'.Recorded a j)

theorem Pc.Ok.claimed_state {a : PartitionArgs} {s : BuildState} {pc : Pc} (h : pc.Ok a s) {x : ℕ}
    (hx : pc.claimed = some x) : s.slotState x = u32Max := by
  cases pc with
  | writeKey i slot => cases hx; exact h.2.1
  | takeId i slot => cases hx; exact h.2.1
  | publish i slot gid => cases hx; exact h.2.1
  | _ => cases hx

theorem BuildInv.effect {a : PartitionArgs} {s s' : BuildState} {t : ℕ} (h : BuildInv a s)
    (he : Effect a s t s') (htable : TableInv a s') : BuildInv a s' := by
  -- an empty slot is claimed by nobody, and a claimed one by one thread
  have hempty : ∀ u x, (s.pc u).claimed = some x → s.slotState x ≠ 0 := by
    intro u x hx
    rw [(h.thread u).claimed_state hx]
    decide
  have hmine : ∀ u x, u ≠ t → (s.pc u).claimed = some x →
      ¬ ((s.pc t).claimed = some x ∨ s.slotState x = 0) := by
    rintro u x hu hx (ht | h0)
    · exact hu (h.owner u t x hx ht)
    · exact hempty u x hx h0
  refine ⟨htable, ?_, ?_, ?_⟩
  · intro u
    by_cases hu : u = t
    · subst hu; exact he.ok
    · rw [he.others u hu]
      exact he.extends'.ok (h.thread u)
        (fun x hx => (he.writes x).resolve_right (hmine u x hu hx))
  · intro u v x hux hvx
    by_cases hu : u = t <;> by_cases hv : v = t
    · rw [hu, hv]
    · subst hu
      rw [he.others v hv] at hvx
      exact absurd (he.claims x hux) (hmine v x hv hvx)
    · subst hv
      rw [he.others u hu] at hux
      exact absurd (he.claims x hvx) (hmine u x hu hux)
    · rw [he.others u hu] at hux
      rw [he.others v hv] at hvx
      exact h.owner u v x hux hvx
  · intro u hu
    obtain ⟨m, hat, hrec⟩ := h.visited u hu
    have hrec' : ∀ m' < m, s'.Recorded a (a.loopIndex u m') :=
      fun m' hm' => he.recorded _ (hrec m' hm')
    by_cases hut : u = t
    · subst hut
      rcases he.moves _ hat with hat' | ⟨hat', hnow⟩
      · exact ⟨m, hat', hrec'⟩
      · refine ⟨m + 1, hat', fun m' hm' => ?_⟩
        rcases Nat.lt_succ_iff_lt_or_eq.1 hm' with hlt | rfl
        · exact hrec' m' hlt
        · exact hnow
    · refine ⟨m, ?_, hrec'⟩
      rw [he.others u hut]
      exact hat

/-- A step that touches no published slot and issues no id keeps the table. -/
theorem TableInv.same {a : PartitionArgs} {s s' : BuildState} (h : TableInv a s)
    (hext : Extends s s') (hpub : ∀ x, s'.Published x → s.Published x)
    (hnext : s'.nextLocalId = s.nextLocalId)
    (hheld : ∀ x g, (∃ t i, s'.pc t = .publish i x g) ↔ ∃ t i, s.pc t = .publish i x g) :
    TableInv a s' := by
  have hholds : ∀ x g, s'.Holds x g ↔ s.Holds x g := by
    intro x g
    rw [Holds, Holds, hheld]
    refine or_congr_left ⟨?_, ?_⟩
    · rintro ⟨hx, hg⟩
      exact ⟨hpub x hx, (hext.published x (hpub x hx)).1 ▸ hg⟩
    · rintro ⟨hx, hg⟩
      exact ⟨hext.published_mono hx, (hext.published x hx).1.trans hg⟩
  refine ⟨?_, ?_, ?_, hnext ▸ h.ids⟩
  · intro x hx
    obtain ⟨hpath, hkey⟩ := h.entry x (hpub x hx)
    rw [(hext.published x (hpub x hx)).2]
    exact ⟨hext.endsPath hpath, hkey⟩
  · intro g
    rw [hnext, h.issued g]
    exact exists_congr (fun x => (hholds x g).symm)
  · intro x y g hx hy
    exact h.heldOnce x y g ((hholds x g).1 hx) ((hholds y g).1 hy)

/-! The ids fit in the slots the mask can reach. -/

theorem path_masked (a : PartitionArgs) (k : Lane) (d : ℕ) :
    a.path k d &&& (a.tgsmSlots - 1) = a.path k d := by
  cases d with
  | zero => rw [PartitionArgs.path, PartitionArgs.homeSlot, Nat.and_assoc, Nat.and_self]
  | succ d => rw [PartitionArgs.path, PartitionArgs.nextSlot, Nat.and_assoc, Nat.and_self]

/-- The slots the mask can reach. -/
def reachable (a : PartitionArgs) : Finset ℕ :=
  (Finset.range a.tgsmSlots).filter (fun x => x &&& (a.tgsmSlots - 1) = x)

theorem path_mem_reachable {a : PartitionArgs} (hpos : 0 < a.tgsmSlots) (k : Lane) (d : ℕ) :
    a.path k d ∈ reachable a := by
  have hmask := path_masked a k d
  have hle : a.path k d &&& (a.tgsmSlots - 1) ≤ a.tgsmSlots - 1 := Nat.and_le_right
  simp only [reachable, Finset.mem_filter, Finset.mem_range]
  refine ⟨by omega, hmask⟩

theorem card_reachable {a : PartitionArgs} (hcap : a.tgsmSlots < 2 ^ 32) :
    (reachable a).card < u32Max := by
  by_cases hmax : a.tgsmSlots = u32Max
  · -- an odd slot is out of reach of an even mask
    have hsub : reachable a ⊆ (Finset.range a.tgsmSlots).erase 1 := by
      intro x hx
      simp only [reachable, Finset.mem_filter, Finset.mem_range] at hx
      refine Finset.mem_erase.2 ⟨?_, Finset.mem_range.2 hx.1⟩
      rintro rfl
      rw [hmax] at hx
      exact absurd hx.2 (by decide)
    have hcard := Finset.card_le_card hsub
    rw [Finset.card_erase_of_mem (by simp [hmax, u32Max]), Finset.card_range, hmax] at hcard
    exact hcard.trans_lt (by decide)
  · have hcard : (reachable a).card ≤ a.tgsmSlots := by
      have := Finset.card_filter_le (Finset.range a.tgsmSlots)
        (fun x => x &&& (a.tgsmSlots - 1) = x)
      rwa [Finset.card_range] at this
    have hlt : a.tgsmSlots < u32Max := by
      simp only [u32Max] at hmax ⊢
      omega
    exact hcard.trans_lt hlt

section Steps

variable {a : PartitionArgs} {s : BuildState} {t : ℕ}

theorem settle_claimed (i slot probe state : ℕ) : (settle i slot probe state).claimed = none := by
  unfold settle
  split_ifs <;> rfl

theorem settle_at {i j : ℕ} (slot probe state : ℕ) (h : i = j) :
    (settle i slot probe state).At a j := by
  unfold settle
  split_ifs <;> exact h

theorem settle_ok {i slot probe : ℕ} (hi : i < a.count)
    (hslot : slot = a.path (a.keyAt i) probe) (hclear : s.Clear a (a.keyAt i) probe)
    (hstate : s.slotState slot ≠ 0) : (settle i slot probe (s.slotState slot)).Ok a s := by
  unfold settle
  split_ifs with hmax
  · exact ⟨hi, hslot, hclear, hstate⟩
  · exact ⟨hi, hslot, hclear, ⟨hstate, hmax⟩, rfl⟩

theorem leaveProbe_claimed (i groupId : ℕ) : (leaveProbe i groupId).claimed = none := by
  unfold leaveProbe
  split_ifs <;> rfl

theorem leaveProbe_at {i j : ℕ} (groupId : ℕ) (h : i = j) : (leaveProbe i groupId).At a j := by
  unfold leaveProbe
  split_ifs <;> exact h

theorem leaveProbe_ok {i groupId : ℕ} (hi : i < a.count)
    (hfound : groupId ≠ u32Max → s.Found (a.keyAt i) groupId) : (leaveProbe i groupId).Ok a s := by
  unfold leaveProbe
  split_ifs with hmax
  · exact hi
  · exact ⟨hi, Or.inr (hfound hmax)⟩

theorem claimed_ne_publish {pc : Pc} (h : pc.claimed = none) (i x g : ℕ) : pc ≠ .publish i x g := by
  rintro rfl
  cases h

theorem publish_iff {s' : BuildState} (hothers : ∀ u, u ≠ t → s'.pc u = s.pc u)
    (hs : ∀ i x g, s.pc t ≠ .publish i x g) (hs' : ∀ i x g, s'.pc t ≠ .publish i x g) (x g : ℕ) :
    (∃ u i, s'.pc u = .publish i x g) ↔ ∃ u i, s.pc u = .publish i x g := by
  refine exists_congr (fun u => exists_congr (fun i => ?_))
  by_cases hu : u = t
  · subst hu
    exact iff_of_false (hs' i x g) (hs i x g)
  · rw [hothers u hu]

theorem goto_others (s : BuildState) (t : ℕ) (pc : Pc) : ∀ u, u ≠ t → (s.goto t pc).pc u = s.pc u :=
  fun u hu => by rw [goto_pc, if_neg hu]

/-- A step that only moves the thread. -/
theorem BuildInv.goto (h : BuildInv a s) {pc : Pc} (hold : (s.pc t).claimed = none)
    (hnew : pc.claimed = none) (hok : pc.Ok a s) (hat : ∀ j, (s.pc t).At a j → pc.At a j) :
    BuildInv a (s.goto t pc) := by
  have hext : Extends s (s.goto t pc) := ⟨fun _ _ => ⟨rfl, rfl⟩, fun _ h0 => h0, id⟩
  refine h.effect (t := t) ⟨hext, goto_others s t pc, ?_, ?_, fun x => Or.inl ⟨rfl, rfl⟩,
    fun j hj => hext.recorded rfl hj, ?_⟩ (h.table.same hext (fun x hx => hx) rfl ?_)
  · rw [goto_pc_self]
    exact hext.ok hok (fun _ _ => ⟨rfl, rfl⟩)
  · intro x hx
    rw [goto_pc_self, hnew] at hx
    cases hx
  · intro j hj
    rw [goto_pc_self]
    exact Or.inl (hat j hj)
  · refine publish_iff (goto_others s t pc) (claimed_ne_publish hold) ?_
    rw [goto_pc_self]
    exact claimed_ne_publish hnew

theorem BuildInv.claim (h : BuildInv a s) {i slot probe : ℕ} (hpc : s.pc t = .claim i slot probe)
    (hempty : s.slotState slot = 0) :
    BuildInv a ({ s with slotState := Function.update s.slotState slot u32Max }.goto t
      (.writeKey i slot)) := by
  set s' := ({ s with slotState := Function.update s.slotState slot u32Max } : BuildState).goto t
    (.writeKey i slot) with hs'
  obtain ⟨hi, hslot, hclear⟩ : (Pc.claim i slot probe).Ok a s := hpc ▸ h.thread t
  have hpc' : s'.pc t = .writeKey i slot := goto_pc_self _ _ _
  have hstate : ∀ x, s'.slotState x = if x = slot then u32Max else s.slotState x :=
    fun x => Function.update_apply _ _ _ _
  have hothers : ∀ u, u ≠ t → s'.pc u = s.pc u := goto_others _ _ _
  have hext : Extends s s' := by
    refine ⟨fun x hx => ⟨?_, rfl⟩, fun x hx => ?_, id⟩
    · rw [hstate, if_neg]
      rintro rfl
      exact hx.1 hempty
    · rw [hstate]
      split_ifs
      · decide
      · exact hx
  refine h.effect (t := t) ⟨hext, hothers, ?_, ?_, ?_, fun j hj => hext.recorded rfl hj, ?_⟩
    (h.table.same hext ?_ rfl (publish_iff hothers ?_ ?_))
  · rw [hpc']
    exact ⟨hi, by rw [hstate, if_pos rfl], hext.endsPath ⟨probe, hslot, hclear⟩⟩
  · intro x hx
    rw [hpc'] at hx
    cases hx
    exact Or.inr hempty
  · intro x
    by_cases hx : x = slot
    · exact Or.inr (Or.inr (hx ▸ hempty))
    · exact Or.inl ⟨by rw [hstate, if_neg hx], rfl⟩
  · intro j hj
    rw [hpc] at hj
    rw [hpc']
    exact Or.inl hj
  · rintro x ⟨h0, hmax⟩
    rw [hstate] at h0 hmax
    split_ifs at h0 hmax with hx
    · exact absurd rfl hmax
    · exact ⟨h0, hmax⟩
  · rw [hpc]; exact claimed_ne_publish rfl
  · rw [hpc']; intro i' x g heq; cases heq

theorem BuildInv.writeKey (h : BuildInv a s) {i slot : ℕ} (hpc : s.pc t = .writeKey i slot) :
    BuildInv a ({ s with slotKey := Function.update s.slotKey slot (a.keyAt i) }.goto t
      (.takeId i slot)) := by
  set s' := ({ s with slotKey := Function.update s.slotKey slot (a.keyAt i) } : BuildState).goto t
    (.takeId i slot) with hs'
  obtain ⟨hi, hclaimed, hpath⟩ : (Pc.writeKey i slot).Ok a s := hpc ▸ h.thread t
  have hpc' : s'.pc t = .takeId i slot := goto_pc_self _ _ _
  have hkey : ∀ x, s'.slotKey x = if x = slot then a.keyAt i else s.slotKey x :=
    fun x => Function.update_apply _ _ _ _
  have hothers : ∀ u, u ≠ t → s'.pc u = s.pc u := goto_others _ _ _
  have hext : Extends s s' := by
    refine ⟨fun x hx => ⟨rfl, ?_⟩, fun x hx => hx, id⟩
    rw [hkey, if_neg]
    rintro rfl
    exact hx.2 hclaimed
  refine h.effect (t := t) ⟨hext, hothers, ?_, ?_, ?_, fun j hj => hext.recorded rfl hj, ?_⟩
    (h.table.same hext (fun x hx => hx) rfl (publish_iff hothers ?_ ?_))
  · rw [hpc']
    exact ⟨hi, hclaimed, hext.endsPath hpath, by rw [hkey, if_pos rfl]⟩
  · intro x hx
    rw [hpc'] at hx
    rw [hpc]
    exact Or.inl hx
  · intro x
    by_cases hx : x = slot
    · rw [hpc, hx]
      exact Or.inr (Or.inl rfl)
    · exact Or.inl ⟨rfl, by rw [hkey, if_neg hx]⟩
  · intro j hj
    rw [hpc] at hj
    rw [hpc']
    exact Or.inl hj
  · rw [hpc]; intro i' x g heq; cases heq
  · rw [hpc']; intro i' x g heq; cases heq

theorem BuildInv.holds_id (h : BuildInv a s) {x g g' : ℕ} (hg : s.Holds x g) (hg' : s.Holds x g') :
    g = g' := by
  have hclaimed : ∀ u i g, s.pc u = .publish i x g → s.slotState x = u32Max := by
    intro u i g hu
    exact (h.thread u).claimed_state (by rw [hu]; rfl)
  rcases hg with ⟨hx, hg⟩ | ⟨u, i, hu⟩ <;> rcases hg' with ⟨hx', hg'⟩ | ⟨v, j, hv⟩
  · omega
  · exact absurd (hclaimed v j g' hv) hx.2
  · exact absurd (hclaimed u i g hu) hx'.2
  · have huv := h.owner u v x (by rw [hu]; rfl) (by rw [hv]; rfl)
    subst huv
    rw [hu] at hv
    cases hv
    rfl

theorem BuildInv.holds_endsPath (h : BuildInv a s) {x g : ℕ} (hg : s.Holds x g) :
    ∃ k, s.EndsPath a k x := by
  rcases hg with ⟨hx, -⟩ | ⟨u, i, hu⟩
  · exact ⟨_, (h.table.entry x hx).1⟩
  · have hok : (Pc.publish i x g).Ok a s := hu ▸ h.thread u
    exact ⟨_, hok.2.2.1⟩

/-- A thread about to take an id has a slot of its own, so the ids issued so far leave room. -/
theorem BuildInv.room (h : BuildInv a s) (hpos : 0 < a.tgsmSlots) (hcap : a.tgsmSlots < 2 ^ 32)
    {i slot : ℕ} (hpc : s.pc t = .takeId i slot) : s.nextLocalId + 1 < u32Max := by
  obtain ⟨-, hclaimed, ⟨d, hd, -⟩, -⟩ : (Pc.takeId i slot).Ok a s := hpc ▸ h.thread t
  have hslot : ∀ g < s.nextLocalId, ∃ x, s.Holds x g := fun g hg => (h.table.issued g).1 hg
  choose! x hx using hslot
  have hmem : ∀ g < s.nextLocalId, x g ∈ (reachable a).erase slot := by
    intro g hg
    refine Finset.mem_erase.2 ⟨?_, ?_⟩
    · intro heq
      rcases hx g hg with ⟨hpub, -⟩ | ⟨u, j, hu⟩
      · exact hpub.2 (heq ▸ hclaimed)
      · have := h.owner u t slot (by rw [hu, heq]; rfl) (by rw [hpc]; rfl)
        rw [this, hpc] at hu
        cases hu
    · obtain ⟨k, e, he, -⟩ := h.holds_endsPath (hx g hg)
      rw [he]
      exact path_mem_reachable hpos k e
  have hcard : s.nextLocalId ≤ ((reachable a).erase slot).card := by
    have := Finset.card_le_card_of_injOn (s := Finset.range s.nextLocalId) x
      (fun g hg => hmem g (Finset.mem_range.1 hg)) (fun g hg g' hg' heq => by
        have h1 := hx g (Finset.mem_range.1 hg)
        have h2 := hx g' (Finset.mem_range.1 hg')
        rw [← heq] at h2
        exact h.holds_id h1 h2)
    rwa [Finset.card_range] at this
  have hin : slot ∈ reachable a := hd ▸ path_mem_reachable hpos _ d
  rw [Finset.card_erase_of_mem hin] at hcard
  have h1 : 0 < (reachable a).card := Finset.card_pos.2 ⟨slot, hin⟩
  have h2 := card_reachable hcap
  omega

theorem BuildInv.takeId (h : BuildInv a s) (hpos : 0 < a.tgsmSlots) (hcap : a.tgsmSlots < 2 ^ 32)
    {i slot : ℕ} (hpc : s.pc t = .takeId i slot) :
    BuildInv a ({ s with nextLocalId := asU32 (s.nextLocalId + 1) }.goto t
      (.publish i slot s.nextLocalId)) := by
  set s' := ({ s with nextLocalId := asU32 (s.nextLocalId + 1) } : BuildState).goto t
    (.publish i slot s.nextLocalId) with hs'
  have hroom := h.room hpos hcap hpc
  have hok : (Pc.takeId i slot).Ok a s := hpc ▸ h.thread t
  have hpc' : s'.pc t = .publish i slot s.nextLocalId := goto_pc_self _ _ _
  have hnext : s'.nextLocalId = s.nextLocalId + 1 :=
    asU32_of_lt (hroom.trans (by decide))
  have hothers : ∀ u, u ≠ t → s'.pc u = s.pc u := goto_others _ _ _
  have hext : Extends s s' := ⟨fun _ _ => ⟨rfl, rfl⟩, fun _ h0 => h0, id⟩
  have hholds : ∀ x g, s'.Holds x g ↔ s.Holds x g ∨ (x = slot ∧ g = s.nextLocalId) := by
    intro x g
    rw [Holds, Holds, or_assoc]
    refine or_congr Iff.rfl ⟨?_, ?_⟩
    · rintro ⟨u, j, hu⟩
      by_cases hut : u = t
      · rw [hut, hpc'] at hu
        cases hu
        exact Or.inr ⟨rfl, rfl⟩
      · exact Or.inl ⟨u, j, by rw [← hothers u hut]; exact hu⟩
    · rintro (⟨u, j, hu⟩ | ⟨rfl, rfl⟩)
      · have hut : u ≠ t := by
          rintro rfl
          rw [hpc] at hu
          cases hu
        exact ⟨u, j, by rw [hothers u hut]; exact hu⟩
      · exact ⟨t, i, hpc'⟩
  refine h.effect (t := t) ⟨hext, hothers, ?_, ?_, fun x => Or.inl ⟨rfl, rfl⟩,
    fun j hj => hext.recorded rfl hj, ?_⟩ ⟨h.table.entry, ?_, ?_, hnext ▸ hroom⟩
  · rw [hpc']
    exact hok
  · intro x hx
    rw [hpc'] at hx
    rw [hpc]
    exact Or.inl hx
  · intro j hj
    rw [hpc] at hj
    rw [hpc']
    exact Or.inl hj
  · intro g
    rw [hnext]
    refine ⟨fun hg => ?_, ?_⟩
    · rcases Nat.lt_succ_iff_lt_or_eq.1 hg with hlt | rfl
      · obtain ⟨x, hx⟩ := (h.table.issued g).1 hlt
        exact ⟨x, (hholds x g).2 (Or.inl hx)⟩
      · exact ⟨slot, (hholds slot _).2 (Or.inr ⟨rfl, rfl⟩)⟩
    · rintro ⟨x, hx⟩
      rcases (hholds x g).1 hx with hx | ⟨-, rfl⟩
      · exact Nat.lt_succ_of_lt ((h.table.issued g).2 ⟨x, hx⟩)
      · exact Nat.lt_succ_self _
  · intro x y g hx hy
    have hnew : ¬ ∃ z, s.Holds z s.nextLocalId := by
      rw [← h.table.issued]
      exact lt_irrefl _
    rcases (hholds x g).1 hx with hx' | ⟨hx', hg⟩ <;>
      rcases (hholds y g).1 hy with hy' | ⟨hy', hg'⟩
    · exact h.table.heldOnce x y g hx' hy'
    · exact absurd ⟨x, hg' ▸ hx'⟩ hnew
    · exact absurd ⟨y, hg ▸ hy'⟩ hnew
    · rw [hx', hy']

theorem BuildInv.publish (h : BuildInv a s) {i slot gid : ℕ} (hpc : s.pc t = .publish i slot gid) :
    BuildInv a ({ s with slotState := Function.update s.slotState slot (asU32 (gid + 1)) }.goto t
      (leaveProbe i gid)) := by
  set s' := ({ s with slotState := Function.update s.slotState slot (asU32 (gid + 1)) } :
    BuildState).goto t (leaveProbe i gid) with hs'
  obtain ⟨hi, hclaimed, hpath, hkey⟩ : (Pc.publish i slot gid).Ok a s := hpc ▸ h.thread t
  have hpc' : s'.pc t = leaveProbe i gid := goto_pc_self _ _ _
  have hgid : gid < s.nextLocalId := (h.table.issued gid).2 ⟨slot, Or.inr ⟨t, i, hpc⟩⟩
  have hids := h.table.ids
  have hlt : gid + 1 < 2 ^ 32 := by simp only [u32Max] at hids; omega
  have hstate : ∀ x, s'.slotState x = if x = slot then gid + 1 else s.slotState x := by
    intro x
    rw [← asU32_of_lt hlt]
    exact Function.update_apply _ _ _ _
  have hothers : ∀ u, u ≠ t → s'.pc u = s.pc u := goto_others _ _ _
  have hslot : s'.Published slot := by
    rw [Published, hstate, if_pos rfl]
    exact ⟨by omega, by omega⟩
  have hext : Extends s s' := by
    refine ⟨fun x hx => ⟨?_, rfl⟩, fun x hx => ?_, id⟩
    · rw [hstate, if_neg]
      rintro rfl
      exact hx.2 hclaimed
    · rw [hstate]
      split_ifs
      · omega
      · exact hx
  have hpub : ∀ x, s'.Published x → x = slot ∨ s.Published x := by
    intro x hx
    by_cases hxs : x = slot
    · exact Or.inl hxs
    · rw [Published, hstate, if_neg hxs] at hx
      exact Or.inr hx
  have hnot : ∀ u j x g, u ≠ t → s.pc u = .publish j x g → x ≠ slot := by
    intro u j x g hut hu hxs
    exact hut (h.owner u t slot (by rw [hu, hxs]; rfl) (by rw [hpc]; rfl))
  -- the publisher's id becomes the slot's
  have hholds : ∀ x g, s'.Holds x g ↔ s.Holds x g := by
    intro x g
    refine ⟨?_, ?_⟩
    · rintro (⟨hx, hg⟩ | ⟨u, j, hu⟩)
      · rw [hstate] at hg
        split_ifs at hg with hxs
        · obtain rfl : gid = g := by omega
          exact Or.inr ⟨t, i, hxs ▸ hpc⟩
        · exact Or.inl ⟨(hpub x hx).resolve_left hxs, hg⟩
      · have hut : u ≠ t := by
          rintro rfl
          rw [hpc'] at hu
          exact claimed_ne_publish (leaveProbe_claimed i gid) _ _ _ hu
        exact Or.inr ⟨u, j, by rw [← hothers u hut]; exact hu⟩
    · rintro (⟨hx, hg⟩ | ⟨u, j, hu⟩)
      · exact Or.inl ⟨hext.published_mono hx, (hext.published x hx).1.trans hg⟩
      · by_cases hut : u = t
        · rw [hut, hpc] at hu
          cases hu
          exact Or.inl ⟨hslot, by rw [hstate, if_pos rfl]⟩
        · exact Or.inr ⟨u, j, by rw [hothers u hut]; exact hu⟩
  refine h.effect (t := t) ⟨hext, hothers, ?_, ?_, ?_, fun j hj => hext.recorded rfl hj, ?_⟩
    ⟨?_, ?_, ?_, hids⟩
  · rw [hpc']
    exact leaveProbe_ok hi (fun _ => ⟨slot, hslot, hkey, by rw [hstate, if_pos rfl]⟩)
  · intro x hx
    rw [hpc', leaveProbe_claimed] at hx
    cases hx
  · intro x
    by_cases hx : x = slot
    · rw [hpc, hx]
      exact Or.inr (Or.inl rfl)
    · exact Or.inl ⟨by rw [hstate, if_neg hx], rfl⟩
  · intro j hj
    rw [hpc] at hj
    rw [hpc']
    exact Or.inl (leaveProbe_at gid hj)
  · intro x hx
    rcases hpub x hx with rfl | hold
    · exact ⟨hext.endsPath (hkey ▸ hpath), i, hi, hkey.symm⟩
    · obtain ⟨hp, hk⟩ := h.table.entry x hold
      exact ⟨hext.endsPath hp, hk⟩
  · intro g
    rw [show s'.nextLocalId = s.nextLocalId from rfl, h.table.issued g]
    exact exists_congr (fun x => (hholds x g).symm)
  · intro x y g hx hy
    exact h.table.heldOnce x y g ((hholds x g).1 hx) ((hholds y g).1 hy)

theorem BuildInv.setOverflow (h : BuildInv a s) {i : ℕ} (hpc : s.pc t = .setOverflow i) :
    BuildInv a ({ s with overflowFlag := true }.goto t (.storeGroup i u32Max)) := by
  set s' := ({ s with overflowFlag := true } : BuildState).goto t (.storeGroup i u32Max) with hs'
  have hi : i < a.count := by
    have : (Pc.setOverflow i).Ok a s := hpc ▸ h.thread t
    exact this
  have hpc' : s'.pc t = .storeGroup i u32Max := goto_pc_self _ _ _
  have hothers : ∀ u, u ≠ t → s'.pc u = s.pc u := goto_others _ _ _
  have hext : Extends s s' := ⟨fun _ _ => ⟨rfl, rfl⟩, fun _ h0 => h0, fun _ => rfl⟩
  refine h.effect (t := t) ⟨hext, hothers, ?_, ?_, fun x => Or.inl ⟨rfl, rfl⟩,
    fun j hj => Or.inl rfl, ?_⟩ (h.table.same hext (fun x hx => hx) rfl (publish_iff hothers ?_ ?_))
  · rw [hpc']
    exact ⟨hi, Or.inl rfl⟩
  · intro x hx
    rw [hpc'] at hx
    cases hx
  · intro j hj
    rw [hpc] at hj
    rw [hpc']
    exact Or.inl hj
  · rw [hpc]; exact claimed_ne_publish rfl
  · rw [hpc']; exact claimed_ne_publish rfl

theorem BuildInv.storeGroup (h : BuildInv a s) {i groupId : ℕ}
    (hpc : s.pc t = .storeGroup i groupId) :
    BuildInv a ({ s with
      rowToLocalGroup := Function.update s.rowToLocalGroup (a.row i) groupId }.goto t
      (.rowLoop (asU32 (i + a.tgSize)))) := by
  set s' := ({ s with rowToLocalGroup := Function.update s.rowToLocalGroup (a.row i) groupId } :
    BuildState).goto t (.rowLoop (asU32 (i + a.tgSize))) with hs'
  obtain ⟨-, hfound⟩ : (Pc.storeGroup i groupId).Ok a s := hpc ▸ h.thread t
  have hpc' : s'.pc t = .rowLoop (asU32 (i + a.tgSize)) := goto_pc_self _ _ _
  have hothers : ∀ u, u ≠ t → s'.pc u = s.pc u := goto_others _ _ _
  have hext : Extends s s' := ⟨fun _ _ => ⟨rfl, rfl⟩, fun _ h0 => h0, id⟩
  have hrow : ∀ r, s'.rowToLocalGroup r = if r = a.row i then groupId else s.rowToLocalGroup r :=
    fun r => Function.update_apply _ _ _ _
  -- positions of the row that is written have its key
  have hnow : ∀ j, a.row j = a.row i → s'.Recorded a j := by
    intro j hj
    refine hfound.imp hext.overflow (fun hf => ?_)
    rw [hrow, if_pos hj, PartitionArgs.keyAt, hj]
    exact hext.found hf
  refine h.effect (t := t) ⟨hext, hothers, ?_, ?_, fun x => Or.inl ⟨rfl, rfl⟩, ?_, ?_⟩
    (h.table.same hext (fun x hx => hx) rfl (publish_iff hothers ?_ ?_))
  · rw [hpc']
    trivial
  · intro x hx
    rw [hpc'] at hx
    cases hx
  · intro j hj
    by_cases hji : a.row j = a.row i
    · exact hnow j hji
    · exact hext.recorded (by rw [hrow, if_neg hji]) hj
  · intro j hj
    rw [hpc] at hj
    obtain rfl : i = j := hj
    rw [hpc']
    exact Or.inr ⟨rfl, hnow i rfl⟩
  · rw [hpc]; exact claimed_ne_publish rfl
  · rw [hpc']; exact claimed_ne_publish rfl

/-- Without a spurious failure, every step keeps the invariant. -/
theorem buildInv_step (hpos : 0 < a.tgsmSlots) (hcap : a.tgsmSlots < 2 ^ 32) {label : ℕ × Bool}
    (hcas : ¬ SpuriousFailure s label) (h : BuildInv a s) :
    BuildInv a (partitionBuildStep a s label) := by
  obtain ⟨t, spurious⟩ := label
  have hok := h.thread t
  cases hpc : s.pc t with
  | rowLoop i =>
    simp only [partitionBuildStep, hpc]
    split_ifs with hi
    · exact h.goto (by rw [hpc]; rfl) rfl ⟨hi, rfl, fun e he => absurd he (Nat.not_lt_zero e)⟩
        (fun j hj => by rw [hpc] at hj; exact hj)
    · refine h.goto (by rw [hpc]; rfl) rfl trivial (fun j hj => ?_)
      rw [hpc] at hj
      obtain rfl : i = j := hj
      exact Nat.le_of_not_lt hi
  | loadState i slot probe =>
    rw [hpc] at hok
    obtain ⟨hi, hslot, hclear⟩ := hok
    simp only [partitionBuildStep, hpc]
    split_ifs with hprobe hstate
    · exact h.goto (by rw [hpc]; rfl) rfl ⟨hi, hslot, hclear⟩
        (fun j hj => by rw [hpc] at hj; exact hj)
    · exact h.goto (by rw [hpc]; rfl) (settle_claimed ..) (settle_ok hi hslot hclear hstate)
        (fun j hj => by rw [hpc] at hj; exact settle_at _ _ _ hj)
    · exact h.goto (by rw [hpc]; rfl) (leaveProbe_claimed ..)
        (leaveProbe_ok hi (fun hne => absurd rfl hne))
        (fun j hj => by rw [hpc] at hj; exact leaveProbe_at _ hj)
  | claim i slot probe =>
    rw [hpc] at hok
    obtain ⟨hi, hslot, hclear⟩ := hok
    simp only [partitionBuildStep, hpc]
    split_ifs with hwin
    · exact h.claim hpc hwin.1
    · have hstate : s.slotState slot ≠ 0 := by
        intro hempty
        refine hcas ⟨i, slot, probe, hpc, hempty, ?_⟩
        cases spurious with
        | true => rfl
        | false => exact absurd ⟨hempty, rfl⟩ hwin
      exact h.goto (by rw [hpc]; rfl) (settle_claimed ..) (settle_ok hi hslot hclear hstate)
        (fun j hj => by rw [hpc] at hj; exact settle_at _ _ _ hj)
  | writeKey i slot =>
    simp only [partitionBuildStep, hpc]
    exact h.writeKey hpc
  | takeId i slot =>
    simp only [partitionBuildStep, hpc]
    exact h.takeId hpos hcap hpc
  | publish i slot gid =>
    simp only [partitionBuildStep, hpc]
    exact h.publish hpc
  | spin i slot probe =>
    rw [hpc] at hok
    obtain ⟨hi, hslot, hclear, hstate⟩ := hok
    simp only [partitionBuildStep, hpc]
    exact h.goto (by rw [hpc]; rfl) (settle_claimed ..) (settle_ok hi hslot hclear hstate)
      (fun j hj => by rw [hpc] at hj; exact settle_at _ _ _ hj)
  | compareKey i slot probe state =>
    rw [hpc] at hok
    obtain ⟨hi, hslot, hclear, hpub, hstate⟩ := hok
    simp only [partitionBuildStep, hpc]
    split_ifs with hkey
    · -- the state read is the slot's id plus one
      have hid : ∃ gid, s.slotState slot = gid + 1 := Nat.exists_eq_succ_of_ne_zero hpub.1
      obtain ⟨gid, hgid⟩ := hid
      have hlt : gid < s.nextLocalId := (h.table.issued gid).2 ⟨slot, Or.inl ⟨hpub, hgid⟩⟩
      have hids := h.table.ids
      have hsub : asU32 (state + u32Max) = gid := by
        rw [← hstate, hgid]
        simp only [asU32, u32Max] at hids ⊢
        omega
      rw [hsub]
      exact h.goto (by rw [hpc]; rfl) (leaveProbe_claimed ..)
        (leaveProbe_ok hi (fun _ => ⟨slot, hpub, hkey, hgid⟩))
        (fun j hj => by rw [hpc] at hj; exact leaveProbe_at _ hj)
    · refine h.goto (by rw [hpc]; rfl) rfl ⟨hi, by rw [hslot]; rfl, fun e he => ?_⟩
        (fun j hj => by rw [hpc] at hj; exact hj)
      rcases Nat.lt_succ_iff_lt_or_eq.1 he with hlt | rfl
      · exact hclear e hlt
      · exact ⟨hslot ▸ hpub, hslot ▸ hkey⟩
  | setOverflow i =>
    simp only [partitionBuildStep, hpc]
    exact h.setOverflow hpc
  | storeGroup i groupId =>
    simp only [partitionBuildStep, hpc]
    exact h.storeGroup hpc
  | barrier =>
    simp only [partitionBuildStep, hpc]
    exact h

end Steps

theorem buildInv_init (a : PartitionArgs) (before : ℕ → ℕ) :
    BuildInv a (partitionBuildInit a before) := by
  have hpub : ∀ x, ¬ (partitionBuildInit a before).Published x := fun x hx => hx.1 rfl
  have hpc : ∀ t, (partitionBuildInit a before).pc t = if t < a.tgSize then .rowLoop t else .barrier :=
    fun _ => rfl
  have hholds : ∀ x g, ¬ (partitionBuildInit a before).Holds x g := by
    rintro x g (⟨hx, -⟩ | ⟨t, i, ht⟩)
    · exact hpub x hx
    · rw [hpc] at ht
      split_ifs at ht
  refine ⟨⟨fun x hx => absurd hx (hpub x), fun g => ?_, fun x y g hx => absurd hx (hholds x g),
    (by decide : 0 < u32Max)⟩, fun t => ?_, fun t u x hx => ?_, fun t ht => ⟨0, ?_, ?_⟩⟩
  · refine ⟨fun hg => absurd hg (Nat.not_lt_zero g), ?_⟩
    rintro ⟨x, hx⟩
    exact absurd hx (hholds x g)
  · rw [hpc]
    split_ifs <;> trivial
  · rw [hpc] at hx
    split_ifs at hx <;> cases hx
  · rw [hpc, if_pos ht]
    rfl
  · exact fun m' hm' => absurd hm' (Nat.not_lt_zero m')

theorem buildInv_runFrom {a : PartitionArgs} (hpos : 0 < a.tgsmSlots) (hcap : a.tgsmSlots < 2 ^ 32)
    {s : BuildState} (h : BuildInv a s) {schedule : List (ℕ × Bool)}
    (hcas : Throughout (partitionBuildStep a) (fun s label => ¬ SpuriousFailure s label) s
      schedule) : BuildInv a (run (partitionBuildStep a) s schedule) :=
  hcas.invariant (fun _ _ => buildInv_step hpos hcap) h

/-- The invariant holds after every run without a spurious failure. -/
theorem buildInv_run {a : PartitionArgs} (hpos : 0 < a.tgsmSlots) (hcap : a.tgsmSlots < 2 ^ 32)
    {before : ℕ → ℕ} {schedule : List (ℕ × Bool)}
    (hcas : Throughout (partitionBuildStep a) (fun s label => ¬ SpuriousFailure s label)
      (partitionBuildInit a before) schedule) :
    BuildInv a (partitionBuild a before schedule) :=
  buildInv_runFrom hpos hcap (buildInv_init a before) hcas

/-! What the table says once every thread has reached the barrier. -/

theorem loopIndex_eq (a : PartitionArgs) (t : ℕ) {m : ℕ} (h : t + m * a.tgSize < 2 ^ 32) :
    a.loopIndex t m = t + m * a.tgSize := by
  induction m with
  | zero => simp [PartitionArgs.loopIndex]
  | succ m ih =>
    rw [Nat.succ_mul] at h ⊢
    rw [PartitionArgs.loopIndex, ih (by omega), asU32_of_lt (by omega)]
    omega

/-- Every position is some thread's. -/
theorem BuildInv.recorded {a : PartitionArgs} {s : BuildState} (h : BuildInv a s)
    (hsize : 0 < a.tgSize) (hcount : a.count < 2 ^ 32) (hdone : s.Finished) {j : ℕ}
    (hj : j < a.count) : s.Recorded a j := by
  have hmod := Nat.mod_lt j hsize
  have hdiv : j % a.tgSize + j / a.tgSize * a.tgSize = j := by
    have := Nat.mod_add_div j a.tgSize
    rwa [Nat.mul_comm] at this
  obtain ⟨m, hat, hrec⟩ := h.visited (j % a.tgSize) hmod
  rw [hdone] at hat
  have hat : a.count ≤ a.loopIndex (j % a.tgSize) m := hat
  have hlt : j / a.tgSize < m := by
    by_contra hle
    have hmul : m * a.tgSize ≤ j / a.tgSize * a.tgSize :=
      Nat.mul_le_mul_right _ (Nat.le_of_not_lt hle)
    rw [loopIndex_eq a _ (by omega)] at hat
    omega
  have := hrec _ hlt
  rwa [loopIndex_eq a _ (by omega), hdiv] at this

end PolarsMetal.GroupBy
