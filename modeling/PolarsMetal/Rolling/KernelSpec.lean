import PolarsMetal.Rolling.Kernel
import Mathlib.Algebra.BigOperators.Intervals
import Mathlib.Algebra.BigOperators.Fin
import Mathlib.Tactic

/-! The rolling kernels phase by phase. Each phase has one lemma that says what it leaves; together
they make the sum kernel's tile the prefix sums of the slots, in any commutative monoid. -/

namespace PolarsMetal.Rolling
open Interleave Barriers Finset

variable {V : Type}

/-! Loops over the tile. -/

theorem foldl_load (value : ℕ → V) (js : List ℕ) (m : TgMem V) (j : ℕ) :
    ((js.map fun i => TgMem.setTile i fun _ => value i).foldl (fun m op => op m) m).tile j =
      if j ∈ js then value j else m.tile j := by
  induction js using List.reverseRecOn with
  | nil => rfl
  | append_singleton js i ih =>
    simp only [List.map_append, List.map_cons, List.map_nil, List.foldl_append, List.foldl_cons,
      List.foldl_nil, List.mem_append, List.mem_singleton, TgMem.setTile, Function.update_apply]
    by_cases hj : j = i
    · subst hj
      simp
    · simp [hj, ih]

theorem foldl_prefix [AddCommMonoid V] (m : TgMem V) (s c : ℕ) :
    ((List.range' (s + 1) c).map fun j =>
        TgMem.setTile j fun m => m.tile j + m.tile (j - 1)).foldl (fun m op => op m) m =
      { m with tile := fun j =>
          if s ≤ j ∧ j < s + 1 + c then ∑ k ∈ Ico s (j + 1), m.tile k else m.tile j } := by
  induction c with
  | zero =>
    have htile : m.tile = fun j =>
        if s ≤ j ∧ j < s + 1 + 0 then ∑ k ∈ Ico s (j + 1), m.tile k else m.tile j := by
      funext j
      split_ifs with hj
      · obtain rfl : j = s := by omega
        simp
      · rfl
    rw [← htile]
    rfl
  | succ c ih =>
    rw [List.range'_concat, List.map_append, List.foldl_append, ih]
    simp only [List.map_cons, List.map_nil, List.foldl_cons, List.foldl_nil, TgMem.setTile,
      Nat.one_mul]
    congr 1
    funext j
    by_cases hj : j = s + 1 + c
    · subst hj
      rw [Function.update_self, if_neg (by omega), if_pos (by omega), if_pos (by omega),
        Nat.sub_add_cancel (by omega), add_comm, sum_Ico_succ_top (by omega)]
    · rw [Function.update_of_ne hj]
      split_ifs <;> first | rfl | omega

theorem foldl_offset [Add V] (m : TgMem V) (t : ℕ) {js : List ℕ} (hnodup : js.Nodup) :
    (js.map fun j => TgMem.setTile j fun m => m.tile j + m.reg t).foldl (fun m op => op m) m =
      { m with tile := fun j => if j ∈ js then m.tile j + m.reg t else m.tile j } := by
  induction js using List.reverseRecOn with
  | nil => simp
  | append_singleton js i ih =>
    obtain ⟨hjs, -, hi⟩ := List.nodup_append.1 hnodup
    have hmem : i ∉ js := fun h => hi i h i (List.mem_singleton_self i) rfl
    rw [List.map_append, List.foldl_append, ih hjs]
    simp only [List.map_cons, List.map_nil, List.foldl_cons, List.foldl_nil, TgMem.setTile]
    congr 1
    funext j
    by_cases hj : j = i
    · subst hj
      simp [hmem]
    · simp [hj]

namespace Args

variable (a : Args V)

/-! Segments. -/

theorem seg_pos : 0 < a.seg := by
  unfold seg loadCount tgSize
  omega

theorem loadCount_le : a.loadCount ≤ tgSize * a.seg := by
  unfold seg tgSize
  omega

theorem segStart_le (j : ℕ) : a.segStart (j / a.seg) ≤ j := Nat.div_mul_le_self j a.seg

theorem lt_segStart_add (j : ℕ) : j < a.segStart (j / a.seg) + a.seg := by
  have h := Nat.div_add_mod j a.seg
  have hmod := Nat.mod_lt j a.seg_pos
  rw [Nat.mul_comm] at h
  unfold segStart
  omega

theorem lt_segEnd {j : ℕ} (hj : j < a.loadCount) : j < a.segEnd (j / a.seg) :=
  lt_min (a.lt_segStart_add j) hj

theorem owner_lt {j : ℕ} (hj : j < a.loadCount) : j / a.seg < tgSize :=
  Nat.div_lt_of_lt_mul (by rw [Nat.mul_comm]; exact hj.trans_le a.loadCount_le)

/-- Segments are disjoint. -/
theorem seg_disjoint {t u j : ℕ} (hut : u ≠ t) (ht : a.segStart t ≤ j ∧ j < a.segEnd t)
    (hu : a.segStart u ≤ j ∧ j < a.segEnd u) : False := by
  have hdiv : ∀ v, a.segStart v ≤ j → j < a.segEnd v → j / a.seg = v := fun v hle hlt =>
    Nat.div_eq_of_lt_le hle (by
      rw [Nat.succ_mul]
      exact hlt.trans_le (Nat.min_le_left _ _))
  exact hut ((hdiv u hu.1 hu.2).symm.trans (hdiv t ht.1 ht.2))

theorem mem_indices {start stop j : ℕ} : j ∈ indices start stop ↔ start ≤ j ∧ j < stop := by
  unfold indices
  rw [List.mem_range'_1]
  omega

section Load

variable [Zero V] {m : TgMem V} {turns : List ℕ} {tgid : ℕ}

theorem tile_load (hcomplete : Complete (ofGroup tgSize (a.load tgid)) tgSize turns) {j : ℕ}
    (hj : j < a.loadCount) : (runPhase tgSize (a.load tgid) m turns).tile j = a.slot tgid j := by
  have hlt : j % tgSize < tgSize := Nat.mod_lt j (by decide)
  have hview : (runPhase tgSize (a.load tgid) m turns).tile j =
      ((a.load tgid (j % tgSize)).foldl (fun m op => op m) m).tile j := by
    refine runPhase_view (fun m => m.tile j) hcomplete hlt (fun m m' hm op hop => ?_) fun u hu hne op hop m => ?_
    · obtain ⟨i, -, rfl⟩ := List.mem_map.1 hop
      simp only [TgMem.setTile, Function.update_apply, hm]
    · obtain ⟨i, hi, rfl⟩ := List.mem_map.1 hop
      have hij : j ≠ i := fun h => hne (by rw [h]; exact ((mem_strided hu).1 hi).2.symm)
      simp only [TgMem.setTile, Function.update_of_ne hij]
  rw [hview, load, foldl_load, if_pos ((mem_strided hlt).2 ⟨hj, rfl⟩)]

end Load

variable [AddCommMonoid V]

/-! The sums along the segments. -/

def segTotal (x : ℕ → V) (t : ℕ) : V := ∑ k ∈ Ico (a.segStart t) (a.segEnd t), x k

/-- The tile after phase A. -/
def LocalSums (x : ℕ → V) (tile : ℕ → V) : Prop :=
  ∀ j < a.loadCount, tile j = ∑ k ∈ Ico (a.segStart (j / a.seg)) (j + 1), x k

/-- What thread `t` owns in phase A. -/
def segView (t : ℕ) (m : TgMem V) : (ℕ → V) × V :=
  (fun j => if a.segStart t ≤ j ∧ j < a.segEnd t then m.tile j else 0, m.segA t)

theorem segView_setTile {t j : ℕ} (hj : ¬ (a.segStart t ≤ j ∧ j < a.segEnd t))
    (value : TgMem V → V) (m : TgMem V) :
    a.segView t (TgMem.setTile j value m) = a.segView t m := by
  refine Prod.ext (funext fun i => ?_) rfl
  simp only [segView, TgMem.setTile]
  split_ifs with hi
  · rw [Function.update_of_ne (fun h : i = j => hj (h ▸ hi))]
  · rfl

theorem tile_of_segView {t j : ℕ} {m m' : TgMem V} (h : a.segView t m = a.segView t m')
    (hj : a.segStart t ≤ j ∧ j < a.segEnd t) : m.tile j = m'.tile j := by
  have := congrFun (congrArg Prod.fst h) j
  simpa only [segView, if_pos hj] using this

theorem segView_setTile_congr {t j : ℕ} {value : TgMem V → V} {m m' : TgMem V}
    (h : a.segView t m = a.segView t m') (hvalue : value m = value m') :
    a.segView t (TgMem.setTile j value m) = a.segView t (TgMem.setTile j value m') := by
  have hsegA : m.segA t = m'.segA t := congrArg Prod.snd h
  refine Prod.ext (funext fun i => ?_) hsegA
  simp only [segView, TgMem.setTile]
  split_ifs with hi
  · by_cases hij : i = j
    · rw [hij, Function.update_self, Function.update_self, hvalue]
    · rw [Function.update_of_ne hij, Function.update_of_ne hij, a.tile_of_segView h hi]
  · rfl

omit [AddCommMonoid V] in
theorem segEnd_le (t : ℕ) (h : ¬ a.segStart t < a.loadCount) : a.segEnd t ≤ a.segStart t :=
  (Nat.min_le_right _ _).trans (by omega)

omit [AddCommMonoid V] in
theorem lt_segEnd_of_lt {t : ℕ} (h : a.segStart t < a.loadCount) : a.segStart t < a.segEnd t :=
  lt_min (by have := a.seg_pos; omega) h

theorem segView_phaseA {m : TgMem V} {turns : List ℕ}
    (hcomplete : Complete (ofGroup tgSize a.phaseA) tgSize turns) {t : ℕ} (ht : t < tgSize) :
    a.segView t (runPhase tgSize a.phaseA m turns) =
      (fun j => if a.segStart t ≤ j ∧ j < a.segEnd t then
        ∑ k ∈ Ico (a.segStart t) (j + 1), m.tile k else 0, a.segTotal m.tile t) := by
  have hview : a.segView t (runPhase tgSize a.phaseA m turns) =
      a.segView t ((a.phaseA t).foldl (fun m op => op m) m) := by
    refine runPhase_view (a.segView t) hcomplete ht (fun m m' hm op hop => ?_)
      fun u hu hne op hop m => ?_
    · unfold phaseA at hop
      split_ifs at hop with hlt
      · rcases List.mem_append.1 hop with hop | hop
        · obtain ⟨j, hj, rfl⟩ := List.mem_map.1 hop
          have hj := mem_indices.1 hj
          refine a.segView_setTile_congr hm ?_
          rw [a.tile_of_segView hm ⟨by omega, by omega⟩,
            a.tile_of_segView hm (j := j - 1) ⟨by omega, by omega⟩]
        · rw [List.mem_singleton.1 hop]
          refine Prod.ext (congrArg (fun v => v.1) hm) ?_
          have hlt := a.lt_segEnd_of_lt hlt
          simp only [segView, TgMem.setSegA, Function.update_self]
          exact a.tile_of_segView hm ⟨by omega, by omega⟩
      · rw [List.mem_singleton.1 hop]
        refine Prod.ext (congrArg (fun v => v.1) hm) ?_
        simp only [segView, TgMem.setSegA, Function.update_self]
    · have hsegA : ∀ value : TgMem V → V,
          a.segView t (TgMem.setSegA u value m) = a.segView t m := fun value => by
        simp only [segView, TgMem.setSegA, Function.update_of_ne (Ne.symm hne)]
      unfold phaseA at hop
      split_ifs at hop with hlt
      · rcases List.mem_append.1 hop with hop | hop
        · obtain ⟨j, hj, rfl⟩ := List.mem_map.1 hop
          have hj := mem_indices.1 hj
          exact a.segView_setTile (fun h => a.seg_disjoint hne h ⟨by omega, by omega⟩) _ m
        · rw [List.mem_singleton.1 hop, hsegA]
      · rw [List.mem_singleton.1 hop, hsegA]
  rw [hview]
  unfold phaseA
  split_ifs with hlt
  · have hend := a.lt_segEnd_of_lt hlt
    have hcount : a.segStart t + 1 + (a.segEnd t - (a.segStart t + 1)) = a.segEnd t := by omega
    rw [List.foldl_append, indices, foldl_prefix, hcount, List.foldl_cons, List.foldl_nil]
    refine Prod.ext (funext fun j => ?_) ?_
    · simp only [segView, TgMem.setSegA]
      split_ifs with hj
      · rfl
      · rfl
    · simp only [segView, TgMem.setSegA, Function.update_self]
      rw [if_pos ⟨by omega, by omega⟩, Nat.sub_add_cancel (by omega), segTotal]
  · have hend := a.segEnd_le t hlt
    rw [List.foldl_cons, List.foldl_nil]
    refine Prod.ext (funext fun j => ?_) ?_
    · simp only [segView, TgMem.setSegA]
      rw [if_neg (by omega), if_neg (by omega)]
    · simp only [segView, TgMem.setSegA, Function.update_self, segTotal, Ico_eq_empty_of_le hend,
        sum_empty]

theorem phaseA_spec (x : ℕ → V) : Triple tgSize (fun m => ∀ j < a.loadCount, m.tile j = x j)
    [a.phaseA] fun m => a.LocalSums x m.tile ∧ ∀ t < tgSize, m.segA t = a.segTotal x t := by
  refine Triple.single fun m turns hcomplete hm => ⟨fun j hj => ?_, fun t ht => ?_⟩
  · have hj' := And.intro (a.segStart_le j) (a.lt_segEnd hj)
    have h := congrFun (congrArg Prod.fst (a.segView_phaseA (m := m) hcomplete (a.owner_lt hj))) j
    simp only [segView, if_pos hj'] at h
    rw [h]
    refine sum_congr rfl fun k hk => hm k ?_
    have := (mem_Ico.1 hk).2
    omega
  · have h := congrArg Prod.snd (a.segView_phaseA (m := m) hcomplete ht)
    simp only [segView] at h
    rw [h]
    refine sum_congr rfl fun k hk => hm k ?_
    exact (mem_Ico.1 hk).2.trans_le (Nat.min_le_right _ _)

/-! One pass of the scan. -/

omit [AddCommMonoid V] in
theorem scanRead_reg [Zero V] {stride : ℕ} {m : TgMem V} {turns : List ℕ}
    (hcomplete : Complete (ofGroup tgSize (scanRead stride : Phase (TgMem V))) tgSize turns) {t : ℕ}
    (ht : t < tgSize) : (runPhase tgSize (scanRead stride) m turns).reg t =
      if t ≥ stride then m.segA (t - stride) else 0 := by
  have hview := runPhase_view (fun m : TgMem V => (m.reg t, m.segA)) (m := m) hcomplete ht
    (fun m m' hm op hop => ?_) fun u hu hne op hop m => ?_
  · simpa only [scanRead, List.foldl_cons, List.foldl_nil, TgMem.setReg, Function.update_self]
      using congrArg Prod.fst hview
  · rw [List.mem_singleton.1 hop]
    have hsegA : m.segA = m'.segA := congrArg Prod.snd hm
    simp only [TgMem.setReg, Function.update_self, hsegA]
  · rw [List.mem_singleton.1 hop]
    simp only [TgMem.setReg, Function.update_of_ne (Ne.symm hne)]

omit [AddCommMonoid V] in
theorem scanAdd_segB [Add V] {m : TgMem V} {turns : List ℕ}
    (hcomplete : Complete (ofGroup tgSize (scanAdd : Phase (TgMem V))) tgSize turns) {t : ℕ}
    (ht : t < tgSize) : (runPhase tgSize scanAdd m turns).segB t = m.segA t + m.reg t := by
  have hview := runPhase_view (fun m : TgMem V => (m.segB t, m.segA, m.reg)) (m := m) hcomplete ht
    (fun m m' hm op hop => ?_) fun u hu hne op hop m => ?_
  · simpa only [scanAdd, List.foldl_cons, List.foldl_nil, TgMem.setSegB, Function.update_self]
      using congrArg Prod.fst hview
  · rw [List.mem_singleton.1 hop]
    have hsegA : m.segA = m'.segA := congrArg (fun v => v.2.1) hm
    have hreg : m.reg = m'.reg := congrArg (fun v => v.2.2) hm
    simp only [TgMem.setSegB, Function.update_self, hsegA, hreg]
  · rw [List.mem_singleton.1 hop]
    simp only [TgMem.setSegB, Function.update_of_ne (Ne.symm hne)]

omit [AddCommMonoid V] in
theorem scanCopy_segA {m : TgMem V} {turns : List ℕ}
    (hcomplete : Complete (ofGroup tgSize (scanCopy : Phase (TgMem V))) tgSize turns) {t : ℕ}
    (ht : t < tgSize) : (runPhase tgSize scanCopy m turns).segA t = m.segB t := by
  have hview := runPhase_view (fun m : TgMem V => (m.segA t, m.segB)) (m := m) hcomplete ht
    (fun m m' hm op hop => ?_) fun u hu hne op hop m => ?_
  · simpa only [scanCopy, List.foldl_cons, List.foldl_nil, TgMem.setSegA, Function.update_self]
      using congrArg Prod.fst hview
  · rw [List.mem_singleton.1 hop]
    have hsegB : m.segB = m'.segB := congrArg Prod.snd hm
    simp only [TgMem.setSegA, Function.update_self, hsegB]
  · rw [List.mem_singleton.1 hop]
    simp only [TgMem.setSegA, Function.update_of_ne (Ne.symm hne)]

/-- A pass adds to each total the one `stride` before it. -/
theorem scanPass_spec (stride : ℕ) (Q : (ℕ → V) → Prop) (total : ℕ → V) :
    Triple tgSize (fun m => Q m.tile ∧ ∀ t < tgSize, m.segA t = total t) (scanPass stride)
      fun m => Q m.tile ∧ ∀ t < tgSize,
        m.segA t = total t + if t ≥ stride then total (t - stride) else 0 := by
  refine Triple.cons (Q := fun m => Q m.tile ∧ ∀ t < tgSize,
    m.segA t = total t ∧ m.reg t = if t ≥ stride then total (t - stride) else 0) ?_ ?_
  · intro m turns hcomplete ⟨hQ, hm⟩
    have htile : (runPhase tgSize (scanRead stride) m turns).tile = m.tile :=
      runPhase_frame (fun m : TgMem V => m.tile)
        (fun t _ op hop m => by rw [List.mem_singleton.1 hop]; rfl) m turns
    have hsegA : (runPhase tgSize (scanRead stride) m turns).segA = m.segA :=
      runPhase_frame (fun m : TgMem V => m.segA)
        (fun t _ op hop m => by rw [List.mem_singleton.1 hop]; rfl) m turns
    refine ⟨by rwa [htile], fun t ht => ⟨by rw [hsegA, hm t ht], ?_⟩⟩
    rw [scanRead_reg hcomplete ht]
    split_ifs
    · exact hm _ (by omega)
    · rfl
  refine Triple.cons (Q := fun m => Q m.tile ∧ ∀ t < tgSize,
    m.segB t = total t + if t ≥ stride then total (t - stride) else 0) ?_ ?_
  · intro m turns hcomplete ⟨hQ, hm⟩
    have htile : (runPhase tgSize scanAdd m turns).tile = m.tile :=
        runPhase_frame (fun m : TgMem V => m.tile)
          (fun t _ op hop m => by rw [List.mem_singleton.1 hop]; rfl) m turns
    refine ⟨by rwa [htile], fun t ht => ?_⟩
    rw [scanAdd_segB hcomplete ht, (hm t ht).1, (hm t ht).2]
  refine Triple.single fun m turns hcomplete ⟨hQ, hm⟩ => ?_
  have htile : (runPhase tgSize scanCopy m turns).tile = m.tile :=
      runPhase_frame (fun m : TgMem V => m.tile)
        (fun t _ op hop m => by rw [List.mem_singleton.1 hop]; rfl) m turns
  refine ⟨by rwa [htile], fun t ht => ?_⟩
  rw [scanCopy_segA hcomplete ht, hm t ht]

/-- After `p` passes each total reaches `2 ^ p` segments back. -/
def scanned (total : ℕ → V) (p t : ℕ) : V := ∑ u ∈ Ico (t + 1 - 2 ^ p) (t + 1), total u

theorem scanned_succ (total : ℕ → V) (p t : ℕ) : scanned total (p + 1) t =
    scanned total p t + if t ≥ 2 ^ p then scanned total p (t - 2 ^ p) else 0 := by
  unfold scanned
  have hpow : 2 ^ (p + 1) = 2 ^ p + 2 ^ p := by rw [pow_succ, Nat.mul_two]
  have hpos : 0 < 2 ^ p := Nat.two_pow_pos p
  split_ifs with ht
  · have hmid : t - 2 ^ p + 1 = t + 1 - 2 ^ p := by omega
    have hlow : t - 2 ^ p + 1 - 2 ^ p = t + 1 - 2 ^ (p + 1) := by omega
    rw [hlow, hmid]
    exact ((add_comm _ _).trans (sum_Ico_consecutive _ (by omega) (by omega))).symm
  · have hlow : t + 1 - 2 ^ (p + 1) = t + 1 - 2 ^ p := by omega
    rw [hlow, add_zero]

theorem scan_spec (Q : (ℕ → V) → Prop) (total : ℕ → V) :
    Triple tgSize (fun m => Q m.tile ∧ ∀ t < tgSize, m.segA t = total t)
      (strides.flatMap scanPass)
      fun m => Q m.tile ∧ ∀ t < tgSize, m.segA t = ∑ u ∈ range (t + 1), total u := by
  have hpass : ∀ p, Triple tgSize (fun m => Q m.tile ∧ ∀ t < tgSize, m.segA t = scanned total p t)
      (scanPass (2 ^ p)) fun m => Q m.tile ∧ ∀ t < tgSize, m.segA t = scanned total (p + 1) t := by
    intro p
    have h := scanPass_spec (2 ^ p) Q (scanned total p)
    simpa only [← scanned_succ] using h
  have hloop := Triple.loop (fun p m => Q m.tile ∧ ∀ t < tgSize, m.segA t = scanned total p t)
    (fun p => scanPass (2 ^ p)) 0 8 fun p _ _ => hpass p
  intro turns m hcomplete ⟨hQ, hm⟩
  obtain ⟨hQ', hm'⟩ := hloop turns m hcomplete
    ⟨hQ, fun t ht => by rw [hm t ht]; simp [scanned]⟩
  refine ⟨hQ', fun t ht => ?_⟩
  have hlow : t + 1 - 2 ^ (0 + 8) = 0 := by
    unfold tgSize at ht
    omega
  have h := hm' t ht
  unfold scanned at h
  rwa [hlow, ← range_eq_Ico] at h

/-! The offsets. -/

theorem readOffset_spec (Q : (ℕ → V) → Prop) (total : ℕ → V) :
    Triple tgSize (fun m => Q m.tile ∧ ∀ t < tgSize, m.segA t = ∑ u ∈ range (t + 1), total u)
      [readOffset] fun m => Q m.tile ∧ ∀ t < tgSize, m.reg t = ∑ u ∈ range t, total u := by
  refine Triple.single fun m turns hcomplete ⟨hQ, hm⟩ => ⟨?_, fun t ht => ?_⟩
  · have htile : (runPhase tgSize readOffset m turns).tile = m.tile :=
      runPhase_frame (fun m : TgMem V => m.tile)
        (fun t _ op hop m => by rw [List.mem_singleton.1 hop]; rfl) m turns
    rwa [htile]
  · have hview := runPhase_view (fun m : TgMem V => (m.reg t, m.segA)) (m := m) hcomplete ht
      (fun m m' hm op hop => ?_) fun u hu hne op hop m => ?_
    · have hreg := congrArg Prod.fst hview
      simp only [readOffset, List.foldl_cons, List.foldl_nil, TgMem.setReg,
        Function.update_self] at hreg
      rw [hreg]
      split_ifs with h0
      · rw [h0, range_zero, sum_empty]
      · rw [hm (t - 1) (by omega), Nat.sub_add_cancel (by omega)]
    · rw [List.mem_singleton.1 hop]
      have hsegA : m.segA = m'.segA := congrArg Prod.snd hm
      simp only [TgMem.setReg, Function.update_self, hsegA]
    · rw [List.mem_singleton.1 hop]
      simp only [TgMem.setReg, Function.update_of_ne (Ne.symm hne)]

theorem tile_phaseC {m : TgMem V} {turns : List ℕ}
    (hcomplete : Complete (ofGroup tgSize a.phaseC) tgSize turns) {j : ℕ} (hj : j < a.loadCount) :
    (runPhase tgSize a.phaseC m turns).tile j = m.tile j + m.reg (j / a.seg) := by
  have hown := And.intro (a.segStart_le j) (a.lt_segEnd hj)
  have hstart : a.segStart (j / a.seg) < a.loadCount := hown.1.trans_lt hj
  have hview := runPhase_view (fun m : TgMem V => (m.tile j, m.reg)) (m := m) hcomplete
    (a.owner_lt hj) (fun m m' hm op hop => ?_) fun u hu hne op hop m => ?_
  · have htile := congrArg Prod.fst hview
    simp only at htile
    have hnodup : (indices (a.segStart (j / a.seg)) (a.segEnd (j / a.seg))).Nodup :=
      List.nodup_range'
    rw [htile, phaseC, if_pos hstart, foldl_offset _ _ hnodup]
    simp only [mem_indices, if_pos hown]
  · unfold phaseC at hop
    rw [if_pos hstart] at hop
    obtain ⟨i, -, rfl⟩ := List.mem_map.1 hop
    have htile : m.tile j = m'.tile j := congrArg Prod.fst hm
    have hreg : m.reg = m'.reg := congrArg Prod.snd hm
    by_cases hi : j = i
    · subst hi
      simp only [TgMem.setTile, Function.update_self, htile, hreg]
    · simp only [TgMem.setTile, Function.update_of_ne hi, htile, hreg]
  · unfold phaseC at hop
    split_ifs at hop with hlt
    · obtain ⟨i, hi, rfl⟩ := List.mem_map.1 hop
      have hij : j ≠ i := fun h => a.seg_disjoint hne hown (h ▸ mem_indices.1 hi)
      simp only [TgMem.setTile, Function.update_of_ne hij]
    · cases hop

/-- The segments up to one that is not empty cover what is before it. -/
theorem sum_segTotal (x : ℕ → V) (t : ℕ) (ht : a.segStart t ≤ a.loadCount) :
    ∑ u ∈ range t, a.segTotal x u = ∑ k ∈ range (a.segStart t), x k := by
  induction t with
  | zero => simp [segStart]
  | succ t ih =>
    have hnext : a.segStart (t + 1) = a.segStart t + a.seg := Nat.succ_mul t a.seg
    have hend : a.segEnd t = a.segStart (t + 1) := by
      unfold segEnd
      omega
    rw [sum_range_succ, ih (by omega), segTotal, hend, range_eq_Ico, range_eq_Ico,
      sum_Ico_consecutive _ (Nat.zero_le _) (by omega)]

theorem phaseC_spec (x : ℕ → V) : Triple tgSize
    (fun m => a.LocalSums x m.tile ∧ ∀ t < tgSize, m.reg t = ∑ u ∈ range t, a.segTotal x u)
    [a.phaseC] fun m => ∀ j < a.loadCount, m.tile j = ∑ k ∈ range (j + 1), x k := by
  refine Triple.single fun m turns hcomplete ⟨hlocal, hreg⟩ j hj => ?_
  have hle := a.segStart_le j
  rw [a.tile_phaseC hcomplete hj, hlocal j hj, hreg _ (a.owner_lt hj),
    a.sum_segTotal x _ (by omega), add_comm, range_eq_Ico, range_eq_Ico,
    sum_Ico_consecutive _ (Nat.zero_le _) (by omega)]

/-- The sum kernel leaves the prefix sums of the slots in the tile. -/
theorem sumPhases_spec (tgid : ℕ) : Triple tgSize (fun _ => True) (a.sumPhases tgid)
    fun m => ∀ j < a.loadCount, m.tile j = ∑ k ∈ range (j + 1), a.slot tgid k := by
  have hload : Triple tgSize (fun _ => True) [a.load tgid]
      fun m => ∀ j < a.loadCount, m.tile j = a.slot tgid j :=
    Triple.single fun m turns hcomplete _ j hj => a.tile_load hcomplete hj
  have hscan := scan_spec (a.LocalSums (a.slot tgid)) (a.segTotal (a.slot tgid))
  have hoffset := readOffset_spec (a.LocalSums (a.slot tgid)) (a.segTotal (a.slot tgid))
  exact ((hload.append (a.phaseA_spec _)).append hscan).append
    (hoffset.append (a.phaseC_spec _))

end Args

end PolarsMetal.Rolling
