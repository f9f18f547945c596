import PolarsMetal.GroupBy.CpuAggregates
import PolarsMetal.Lib.ExactSum
import PolarsMetal.Lib.Ieee

/-! The double-precision aggregates, computed on the CPU. A minimum or a maximum is poisoned by a NaN
among its group's values; a sum is brought together along the division of the rows, in row order. -/

namespace PolarsMetal.GroupBy.CpuPath
open Bitmap ExactSum Ieee ParFold Reads Reduce

/-- The value of a bit pattern, `none` for NaN. -/
def double (bits : BitVec 64) : Option Extended := f64.value bits.toNat

def isNan (bits : BitVec 64) : Bool := (double bits).isNone

/-- `f64::NAN` -/
def f64Nan : BitVec 64 := 0x7FF8000000000000
def f64Infinity : BitVec 64 := 0x7FF0000000000000
def f64NegInfinity : BitVec 64 := 0xFFF0000000000000

section Source

variable (values : List (BitVec 64)) (valid : List UInt8) (rowToGroup : List ℕ) (nGroups : ℕ)

/-- The cell update and the merge of two cells: once NaN, stay NaN. -/
def poison (beats : BitVec 64 → BitVec 64 → Bool) (old v : BitVec 64) : BitVec 64 :=
  if isNan v || isNan old then f64Nan else if beats v old then v else old

def extremumF64Fold (beats : BitVec 64 → BitVec 64 → Bool) (acc : List (BitVec 64) × List Bool)
    (i : ℕ) : List (BitVec 64) × List Bool :=
  if bitAt valid i = 0 then acc
  else
    let g := rowToGroup.getD i 0
    if g < nGroups then
      (acc.1.modify g (fun old => poison beats old (values.getD i 0)), acc.2.set g true)
    else acc

def extremumF64Merge (beats : BitVec 64 → BitVec 64 → Bool) (a b : List (BitVec 64) × List Bool) :
    List (BitVec 64) × List Bool :=
  (List.zipWith (poison beats) a.1 b.1, List.zipWith or a.2 b.2)

def aggregateExtremumF64Cpu (seed : BitVec 64) (beats : BitVec 64 → BitVec 64 → Bool)
    (split : Split) : List (BitVec 64) × List Bool :=
  let n := min values.length rowToGroup.length
  foldReduce (List.replicate nGroups seed, List.replicate nGroups false)
    (extremumF64Fold values valid rowToGroup nGroups beats) (extremumF64Merge beats) split
    (List.range n)

def aggregateMinF64Cpu : Split → List (BitVec 64) × List Bool :=
  aggregateExtremumF64Cpu values valid rowToGroup nGroups f64Infinity
    (fun v old => Comparison.lt.ieee (double v) (double old))

def aggregateMaxF64Cpu : Split → List (BitVec 64) × List Bool :=
  aggregateExtremumF64Cpu values valid rowToGroup nGroups f64NegInfinity
    (fun v old => Comparison.gt.ieee (double v) (double old))

def sumF64Fold (add : BitVec 64 → BitVec 64 → BitVec 64) (acc : List (BitVec 64)) (i : ℕ) :
    List (BitVec 64) :=
  if bitAt valid i = 0 then acc
  else
    let g := rowToGroup.getD i 0
    if g < nGroups then acc.modify g (fun old => add old (values.getD i 0)) else acc

def aggregateSumF64Cpu (add : BitVec 64 → BitVec 64 → BitVec 64) (split : Split) :
    List (BitVec 64) :=
  let n := min values.length rowToGroup.length
  foldReduce (List.replicate nGroups 0) (sumF64Fold values valid rowToGroup nGroups add)
    (List.zipWith add) split (List.range n)

end Source

/-! A group's values among some rows. -/

section Proofs

variable {values : List (BitVec 64)} {valid : List UInt8} {rowToGroup : List ℕ} {nGroups : ℕ}

def valuesAmong (values : List (BitVec 64)) (valid : List UInt8) (rowToGroup : List ℕ)
    (rows : List ℕ) (g : ℕ) : List (BitVec 64) :=
  (rows.filter fun row => bitAt valid row ≠ 0 ∧ rowToGroup.getD row 0 = g).map (values.getD · 0)

theorem valuesAmong_append (rows rows' : List ℕ) (g : ℕ) :
    valuesAmong values valid rowToGroup (rows ++ rows') g =
      valuesAmong values valid rowToGroup rows g ++ valuesAmong values valid rowToGroup rows' g := by
  unfold valuesAmong
  rw [List.filter_append, List.map_append]

theorem valuesAmong_single (row g : ℕ) : valuesAmong values valid rowToGroup [row] g =
    if bitAt valid row ≠ 0 ∧ rowToGroup.getD row 0 = g then [values.getD row 0] else [] := by
  unfold valuesAmong
  by_cases h : bitAt valid row ≠ 0 ∧ rowToGroup.getD row 0 = g
  · rw [if_pos h, List.filter_cons_of_pos (by simpa using h)]
    rfl
  · rw [if_neg h, List.filter_cons_of_neg (by simpa using h)]
    rfl

theorem groupValues_eq_among (g : ℕ) : groupValues values valid rowToGroup g =
    valuesAmong values valid rowToGroup (List.range (min values.length rowToGroup.length)) g := by
  unfold groupValues validRows groupRows valuesAmong
  rw [List.filter_filter]
  refine congrArg _ (List.filter_congr fun row _ => ?_)
  rw [Bool.decide_and, decide_not, bne, Bool.beq_eq_decide_eq]

/-- Cells that are brought together from the values of their groups. -/
def Cells {α : Type*} (values : List (BitVec 64)) (valid : List UInt8) (rowToGroup : List ℕ)
    (nGroups : ℕ) (holds : List (BitVec 64) → α → Prop) (d : α) (rows : List ℕ) (cells : List α) :
    Prop :=
  cells.length = nGroups ∧
    ∀ g < nGroups, holds (valuesAmong values valid rowToGroup rows g) (cells.getD g d)

section Cell

variable {α : Type*} {holds : List (BitVec 64) → α → Prop} {d : α}

theorem cells_seed {seed : α} (h : holds [] seed) :
    Cells values valid rowToGroup nGroups holds d [] (List.replicate nGroups seed) := by
  refine ⟨List.length_replicate, fun g hg => ?_⟩
  rw [getD_of_lt _ (by rwa [List.length_replicate]), List.getElem_replicate]
  exact h

/-- A row enters the cell of its group, or none. -/
theorem cells_row (update : BitVec 64 → α → α)
    (h : ∀ xs a v, holds xs a → holds (xs ++ [v]) (update v a)) {rows : List ℕ} {cells : List α}
    (hcells : Cells values valid rowToGroup nGroups holds d rows cells) (row : ℕ) :
    Cells values valid rowToGroup nGroups holds d (rows ++ [row])
      (if bitAt valid row = 0 then cells
        else if rowToGroup.getD row 0 < nGroups then
          cells.modify (rowToGroup.getD row 0) (update (values.getD row 0))
        else cells) := by
  obtain ⟨hlen, hholds⟩ := hcells
  refine ⟨by split_ifs <;> simp [hlen], fun g hg => ?_⟩
  rw [valuesAmong_append, valuesAmong_single]
  by_cases hvalid : bitAt valid row = 0
  · rw [if_pos hvalid, if_neg fun h => h.1 hvalid, List.append_nil]
    exact hholds g hg
  rw [if_neg hvalid]
  by_cases hgroup : rowToGroup.getD row 0 = g
  · rw [if_pos (show rowToGroup.getD row 0 < nGroups by omega), if_pos ⟨hvalid, hgroup⟩,
      getD_modify _ _ _ (by omega), if_pos hgroup]
    exact h _ _ _ (hholds g hg)
  · rw [if_neg fun h => hgroup h.2, List.append_nil]
    split_ifs with hlt
    · rw [getD_modify _ _ _ (by omega), if_neg hgroup]
      exact hholds g hg
    · exact hholds g hg

theorem cells_merge {merge : α → α → α}
    (h : ∀ xs ys a b, holds xs a → holds ys b → holds (xs ++ ys) (merge a b)) {rows rows' : List ℕ}
    {cells cells' : List α} (hcells : Cells values valid rowToGroup nGroups holds d rows cells)
    (hcells' : Cells values valid rowToGroup nGroups holds d rows' cells') :
    Cells values valid rowToGroup nGroups holds d (rows ++ rows') (List.zipWith merge cells cells') := by
  obtain ⟨hlen, hholds⟩ := hcells
  obtain ⟨hlen', hholds'⟩ := hcells'
  refine ⟨by rw [List.length_zipWith, hlen, hlen', min_self], fun g hg => ?_⟩
  have hleft : g < cells.length := by omega
  have hright : g < cells'.length := by omega
  have hcell := hholds g hg
  have hcell' := hholds' g hg
  rw [getD_of_lt _ hleft] at hcell
  rw [getD_of_lt _ hright] at hcell'
  rw [valuesAmong_append, getD_of_lt _ (by rw [List.length_zipWith]; omega), List.getElem_zipWith]
  exact h _ _ _ _ hcell hcell'

end Cell

/-! A minimum or a maximum. -/

section Extremum

variable {K : Type*} [LinearOrder K] [OrderTop K] {key : BitVec 64 → Option K}

/-- The first of the values in an order; NaN, once there is one. -/
structure IsPoisoned (key : BitVec 64 → Option K) (xs : List (BitVec 64)) (out : BitVec 64) : Prop where
  nan : (∃ v ∈ xs, key v = none) → key out = none
  bound : (∀ v ∈ xs, (key v).isSome) →
    ∃ x, key out = some x ∧ IsGLB {x | ∃ v ∈ xs, key v = some x} x

omit [OrderTop K] in
theorem isGLB_values_append {xs ys : List (BitVec 64)} {x y : K}
    (hx : IsGLB {x | ∃ v ∈ xs, key v = some x} x) (hy : IsGLB {x | ∃ v ∈ ys, key v = some x} y) :
    IsGLB {x | ∃ v ∈ xs ++ ys, key v = some x} (x ⊓ y) := by
  have hunion : {x | ∃ v ∈ xs ++ ys, key v = some x} =
      {x | ∃ v ∈ xs, key v = some x} ∪ {x | ∃ v ∈ ys, key v = some x} := by
    ext z
    simp only [List.mem_append, Set.mem_ofPred_eq, Set.mem_union, or_and_right, exists_or]
  rw [hunion]
  exact hx.union hy

theorem isPoisoned_nil {seed : BitVec 64} (h : key seed = some ⊤) : IsPoisoned key [] seed := by
  refine ⟨fun hnan => ?_, fun _ => ⟨⊤, h, ?_⟩⟩
  · obtain ⟨v, hv, -⟩ := hnan
    exact absurd hv List.not_mem_nil
  · have hempty : {x | ∃ v ∈ ([] : List (BitVec 64)), key v = some x} = ∅ :=
      Set.eq_empty_of_forall_notMem fun x hx => by
        obtain ⟨v, hv, -⟩ := hx
        exact List.not_mem_nil hv
    rw [hempty]
    exact isGLB_empty

omit [OrderTop K] in
theorem isPoisoned_single (v : BitVec 64) : IsPoisoned key [v] v := by
  refine ⟨fun hnan => ?_, fun hkeys => ?_⟩
  · obtain ⟨w, hw, hnone⟩ := hnan
    rwa [← List.mem_singleton.1 hw]
  · obtain ⟨x, hx⟩ := Option.isSome_iff_exists.1 (hkeys v (List.mem_singleton.2 rfl))
    refine ⟨x, hx, ?_⟩
    have hone : {x | ∃ w ∈ [v], key w = some x} = {x} := by
      ext z
      simp [hx, eq_comm]
    rw [hone]
    exact isGLB_singleton

omit [OrderTop K] in
theorem IsPoisoned.poison {beats : BitVec 64 → BitVec 64 → Bool}
    (hnan : ∀ v, isNan v = true ↔ key v = none) (hquiet : key f64Nan = none)
    (hbeats : ∀ v old x y, key v = some x → key old = some y → (beats v old = true ↔ x < y))
    {xs ys : List (BitVec 64)} {a b : BitVec 64} (ha : IsPoisoned key xs a) (hb : IsPoisoned key ys b) :
    IsPoisoned key (xs ++ ys) (poison beats a b) := by
  unfold CpuPath.poison
  by_cases hsome : key a = none ∨ key b = none
  · have hcond : (isNan b || isNan a) = true := by
      rw [Bool.or_eq_true, hnan, hnan]
      exact hsome.symm
    rw [if_pos hcond]
    refine ⟨fun _ => hquiet, fun hkeys => ?_⟩
    -- a NaN comes from one of the values
    obtain ⟨hxs, hys⟩ := List.forall_mem_append.1 hkeys
    obtain ⟨x, hx, -⟩ := ha.bound hxs
    obtain ⟨y, hy, -⟩ := hb.bound hys
    rcases hsome with h | h
    · rw [h] at hx
      cases hx
    · rw [h] at hy
      cases hy
  · have hcond : ¬ (isNan b || isNan a) = true := by
      rw [Bool.or_eq_true, hnan, hnan]
      exact fun h => hsome h.symm
    rw [if_neg hcond]
    obtain ⟨hx, hy⟩ := not_or.1 hsome
    obtain ⟨x, hx⟩ := Option.ne_none_iff_exists'.1 hx
    obtain ⟨y, hy⟩ := Option.ne_none_iff_exists'.1 hy
    have hkey : key (if beats b a then b else a) = some (x ⊓ y) := by
      by_cases hlt : beats b a = true
      · rw [if_pos hlt, hy, inf_eq_right.2 ((hbeats b a y x hy hx).1 hlt).le]
      · rw [if_neg hlt, hx, inf_eq_left.2 (not_lt.1 fun h => hlt ((hbeats b a y x hy hx).2 h))]
    refine ⟨fun hnone => ?_, fun hkeys => ⟨x ⊓ y, hkey, ?_⟩⟩
    · obtain ⟨v, hv, hvnone⟩ := hnone
      rcases List.mem_append.1 hv with hv | hv
      · have hnone := ha.nan ⟨v, hv, hvnone⟩
        rw [hnone] at hx
        cases hx
      · have hnone := hb.nan ⟨v, hv, hvnone⟩
        rw [hnone] at hy
        cases hy
    · obtain ⟨hxs, hys⟩ := List.forall_mem_append.1 hkeys
      obtain ⟨x', hx', hxglb⟩ := ha.bound hxs
      obtain ⟨y', hy', hyglb⟩ := hb.bound hys
      obtain rfl := Option.some.inj (hx.symm.trans hx')
      obtain rfl := Option.some.inj (hy.symm.trans hy')
      exact isGLB_values_append hxglb hyglb

/-- A whole minimum or maximum, and its flags. -/
theorem aggregateExtremumF64Cpu_cells {seed : BitVec 64} {beats : BitVec 64 → BitVec 64 → Bool}
    (hseed : key seed = some ⊤) (hnan : ∀ v, isNan v = true ↔ key v = none)
    (hquiet : key f64Nan = none)
    (hbeats : ∀ v old x y, key v = some x → key old = some y → (beats v old = true ↔ x < y))
    (split : Split) :
    Cells values valid rowToGroup nGroups (IsPoisoned key) 0
        (List.range (min values.length rowToGroup.length))
        (aggregateExtremumF64Cpu values valid rowToGroup nGroups seed beats split).1 ∧
      Cells values valid rowToGroup nGroups (fun xs flag => flag = true ↔ xs ≠ []) false
        (List.range (min values.length rowToGroup.length))
        (aggregateExtremumF64Cpu values valid rowToGroup nGroups seed beats split).2 := by
  refine foldReduce_induct (P := fun rows (acc : List (BitVec 64) × List Bool) =>
    Cells values valid rowToGroup nGroups (IsPoisoned key) 0 rows acc.1 ∧
      Cells values valid rowToGroup nGroups (fun xs flag => flag = true ↔ xs ≠ []) false rows acc.2)
    ⟨cells_seed (isPoisoned_nil hseed), cells_seed ⟨fun h => (Bool.false_ne_true h).elim, fun h => absurd rfl h⟩⟩
    (fun rows acc row h => ?_)
    (fun rows rows' acc acc' h h' => ?_) split _
  · have hvalue := cells_row (fun v old => poison beats old v)
      (fun xs a v hx => hx.poison hnan hquiet hbeats (isPoisoned_single v)) h.1 row
    have hflag := cells_row (fun _ _ => true) (fun xs a v _ => by simp) h.2 row
    unfold extremumF64Fold
    dsimp only
    split_ifs at hvalue hflag ⊢ with hvalid hlt
    · exact ⟨hvalue, hflag⟩
    · refine ⟨hvalue, ?_⟩
      rwa [List.set_eq_modify]
    · exact ⟨hvalue, hflag⟩
  · refine ⟨cells_merge (fun xs ys a b hx hy => hx.poison hnan hquiet hbeats hy) h.1 h'.1,
      cells_merge (fun xs ys a b hx hy => ?_) h.2 h'.2⟩
    rw [Bool.or_eq_true, hx, hy, Ne, Ne, Ne, List.append_eq_nil_iff, not_and_or]

end Extremum

/-! A sum. -/

theorem aggregateSumF64Cpu_cells {add : BitVec 64 → BitVec 64 → BitVec 64}
    {num : BitVec 64 → Option ℤ} {bound : ℤ} (hadd : AddsUpTo add num bound) (hzero : num 0 = some 0)
    (split : Split) :
    Cells values valid rowToGroup nGroups (IsExact num bound) 0
      (List.range (min values.length rowToGroup.length))
      (aggregateSumF64Cpu values valid rowToGroup nGroups add split) := by
  refine foldReduce_induct (P := Cells values valid rowToGroup nGroups (IsExact num bound) 0)
    (cells_seed (isExact_nil hzero)) (fun rows acc row h => ?_)
    (fun rows rows' acc acc' h h' => cells_merge (fun xs ys a b hx hy => hx.add hadd hy) h h') split _
  exact cells_row (fun v old => add old v)
    (fun xs a v hx => hx.add hadd (isExact_single v)) h row

theorem length_aggregateSumF64Cpu (add : BitVec 64 → BitVec 64 → BitVec 64) (split : Split) :
    (aggregateSumF64Cpu values valid rowToGroup nGroups add split).length = nGroups := by
  refine foldReduce_induct (P := fun _ (cells : List (BitVec 64)) => cells.length = nGroups)
    List.length_replicate
    (fun rows acc row h => ?_) (fun rows rows' acc acc' h h' => ?_) split _
  · unfold sumF64Fold
    dsimp only
    split_ifs
    · exact h
    · exact (List.length_modify ..).trans h
    · exact h
  · rw [List.length_zipWith, h, h', min_self]

theorem double_infinity : double f64Infinity = some ⊤ := by decide +kernel

theorem double_negInfinity : double f64NegInfinity = some ⊥ := by decide +kernel

theorem double_nan : double f64Nan = none := by decide +kernel

theorem ieee_lt_iff {v old : BitVec 64} {x y : Extended} (hx : double v = some x)
    (hy : double old = some y) : Comparison.lt.ieee (double v) (double old) = true ↔ x < y := by
  rw [hx, hy]
  exact decide_eq_true_iff

theorem ieee_gt_iff {v old : BitVec 64} {x y : Extended} (hx : double v = some x)
    (hy : double old = some y) : Comparison.gt.ieee (double v) (double old) = true ↔ y < x := by
  rw [hx, hy]
  exact decide_eq_true_iff

theorem isNan_iff (v : BitVec 64) : isNan v = true ↔ double v = none := Option.isNone_iff_eq_none

end Proofs

/-- However the rows are divided, a minimum is NaN when one of its group's values is, and their
greatest lower bound otherwise, a maximum their least upper bound, with a flag for the groups that have
a value; and a sum of integers is exact, as far as the additions are. -/
theorem cpuFloats_exact (values : List (BitVec 64)) (valid : List UInt8) (rowToGroup : List ℕ)
    (nGroups : ℕ) {add : BitVec 64 → BitVec 64 → BitVec 64} {num : BitVec 64 → Option ℤ} {bound : ℤ}
    (hadd : AddsUpTo add num bound) (hzero : num 0 = some 0) (split : Split) :
    ∀ g < nGroups,
      (((aggregateMinF64Cpu values valid rowToGroup nGroups split).2.getD g false = true ↔
          groupValues values valid rowToGroup g ≠ []) ∧
        ((∃ v ∈ groupValues values valid rowToGroup g, double v = none) →
          double ((aggregateMinF64Cpu values valid rowToGroup nGroups split).1.getD g 0) = none) ∧
        ((∀ v ∈ groupValues values valid rowToGroup g, (double v).isSome) →
          ∃ x, double ((aggregateMinF64Cpu values valid rowToGroup nGroups split).1.getD g 0) = some x ∧
            IsGLB {x | ∃ v ∈ groupValues values valid rowToGroup g, double v = some x} x)) ∧
      (((aggregateMaxF64Cpu values valid rowToGroup nGroups split).2.getD g false = true ↔
          groupValues values valid rowToGroup g ≠ []) ∧
        ((∃ v ∈ groupValues values valid rowToGroup g, double v = none) →
          double ((aggregateMaxF64Cpu values valid rowToGroup nGroups split).1.getD g 0) = none) ∧
        ((∀ v ∈ groupValues values valid rowToGroup g, (double v).isSome) →
          ∃ x, double ((aggregateMaxF64Cpu values valid rowToGroup nGroups split).1.getD g 0) = some x ∧
            IsLUB {x | ∃ v ∈ groupValues values valid rowToGroup g, double v = some x} x)) ∧
      ((∀ v ∈ groupValues values valid rowToGroup g, (num v).isSome) →
        ((integers num (groupValues values valid rowToGroup g)).map abs).sum ≤ bound →
        num ((aggregateSumF64Cpu values valid rowToGroup nGroups add split).getD g 0) =
          some (integers num (groupValues values valid rowToGroup g)).sum) := by
  intro g hg
  rw [groupValues_eq_among]
  have hmin := @aggregateExtremumF64Cpu_cells values valid rowToGroup nGroups Extended _ _ double
    f64Infinity _ double_infinity isNan_iff double_nan (fun _ _ _ _ => ieee_lt_iff) split
  have hmax := @aggregateExtremumF64Cpu_cells values valid rowToGroup nGroups Extendedᵒᵈ _ _ double
    f64NegInfinity _ double_negInfinity isNan_iff double_nan (fun _ _ _ _ => ieee_gt_iff) split
  have hsum := @aggregateSumF64Cpu_cells values valid rowToGroup nGroups add num bound hadd hzero split
  exact ⟨⟨hmin.2.2 g hg, (hmin.1.2 g hg).nan, (hmin.1.2 g hg).bound⟩,
    ⟨hmax.2.2 g hg, (hmax.1.2 g hg).nan, (hmax.1.2 g hg).bound⟩, hsum.2 g hg⟩

/-- The words of 0, 1 and 2. -/
def smallDouble (w : BitVec 64) : Option ℤ :=
  if w = 0 then some 0
  else if w = 0x3FF0000000000000 then some 1
  else if w = 0x4000000000000000 then some 2
  else none

/-- Sums of those words, as long as they are among them. -/
def smallAdd (a b : BitVec 64) : BitVec 64 :=
  if a = 0 then b
  else if b = 0 then a
  else if a = 0x3FF0000000000000 ∧ b = 0x3FF0000000000000 then 0x4000000000000000
  else f64Nan

theorem smallDouble_eq {w : BitVec 64} {x : ℤ} (h : smallDouble w = some x) :
    w = 0 ∧ x = 0 ∨ w = 0x3FF0000000000000 ∧ x = 1 ∨ w = 0x4000000000000000 ∧ x = 2 := by
  unfold smallDouble at h
  split_ifs at h with h0 h1 h2
  · exact .inl ⟨h0, (Option.some.inj h).symm⟩
  · exact .inr (.inl ⟨h1, (Option.some.inj h).symm⟩)
  · exact .inr (.inr ⟨h2, (Option.some.inj h).symm⟩)

theorem smallAdd_adds : AddsUpTo smallAdd smallDouble 2 where
  add ha hb hbound := by
    rcases smallDouble_eq ha with ⟨rfl, rfl⟩ | ⟨rfl, rfl⟩ | ⟨rfl, rfl⟩ <;>
      rcases smallDouble_eq hb with ⟨rfl, rfl⟩ | ⟨rfl, rfl⟩ | ⟨rfl, rfl⟩ <;>
      first
        | exact absurd hbound (by decide)
        | rfl

/-- 1 and NaN in the first group, 1 and a null in the second. -/
def nanValues : List (BitVec 64) :=
  [0x3FF0000000000000, 0x3FF0000000000000, f64Nan, 0x4000000000000000]

theorem cpuFloats_exact_nan :
    double ((aggregateMinF64Cpu nanValues [7] [0, 1, 0, 1] 2 (.node 2 .leaf .leaf)).1.getD 0 0) = none ∧
      smallDouble ((aggregateSumF64Cpu nanValues [7] [0, 1, 0, 1] 2 smallAdd
        (.node 2 .leaf .leaf)).getD 1 0) = some 1 := by
  have hfirst : groupValues nanValues [7] [0, 1, 0, 1] 0 = [0x3FF0000000000000, f64Nan] := by
    decide +kernel
  have hsecond : groupValues nanValues [7] [0, 1, 0, 1] 1 = [0x3FF0000000000000] := by decide +kernel
  have hall := cpuFloats_exact nanValues [7] [0, 1, 0, 1] 2 smallAdd_adds rfl (.node 2 .leaf .leaf)
  have hmin := (hall 0 (by decide)).1.2.1
  have hsum := (hall 1 (by decide)).2.2
  rw [hfirst] at hmin
  rw [hsecond] at hsum
  have hone : (integers smallDouble [0x3FF0000000000000]).sum = 1 := by decide +kernel
  rw [hone] at hsum
  exact ⟨hmin ⟨f64Nan, List.mem_pair.2 (.inr rfl), double_nan⟩,
    hsum (List.forall_mem_singleton.2 (by decide)) (by decide +kernel)⟩

end PolarsMetal.GroupBy.CpuPath
