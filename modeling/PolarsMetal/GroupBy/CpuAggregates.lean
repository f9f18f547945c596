import PolarsMetal.GroupBy.AggPaths
import PolarsMetal.Lib.ParFold
import PolarsMetal.Lib.Wrapping

/-! The 64-bit aggregates, computed on the CPU. Every worker folds its rows into its own vector of
groups, started from the aggregate's seed, and the vectors are merged pairwise; how the rows are
divided is the scheduler's choice. -/

namespace PolarsMetal.GroupBy.CpuPath
open Bitmap ParFold Reads Reduce

def i64Max : BitVec 64 := BitVec.intMax 64
def i64Min : BitVec 64 := BitVec.intMin 64

section Source

variable (values : List (BitVec 64)) (valid : List UInt8) (rowToGroup : List ℕ) (nGroups : ℕ)

def sumI64Fold (acc : List (BitVec 64)) (i : ℕ) : List (BitVec 64) :=
  if bitAt valid i = 0 then acc
  else
    let g := rowToGroup.getD i 0
    if g < nGroups then acc.modify g (fun old => old + values.getD i 0) else acc

def aggregateSumI64Cpu (split : Split) : List (BitVec 64) :=
  let n := min values.length rowToGroup.length
  foldReduce (List.replicate nGroups 0) (sumI64Fold values valid rowToGroup nGroups)
    (List.zipWith (fun x y => x + y)) split (List.range n)

/-- `beats v old` when `v` replaces `old`. -/
def extremumI64Fold (beats : BitVec 64 → BitVec 64 → Bool) (acc : List (BitVec 64) × List Bool)
    (i : ℕ) : List (BitVec 64) × List Bool :=
  if bitAt valid i = 0 then acc
  else
    let g := rowToGroup.getD i 0
    if g < nGroups then
      let v := values.getD i 0
      (acc.1.modify g (fun old => if beats v old then v else old), acc.2.set g true)
    else acc

def extremumI64Merge (beats : BitVec 64 → BitVec 64 → Bool) (a b : List (BitVec 64) × List Bool) :
    List (BitVec 64) × List Bool :=
  (List.zipWith (fun x y => if beats y x then y else x) a.1 b.1, List.zipWith or a.2 b.2)

def aggregateExtremumI64Cpu (seed : BitVec 64) (beats : BitVec 64 → BitVec 64 → Bool)
    (split : Split) : List (BitVec 64) × List Bool :=
  let n := min values.length rowToGroup.length
  foldReduce (List.replicate nGroups seed, List.replicate nGroups false)
    (extremumI64Fold values valid rowToGroup nGroups beats) (extremumI64Merge beats) split
    (List.range n)

def aggregateMinI64Cpu : Split → List (BitVec 64) × List Bool :=
  aggregateExtremumI64Cpu values valid rowToGroup nGroups i64Max (fun v old => v.slt old)

def aggregateMaxI64Cpu : Split → List (BitVec 64) × List Bool :=
  aggregateExtremumI64Cpu values valid rowToGroup nGroups i64Min (fun v old => old.slt v)

def countFold (acc : List (BitVec 64)) (i : ℕ) : List (BitVec 64) :=
  if bitAt valid i = 0 then acc
  else
    let g := rowToGroup.getD i 0
    if g < nGroups then acc.modify g (fun old => old + 1) else acc

def aggregateCountCpu (split : Split) : List (BitVec 64) :=
  foldReduce (List.replicate nGroups 0) (countFold valid rowToGroup nGroups)
    (List.zipWith (fun x y => x + y)) split (List.range rowToGroup.length)

def lenFold (acc : List (BitVec 64)) (g : ℕ) : List (BitVec 64) :=
  if g < nGroups then acc.modify g (fun old => old + 1) else acc

def aggregateLenCpu (split : Split) : List (BitVec 64) :=
  foldReduce (List.replicate nGroups 0) (lenFold nGroups)
    (List.zipWith (fun x y => x + y)) split rowToGroup

end Source

/-! What the groups hold. -/

section Groups

variable (values : List (BitVec 64)) (valid : List UInt8) (rowToGroup : List ℕ)

/-- A group's valid values, in row order. -/
def groupValues (g : ℕ) : List (BitVec 64) :=
  (validRows rowToGroup (min values.length rowToGroup.length) valid g).map
    (fun row => values.getD row 0)

/-- Each group's cell is its best valid value, flagged when it has one. -/
structure ExtremaOf (notWorse : BitVec 64 → BitVec 64 → Prop) (nGroups : ℕ)
    (out : List (BitVec 64) × List Bool) : Prop where
  lengths : out.1.length = nGroups ∧ out.2.length = nGroups
  flag : ∀ g < nGroups, out.2.getD g false = true ↔ groupValues values valid rowToGroup g ≠ []
  attained : ∀ g < nGroups, groupValues values valid rowToGroup g ≠ [] →
    out.1.getD g 0 ∈ groupValues values valid rowToGroup g
  best : ∀ g < nGroups, ∀ v ∈ groupValues values valid rowToGroup g, notWorse (out.1.getD g 0) v

end Groups

section Proofs

variable {values : List (BitVec 64)} {valid : List UInt8} {rowToGroup : List ℕ} {nGroups : ℕ}

/-- The update a row makes to its group, if it is valid and its group exists. -/
def rowUpdate {α : Type*} (valid : List UInt8) (rowToGroup : List ℕ) (nGroups : ℕ) (cell : ℕ → α)
    (i : ℕ) : Option (ℕ × α) :=
  if bitAt valid i = 0 then none
  else if rowToGroup.getD i 0 < nGroups then some (rowToGroup.getD i 0, cell i) else none

theorem valuesAt_rowUpdate {α : Type*} (cell : ℕ → α) (n : ℕ) {g : ℕ} (hg : g < nGroups) :
    valuesAt g ((List.range n).filterMap (rowUpdate valid rowToGroup nGroups cell)) =
      (validRows rowToGroup n valid g).map cell := by
  unfold validRows groupRows
  induction List.range n with
  | nil => rfl
  | cons i rows ih =>
    rw [List.filterMap_cons, rowUpdate, List.filter_cons]
    by_cases hbit : bitAt valid i = 0
    · rw [if_pos hbit, ih]
      split_ifs <;> simp [hbit]
    · rw [if_neg hbit]
      by_cases hrow : rowToGroup.getD i 0 = g
      · simp only [hrow, if_pos hg, decide_true, if_true, valuesAt_cons, ih]
        rw [List.filter_cons_of_pos (by simp [hbit]), List.map_cons]
      · rw [if_neg (show ¬ decide (rowToGroup.getD i 0 = g) = true by simpa using hrow), ← ih]
        split_ifs
        · rw [valuesAt_cons, if_neg hrow]
        · rfl

/-! The three folds, as updates of buckets. -/

theorem applyUpdate_rowUpdate {α : Type*} (R : Reduction α) (cell : ℕ → α) (acc : List α) (i : ℕ) :
    applyUpdate R (rowUpdate valid rowToGroup nGroups cell) acc i =
      if bitAt valid i = 0 then acc
      else if rowToGroup.getD i 0 < nGroups then
        acc.modify (rowToGroup.getD i 0) (fun old => R.combine old (cell i))
      else acc := by
  unfold applyUpdate rowUpdate
  split_ifs <;> rfl

theorem sumI64Fold_eq : sumI64Fold values valid rowToGroup nGroups =
    applyUpdate (Wrapping.addReduction 64)
      (rowUpdate valid rowToGroup nGroups (fun i => values.getD i 0)) := by
  funext acc i
  rw [applyUpdate_rowUpdate]
  rfl

theorem countFold_eq : countFold valid rowToGroup nGroups =
    applyUpdate (Wrapping.addReduction 64) (rowUpdate valid rowToGroup nGroups (fun _ => 1)) := by
  funext acc i
  rw [applyUpdate_rowUpdate]
  rfl

theorem lenFold_eq : lenFold nGroups =
    applyUpdate (Wrapping.addReduction 64) (fun g => if g < nGroups then some (g, 1) else none) := by
  funext acc g
  unfold lenFold applyUpdate
  by_cases hg : g < nGroups
  · simp only [if_pos hg]
    rfl
  · simp only [if_neg hg]

theorem aggregateSumI64Cpu_eq (split : Split) :
    aggregateSumI64Cpu values valid rowToGroup nGroups split =
      buckets (Wrapping.addReduction 64) nGroups
        (rowUpdate valid rowToGroup nGroups (fun i => values.getD i 0))
        (List.range (min values.length rowToGroup.length)) := by
  unfold aggregateSumI64Cpu
  rw [sumI64Fold_eq]
  exact foldReduce_buckets (Wrapping.addReduction 64) nGroups _ split _

theorem aggregateCountCpu_eq (split : Split) :
    aggregateCountCpu valid rowToGroup nGroups split =
      buckets (Wrapping.addReduction 64) nGroups (rowUpdate valid rowToGroup nGroups (fun _ => 1))
        (List.range rowToGroup.length) := by
  unfold aggregateCountCpu
  rw [countFold_eq]
  exact foldReduce_buckets (Wrapping.addReduction 64) nGroups _ split _

theorem aggregateLenCpu_eq (split : Split) : aggregateLenCpu rowToGroup nGroups split =
    buckets (Wrapping.addReduction 64) nGroups
      (fun g => if g < nGroups then some (g, 1) else none) rowToGroup := by
  unfold aggregateLenCpu
  rw [lenFold_eq]
  exact foldReduce_buckets (Wrapping.addReduction 64) nGroups _ split _

/-! An extremum and its flag are folded apart. -/

section Extremum

variable {κ : Type*} [LinearOrder κ] {key : BitVec 64 → κ} (hkey : Function.Injective key)
  {seed : BitVec 64} (hseed : ∀ a, key a ≤ key seed) {beats : BitVec 64 → BitVec 64 → Bool}

theorem extremumI64Fold_eq (hbeats : ∀ v old, beats v old = true ↔ key v < key old) :
    extremumI64Fold values valid rowToGroup nGroups beats = fun acc i =>
      (applyUpdate (least key hkey seed hseed)
          (rowUpdate valid rowToGroup nGroups (fun i => values.getD i 0)) acc.1 i,
        applyUpdate anySeen (rowUpdate valid rowToGroup nGroups (fun _ => true)) acc.2 i) := by
  funext acc i
  rw [applyUpdate_rowUpdate, applyUpdate_rowUpdate]
  unfold extremumI64Fold
  by_cases hbit : bitAt valid i = 0
  · simp only [if_pos hbit]
  · by_cases hg : rowToGroup.getD i 0 < nGroups
    · simp only [if_neg hbit, if_pos hg, least, anySeen, hbeats, List.set_eq_modify, Bool.or_true]
    · simp only [if_neg hbit, if_neg hg]

theorem extremumI64Merge_eq (hbeats : ∀ v old, beats v old = true ↔ key v < key old) :
    extremumI64Merge beats = fun a b =>
      (List.zipWith (least key hkey seed hseed).combine a.1 b.1,
        List.zipWith anySeen.combine a.2 b.2) := by
  funext a b
  simp [extremumI64Merge, least, anySeen, hbeats]

theorem aggregateExtremumI64Cpu_eq (hbeats : ∀ v old, beats v old = true ↔ key v < key old)
    (split : Split) :
    aggregateExtremumI64Cpu values valid rowToGroup nGroups seed beats split =
      (buckets (least key hkey seed hseed) nGroups
          (rowUpdate valid rowToGroup nGroups (fun i => values.getD i 0))
          (List.range (min values.length rowToGroup.length)),
        buckets anySeen nGroups (rowUpdate valid rowToGroup nGroups (fun _ => true))
          (List.range (min values.length rowToGroup.length))) := by
  unfold aggregateExtremumI64Cpu
  rw [extremumI64Fold_eq hkey hseed hbeats,
    extremumI64Merge_eq hkey hseed hbeats, foldReduce_prod]
  exact Prod.ext (foldReduce_buckets (least key hkey seed hseed) nGroups _ split _)
    (foldReduce_buckets anySeen nGroups _ split _)

end Extremum

theorem groupValues_eq {g : ℕ} (hg : g < nGroups) :
    valuesAt g ((List.range (min values.length rowToGroup.length)).filterMap
      (rowUpdate valid rowToGroup nGroups (fun i => values.getD i 0))) =
    groupValues values valid rowToGroup g :=
  valuesAt_rowUpdate _ _ hg

/-- The flag tells an empty group from one whose extremum is the seed. -/
theorem extremaOf_buckets {κ : Type*} [LinearOrder κ] {key : BitVec 64 → κ}
    (hkey : Function.Injective key) {seed : BitVec 64} (hseed : ∀ a, key a ≤ key seed)
    {beats : BitVec 64 → BitVec 64 → Bool}
    (hbeats : ∀ v old, beats v old = true ↔ key v < key old) (split : Split) :
    ExtremaOf values valid rowToGroup (fun a b => key a ≤ key b) nGroups
      (aggregateExtremumI64Cpu values valid rowToGroup nGroups seed beats split) := by
  rw [aggregateExtremumI64Cpu_eq hkey hseed hbeats]
  refine ⟨⟨length_buckets _ _ _ _, length_buckets _ _ _ _⟩, fun g hg => ?_, fun g hg hne => ?_,
    fun g hg v hv => ?_⟩
  · rw [getD_buckets _ _ _ _ hg, valuesAt_rowUpdate _ _ hg, total_anySeen]
    simp [groupValues, List.eq_nil_iff_forall_not_mem]
  · rw [getD_buckets _ _ _ _ hg, groupValues_eq hg]
    exact total_least_mem hne
  · rw [getD_buckets _ _ _ _ hg, groupValues_eq hg]
    exact key_total_least_le hv

theorem total_ones {ι : Type*} (rows : List ι) :
    total (Wrapping.addReduction 64) (rows.map (fun _ => 1)) = BitVec.ofNat 64 rows.length := by
  induction rows with
  | nil => rfl
  | cons i rows ih =>
    rw [List.map_cons, total_cons, ih, List.length_cons, BitVec.ofNat_add]
    exact BitVec.add_comm _ _

theorem valuesAt_lenUpdate {g : ℕ} (hg : g < nGroups) :
    valuesAt g (rowToGroup.filterMap (fun g => if g < nGroups then some (g, (1 : BitVec 64)) else none)) =
      (rowToGroup.filter (fun row => row = g)).map (fun _ => 1) := by
  induction rowToGroup with
  | nil => rfl
  | cons row rows ih =>
    rw [List.filterMap_cons, List.filter_cons]
    by_cases hrow : row = g
    · simp only [hrow, if_pos hg, valuesAt_cons, ih, decide_true, if_true, List.map_cons]
    · rw [if_neg (show ¬ decide (row = g) = true by simpa using hrow), ← ih]
      split_ifs
      · rw [valuesAt_cons, if_neg hrow]
      · rfl

theorem toNat_total_ones {ι : Type*} {rows : List ι} (h : rows.length < 2 ^ 63) :
    (total (Wrapping.addReduction 64) (rows.map (fun _ => 1))).toNat = rows.length := by
  rw [total_ones, BitVec.toNat_ofNat, Nat.mod_eq_of_lt (by omega)]

theorem slt_iff (v old : BitVec 64) : v.slt old = true ↔ v.toInt < old.toInt := by
  rw [BitVec.slt, decide_eq_true_eq]

theorem toInt_le_i64Max (a : BitVec 64) : a.toInt ≤ i64Max.toInt := by
  have hmax : i64Max.toInt = 2 ^ 63 - 1 := by decide
  have := BitVec.toInt_lt (x := a)
  omega

theorem i64Min_le_toInt (a : BitVec 64) : i64Min.toInt ≤ a.toInt := by
  have hmin : i64Min.toInt = -2 ^ 63 := by decide
  have := BitVec.le_toInt (x := a)
  omega

theorem toInt_injective : Function.Injective (BitVec.toInt : BitVec 64 → ℤ) :=
  fun _ _ h => BitVec.toInt_inj.1 h

/-- The order of a maximum is the reversed one. -/
def reversed (a : BitVec 64) : ℤᵒᵈ := OrderDual.toDual a.toInt

theorem reversed_injective : Function.Injective reversed :=
  OrderDual.toDual.injective.comp toInt_injective

theorem reversed_le_i64Min (a : BitVec 64) : reversed a ≤ reversed i64Min := i64Min_le_toInt a

end Proofs

/-- However the rows are divided, every aggregate is the same, and is exact: the sum of a group's
valid rows up to wraparound, an attained extremum with a flag for the groups that have one, and the
numbers of valid and of all rows. A slice has fewer than 2 ^ 63 rows. -/
theorem cpuAggregates_exact (values : List (BitVec 64)) (valid : List UInt8) (rowToGroup : List ℕ)
    (nGroups : ℕ) (hrows : rowToGroup.length < 2 ^ 63) (split : Split) :
    ((aggregateSumI64Cpu values valid rowToGroup nGroups split).length = nGroups ∧
      (aggregateCountCpu valid rowToGroup nGroups split).length = nGroups ∧
      (aggregateLenCpu rowToGroup nGroups split).length = nGroups) ∧
    (∀ g < nGroups,
      ((aggregateSumI64Cpu values valid rowToGroup nGroups split).getD g 0).toInt =
        (Wrapping.exactSum (groupValues values valid rowToGroup g)).bmod (2 ^ 64)) ∧
    ExtremaOf values valid rowToGroup (fun a b => a.toInt ≤ b.toInt) nGroups
      (aggregateMinI64Cpu values valid rowToGroup nGroups split) ∧
    ExtremaOf values valid rowToGroup (fun a b => b.toInt ≤ a.toInt) nGroups
      (aggregateMaxI64Cpu values valid rowToGroup nGroups split) ∧
    (∀ g < nGroups, ((aggregateCountCpu valid rowToGroup nGroups split).getD g 0).toNat =
      (validRows rowToGroup rowToGroup.length valid g).length) ∧
    (∀ g < nGroups, ((aggregateLenCpu rowToGroup nGroups split).getD g 0).toNat =
      rowToGroup.count g) ∧
    ∀ other : Split,
      aggregateSumI64Cpu values valid rowToGroup nGroups split =
        aggregateSumI64Cpu values valid rowToGroup nGroups other ∧
      aggregateMinI64Cpu values valid rowToGroup nGroups split =
        aggregateMinI64Cpu values valid rowToGroup nGroups other ∧
      aggregateMaxI64Cpu values valid rowToGroup nGroups split =
        aggregateMaxI64Cpu values valid rowToGroup nGroups other ∧
      aggregateCountCpu valid rowToGroup nGroups split =
        aggregateCountCpu valid rowToGroup nGroups other ∧
      aggregateLenCpu rowToGroup nGroups split = aggregateLenCpu rowToGroup nGroups other := by
  have hmin : ∀ v old : BitVec 64, v.slt old = true ↔ v.toInt < old.toInt := slt_iff
  have hmax : ∀ v old : BitVec 64, old.slt v = true ↔ reversed v < reversed old :=
    fun v old => slt_iff old v
  refine ⟨⟨?_, ?_, ?_⟩, fun g hg => ?_, ?_, ?_, fun g hg => ?_, fun g hg => ?_, fun other => ?_⟩
  · rw [aggregateSumI64Cpu_eq, length_buckets]
  · rw [aggregateCountCpu_eq, length_buckets]
  · rw [aggregateLenCpu_eq, length_buckets]
  · rw [aggregateSumI64Cpu_eq, getD_buckets _ _ _ _ hg, groupValues_eq hg, Wrapping.toInt_total]
  · exact extremaOf_buckets toInt_injective toInt_le_i64Max hmin split
  · exact extremaOf_buckets reversed_injective reversed_le_i64Min hmax split
  · rw [aggregateCountCpu_eq, getD_buckets _ _ _ _ hg, valuesAt_rowUpdate _ _ hg, toNat_total_ones]
    exact (List.length_filter_le _ _).trans_lt
      (((List.length_filter_le _ _).trans_eq List.length_range).trans_lt hrows)
  · rw [aggregateLenCpu_eq, getD_buckets _ _ _ _ hg, valuesAt_lenUpdate hg, toNat_total_ones,
      List.count_eq_length_filter]
    · rfl
    · exact (List.length_filter_le _ _).trans_lt hrows
  · refine ⟨?_, ?_, ?_, ?_, ?_⟩
    · rw [aggregateSumI64Cpu_eq, aggregateSumI64Cpu_eq]
    · unfold aggregateMinI64Cpu
      rw [aggregateExtremumI64Cpu_eq toInt_injective toInt_le_i64Max hmin,
        aggregateExtremumI64Cpu_eq toInt_injective toInt_le_i64Max hmin]
    · unfold aggregateMaxI64Cpu
      rw [aggregateExtremumI64Cpu_eq reversed_injective reversed_le_i64Min hmax,
        aggregateExtremumI64Cpu_eq reversed_injective reversed_le_i64Min hmax]
    · rw [aggregateCountCpu_eq, aggregateCountCpu_eq]
    · rw [aggregateLenCpu_eq, aggregateLenCpu_eq]

/-- A group whose only valid row holds the seed is not an empty one. -/
theorem cpuAggregates_exact_seed :
    (aggregateMinI64Cpu [i64Max, 0] [1] [0, 1] 2 (.node 1 .leaf .leaf)).2 = [true, false] ∧
    ExtremaOf [i64Max, 0] [1] [0, 1] (fun a b => a.toInt ≤ b.toInt) 2
      (aggregateMinI64Cpu [i64Max, 0] [1] [0, 1] 2 (.node 1 .leaf .leaf)) :=
  ⟨by decide, (cpuAggregates_exact [i64Max, 0] [1] [0, 1] 2 (by decide) (.node 1 .leaf .leaf)).2.2.1⟩

end PolarsMetal.GroupBy.CpuPath
