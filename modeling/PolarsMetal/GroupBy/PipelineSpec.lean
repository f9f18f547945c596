import PolarsMetal.GroupBy.FloatAggregatesSpec
import PolarsMetal.GroupBy.FloatKeys
import PolarsMetal.GroupBy.GroupOrder
import PolarsMetal.GroupBy.Pipeline

/-! The group-by is the relational one. Its groups are the classes of rows with equal keys, the decoded
keys are those of the groups' first rows, and every aggregate's cell is computed from its group's rows
alone. -/

namespace PolarsMetal.GroupBy.Pipeline
open Bitmap CasLoop CpuPath ExactSum Fallible Grouping Reads Reduce Wrapping

/-! What a cell holds. -/

/-- The words of a column's valid rows, of these rows. -/
def validWords {w : ℕ} (data : List (BitVec w)) (valid : List UInt8) (rows : List ℕ) :
    List (BitVec w) :=
  (rows.filter fun row => bitAt valid row != 0).map (data.getD · 0)

/-- The best of some words, flagged when there is one. -/
structure Extremal {w : ℕ} (notWorse : BitVec w → BitVec w → Prop) (xs : List (BitVec w))
    (out : BitVec w) (flag : Bool) : Prop where
  flag_iff : flag = true ↔ xs ≠ []
  attained : xs ≠ [] → out ∈ xs
  best : ∀ v ∈ xs, notWorse out v

/-- A double-precision sum: exact on integers, as far as the additions are. -/
def SumsTo (fl64 : F64Arith) (xs : List (BitVec 64)) (out : BitVec 64) : Prop :=
  ∀ num bound, AddsUpTo fl64.add num bound → num 0 = some 0 → IsExact num bound xs out

/-- A mean: a quotient, flagged when there is one. -/
structure IsMean {w v : ℕ} (xs : List (BitVec w)) (quotient out : BitVec v) (flag : Bool) : Prop where
  flag_iff : flag = true ↔ xs ≠ []
  value : xs ≠ [] → out = quotient

/-- What cell `g` of an aggregate's output holds, for the rows of its group. -/
def Meets (fl : F32Ops) (fl64 : F64Arith) (kind : AggKind) (vcol : ValueColumn) (rows : List ℕ) (g : ℕ)
    (out : AggOutput) : Prop :=
  match kind, vcol, out with
  | .sumI64, .i64 data valid, .i64 values flags =>
    values.getD g 0 = BitVec.ofInt 64 (exactSum (validWords data valid rows)) ∧
      flags.getD g false = true
  | .sumF64, .f64 data valid, .f64 values flags =>
    SumsTo fl64 (validWords data valid rows) (values.getD g 0) ∧ flags.getD g false = true
  | .minI64, .i64 data valid, .i64 values flags =>
    Extremal (fun a b => a.toInt ≤ b.toInt) (validWords data valid rows) (values.getD g 0)
      (flags.getD g false)
  | .maxI64, .i64 data valid, .i64 values flags =>
    Extremal (fun a b => b.toInt ≤ a.toInt) (validWords data valid rows) (values.getD g 0)
      (flags.getD g false)
  | .minF64, .f64 data valid, .f64 values flags =>
    IsPoisoned double (validWords data valid rows) (values.getD g 0) ∧
      (flags.getD g false = true ↔ validWords data valid rows ≠ [])
  | .maxF64, .f64 data valid, .f64 values flags =>
    @IsPoisoned Ieee.Extendedᵒᵈ _ double (validWords data valid rows) (values.getD g 0) ∧
      (flags.getD g false = true ↔ validWords data valid rows ≠ [])
  | .count, .i64 _ valid, .u64 values | .count, .f64 _ valid, .u64 values
  | .count, .i32 _ valid, .u64 values | .count, .f32 _ valid, .u64 values =>
    values.getD g 0 = (rows.filter fun row => bitAt valid row != 0).length
  | .len, _, .u64 values => values.getD g 0 = rows.length
  | .meanI64, .i64 data valid, .f64 values flags =>
    IsMean (validWords data valid rows)
      (fl64.div (fl64.ofI64 (BitVec.ofInt 64 (exactSum (validWords data valid rows))))
        (fl64.ofU64 (validWords data valid rows).length)) (values.getD g 0) (flags.getD g false)
  | .meanF64, .f64 data valid, .f64 values flags =>
    ∃ sum, SumsTo fl64 (validWords data valid rows) sum ∧
      IsMean (validWords data valid rows)
        (fl64.div sum (fl64.ofU64 (validWords data valid rows).length)) (values.getD g 0)
        (flags.getD g false)
  | .sumI32, .i32 data valid, .i32 values flags =>
    values.getD g 0 = BitVec.ofInt 32 (exactSum (validWords data valid rows)) ∧
      flags.getD g false = true
  | .minI32, .i32 data valid, .i32 values flags =>
    Extremal (fun a b => a.toInt ≤ b.toInt) (validWords data valid rows) (values.getD g 0)
      (flags.getD g false)
  | .maxI32, .i32 data valid, .i32 values flags =>
    Extremal (fun a b => b.toInt ≤ a.toInt) (validWords data valid rows) (values.getD g 0)
      (flags.getD g false)
  | .meanI32, .i32 data valid, .f32 values flags =>
    IsMean (validWords data valid rows)
      (fl.div (fl.ofI32 (BitVec.ofInt 32 (exactSum (validWords data valid rows))))
        (fl.ofU32 (BitVec.ofNat 32 (validWords data valid rows).length))) (values.getD g 0)
      (flags.getD g false)
  | .sumF32, .f32 data valid, .f32 values flags =>
    Gathered (aggSumF32 fl) (validWords data valid rows) (values.getD g 0) ∧ flags.getD g false = true
  | .minF32, .f32 data valid, .f32 values flags =>
    Gathered (aggMinF32 fl) (validWords data valid rows) (values.getD g 0) ∧
      (flags.getD g false = true ↔ validWords data valid rows ≠ [])
  | .maxF32, .f32 data valid, .f32 values flags =>
    Gathered (aggMaxF32 fl) (validWords data valid rows) (values.getD g 0) ∧
      (flags.getD g false = true ↔ validWords data valid rows ≠ [])
  | .meanF32, .f32 data valid, .f32 values flags =>
    ∃ sum, Gathered (aggSumF32 fl) (validWords data valid rows) sum ∧
      IsMean (validWords data valid rows)
        (fl.div sum (fl.ofU32 (BitVec.ofNat 32 (validWords data valid rows).length)))
        (values.getD g 0) (flags.getD g false)
  | _, _, _ => False

/-! What the aggregates need. -/

/-- A kind fits its column, and the column has the rows. -/
def Fits (nRows : ℕ) (kind : AggKind) (vcol : ValueColumn) : Prop :=
  match kind, vcol with
  | .count, _ | .len, _ => True
  | .sumI64, .i64 data _ | .minI64, .i64 data _ | .maxI64, .i64 data _ | .meanI64, .i64 data _ =>
    nRows ≤ data.length
  | .sumF64, .f64 data _ | .minF64, .f64 data _ | .maxF64, .f64 data _ | .meanF64, .f64 data _ =>
    nRows ≤ data.length
  | .sumI32, .i32 data valid | .minI32, .i32 data valid | .maxI32, .i32 data valid
  | .meanI32, .i32 data valid => nRows ≤ data.length ∧ (nRows + 7) / 8 ≤ valid.length
  | .sumF32, .f32 data valid | .minF32, .f32 data valid | .maxF32, .f32 data valid
  | .meanF32, .f32 data valid => nRows ≤ data.length ∧ (nRows + 7) / 8 ≤ valid.length
  | _, _ => False

/-- The kernel of a single-precision kind. -/
def kernelOf (fl : F32Ops) : AggKind → Option F32Kernel
  | .sumF32 | .meanF32 => some (aggSumF32 fl)
  | .minF32 => some (aggMinF32 fl)
  | .maxF32 => some (aggMaxF32 fl)
  | _ => none

/-- The launches of an aggregate run to their end. -/
structure AggRun.Completes (run : AggRun) (fl : F32Ops) (kind : AggKind) (vcol : ValueColumn)
    (rowToGroup : List ℕ) (nGroups : ℕ) : Prop where
  threads : run.threads.Perm (List.range rowToGroup.length)
  launch : ∀ k data valid, kernelOf fl kind = some k → vcol = .f32 data valid →
    run.launch.Completes k ⟨data, valid, rowToGroup, rowToGroup.length, nGroups⟩

section Cells

variable {fl : F32Ops} {fl64 : F64Arith} {rowToGroup : List ℕ} {nGroups : ℕ} {run : AggRun}

/-- The rows that a group has been given. -/
def rowsIn (rowToGroup : List ℕ) (g : ℕ) : List ℕ := groupRows rowToGroup rowToGroup.length g

theorem groupValues_eq_validWords {data : List (BitVec 64)} {valid : List UInt8}
    (h : rowToGroup.length ≤ data.length) (g : ℕ) :
    groupValues data valid rowToGroup g = validWords data valid (rowsIn rowToGroup g) := by
  unfold groupValues validRows
  rw [min_eq_right h]
  rfl

theorem sumI64_cell {data : List (BitVec 64)} {valid : List UInt8} {split : ParFold.Split}
    (h : rowToGroup.length ≤ data.length) {g : ℕ} (hg : g < nGroups) :
    (CpuPath.aggregateSumI64Cpu data valid rowToGroup nGroups split).getD g 0 =
      BitVec.ofInt 64 (exactSum (validWords data valid (rowsIn rowToGroup g))) := by
  apply BitVec.eq_of_toInt_eq
  rw [CpuPath.aggregateSumI64Cpu_eq, ParFold.getD_buckets _ _ _ _ hg, groupValues_eq hg, toInt_total,
    BitVec.toInt_ofInt, groupValues_eq_validWords h]

theorem extremal_of_extremaOf {data : List (BitVec 64)} {valid : List UInt8}
    {notWorse : BitVec 64 → BitVec 64 → Prop} {out : List (BitVec 64) × List Bool}
    (hout : ExtremaOf data valid rowToGroup notWorse nGroups out)
    (h : rowToGroup.length ≤ data.length) {g : ℕ} (hg : g < nGroups) :
    Extremal notWorse (validWords data valid (rowsIn rowToGroup g)) (out.1.getD g 0)
      (out.2.getD g false) := by
  rw [← groupValues_eq_validWords h]
  exact ⟨hout.flag g hg, hout.attained g hg, hout.best g hg⟩

theorem length_rowsIn_le (g : ℕ) : (rowsIn rowToGroup g).length ≤ rowToGroup.length :=
  (List.length_filter_le _ _).trans_eq List.length_range

theorem length_filter_eq_rowsIn (g : ℕ) :
    (rowToGroup.filter (fun row => row = g)).length = (rowsIn rowToGroup g).length := by
  have hself : rowToGroup = (List.range rowToGroup.length).map (rowToGroup.getD · 0) := by
    refine List.ext_getElem (by simp) (fun i hi _ => ?_)
    rw [List.getElem_map, List.getElem_range, getD_of_lt _ hi]
  conv_lhs => rw [hself]
  rw [List.filter_map, List.length_map]
  rfl

theorem length_validWords {w : ℕ} (data : List (BitVec w)) (valid : List UInt8) (rows : List ℕ) :
    (validWords data valid rows).length = (rows.filter fun row => bitAt valid row != 0).length :=
  List.length_map _

theorem countsOf_cell {w : ℕ} (data : List (BitVec w)) {valid : List UInt8}
    (hrows : rowToGroup.length < 2 ^ 32) {g : ℕ} (hg : g < nGroups) :
    (countsOf rowToGroup nGroups run valid).getD g 0 =
      (validWords data valid (rowsIn rowToGroup g)).length := by
  have hle := (List.length_filter_le (fun row => bitAt valid row != 0) (rowsIn rowToGroup g)).trans
    (length_rowsIn_le g)
  unfold countsOf
  rw [show (0 : ℕ) = (0 : BitVec 64).toNat from rfl, getD_map, CpuPath.aggregateCountCpu_eq,
    ParFold.getD_buckets _ _ _ _ hg, valuesAt_rowUpdate _ _ hg, toNat_total_ones,
    length_validWords]
  · rfl
  · exact hle.trans_lt (by omega)

theorem length_countsOf {valid : List UInt8} :
    (countsOf rowToGroup nGroups run valid).length = nGroups := by
  unfold countsOf
  rw [List.length_map, CpuPath.aggregateCountCpu_eq, ParFold.length_buckets]

/-- Cell by cell, a mean is its quotient. -/
theorem isMean_of_means {w v : ℕ} {quotients : List (Option (BitVec v))} {xs : List (BitVec w)}
    {quotient : BitVec v} {g : ℕ} (hg : g < quotients.length)
    (hcell : quotients[g]? = some (if xs.length = 0 then none else some quotient)) :
    IsMean xs quotient ((quotients.map (fun m => m.getD 0)).getD g 0)
      ((quotients.map Option.isSome).getD g false) := by
  have hread : quotients[g] = if xs.length = 0 then none else some quotient :=
    Option.some.inj ((List.getElem?_eq_getElem hg).symm.trans hcell)
  rw [getD_of_lt _ (by rwa [List.length_map]), getD_of_lt _ (by rwa [List.length_map]),
    List.getElem_map, List.getElem_map, hread]
  refine ⟨?_, fun hne => ?_⟩
  · split_ifs with hzero
    · exact ⟨fun h => absurd h Bool.false_ne_true,
        fun h => absurd (List.length_eq_zero_iff.1 hzero) h⟩
    · exact ⟨fun _ h => hzero (List.length_eq_zero_iff.2 h), fun _ => rfl⟩
  · rw [if_neg fun hzero => hne (List.length_eq_zero_iff.1 hzero)]
    rfl

theorem getElem?_zip_map {α β γ : Type*} {xs : List α} {ys : List β} (f : α × β → γ) {g : ℕ}
    (hx : g < xs.length) (hy : g < ys.length) (x : α) (y : β) :
    ((xs.zip ys).map f)[g]? = some (f (xs.getD g x, ys.getD g y)) := by
  have hzip : g < (xs.zip ys).length := by
    rw [List.length_zip]
    omega
  rw [List.getElem?_map, List.getElem?_eq_getElem hzip, List.getElem_zip, getD_of_lt _ hx,
    getD_of_lt _ hy]
  rfl

theorem getD_zip_map {α β γ : Type*} {xs : List α} {ys : List β} (f : α × β → γ) {g : ℕ}
    (hx : g < xs.length) (hy : g < ys.length) (x : α) (y : β) {d : γ} :
    ((xs.zip ys).map f).getD g d = f (xs.getD g x, ys.getD g y) := by
  rw [List.getD_eq_getElem?_getD, getElem?_zip_map f hx hy x y, Option.getD_some]

/-! The double-precision kinds. -/

theorem cells_sumF64 {data : List (BitVec 64)} {valid : List UInt8} {split : ParFold.Split}
    (h : rowToGroup.length ≤ data.length) {g : ℕ} (hg : g < nGroups) :
    SumsTo fl64 (validWords data valid (rowsIn rowToGroup g))
      ((aggregateSumF64Cpu data valid rowToGroup nGroups fl64.add split).getD g 0) := by
  intro num bound hadd hzero
  have hcell := (@aggregateSumF64Cpu_cells data valid rowToGroup nGroups fl64.add num bound hadd hzero
    split).2 g hg
  rwa [← groupValues_eq_among, groupValues_eq_validWords h] at hcell

theorem cells_extremumF64 {K : Type*} [LinearOrder K] [OrderTop K] {key : BitVec 64 → Option K}
    {data : List (BitVec 64)} {valid : List UInt8} {out : List (BitVec 64) × List Bool}
    (hout : Cells data valid rowToGroup nGroups (IsPoisoned key) 0
        (List.range (min data.length rowToGroup.length)) out.1 ∧
      Cells data valid rowToGroup nGroups (fun xs flag => flag = true ↔ xs ≠ []) false
        (List.range (min data.length rowToGroup.length)) out.2)
    (h : rowToGroup.length ≤ data.length) {g : ℕ} (hg : g < nGroups) :
    IsPoisoned key (validWords data valid (rowsIn rowToGroup g)) (out.1.getD g 0) ∧
      (out.2.getD g false = true ↔ validWords data valid (rowsIn rowToGroup g) ≠ []) := by
  have hvalue := hout.1.2 g hg
  have hflag := hout.2.2 g hg
  rw [← groupValues_eq_among, groupValues_eq_validWords h] at hvalue hflag
  exact ⟨hvalue, hflag⟩

/-! The 32-bit integer kinds. -/

theorem filterMap_validValue (data : List Word) (valid : List UInt8) (rows : List ℕ) :
    rows.filterMap (validValue data valid) = validWords data valid rows := by
  unfold validWords
  induction rows with
  | nil => rfl
  | cons row rows ih =>
    rw [List.filterMap_cons, List.filter_cons, validValue]
    by_cases hvalid : bitAt valid row = 0
    · rw [if_pos hvalid, if_neg (by simp [hvalid])]
      exact ih
    · rw [if_neg hvalid, if_pos (by simp [hvalid]), List.map_cons]
      exact congrArg (List.cons _) ih

theorem groupTotal_eq (R : Reduction Word) (data : List Word) (valid : List UInt8) (g : ℕ) :
    groupTotal R rowToGroup rowToGroup.length data valid g =
      total R (validWords data valid (rowsIn rowToGroup g)) :=
  congrArg (total R) (filterMap_validValue data valid _)

theorem toInt_total_addReduction (xs : List Word) :
    (total addReduction xs).toInt = (exactSum xs).bmod (2 ^ 32) :=
  toInt_total xs

theorem minReduction_least {xs : List Word} (hxs : xs ≠ []) :
    total minReduction xs ∈ xs ∧ ∀ v ∈ xs, (total minReduction xs).toInt ≤ v.toInt := by
  have hmin : ∀ a b : Word, (minReduction.combine a b).toInt = min a.toInt b.toInt := toInt_sminWord
  induction xs with
  | nil => exact absurd rfl hxs
  | cons x xs ih =>
    rw [total_cons]
    by_cases hnil : xs = []
    · rw [hnil, total_nil, Reduction.right_id]
      exact ⟨List.mem_cons_self, fun v hv => (List.mem_singleton.1 hv ▸ le_rfl)⟩
    · obtain ⟨hmem, hle⟩ := ih hnil
      refine ⟨?_, fun v hv => ?_⟩
      · show sminWord x (total minReduction xs) ∈ _
        unfold sminWord
        split_ifs
        · exact List.mem_cons_of_mem _ hmem
        · exact List.mem_cons_self
      · rw [hmin]
        rcases List.mem_cons.1 hv with rfl | hv
        · exact min_le_left _ _
        · exact (min_le_right _ _).trans (hle v hv)

theorem maxReduction_greatest {xs : List Word} (hxs : xs ≠ []) :
    total maxReduction xs ∈ xs ∧ ∀ v ∈ xs, v.toInt ≤ (total maxReduction xs).toInt := by
  have hmax : ∀ a b : Word, (maxReduction.combine a b).toInt = max a.toInt b.toInt := toInt_smaxWord
  induction xs with
  | nil => exact absurd rfl hxs
  | cons x xs ih =>
    rw [total_cons]
    by_cases hnil : xs = []
    · rw [hnil, total_nil, Reduction.right_id]
      exact ⟨List.mem_cons_self, fun v hv => (List.mem_singleton.1 hv ▸ le_rfl)⟩
    · obtain ⟨hmem, hle⟩ := ih hnil
      refine ⟨?_, fun v hv => ?_⟩
      · show smaxWord x (total maxReduction xs) ∈ _
        unfold smaxWord
        split_ifs
        · exact List.mem_cons_of_mem _ hmem
        · exact List.mem_cons_self
      · rw [hmax]
        rcases List.mem_cons.1 hv with rfl | hv
        · exact le_max_left _ _
        · exact (hle v hv).trans (le_max_right _ _)

theorem getD_map_range {α : Type*} (f : ℕ → α) {n g : ℕ} (hg : g < n) (d : α) :
    ((List.range n).map f).getD g d = f g := by
  rw [getD_of_lt _ (by rwa [List.length_map, List.length_range]), List.getElem_map,
    List.getElem_range]

theorem getD_replicate_true {g : ℕ} (hg : g < nGroups) :
    (List.replicate nGroups true).getD g false = true := by
  rw [getD_of_lt _ (by rwa [List.length_replicate]), List.getElem_replicate]

variable {threads : List ℕ} {data : List Word} {valid : List UInt8}

theorem dispatchAggI32_cells (R : Reduction Word) (hpos : 0 < rowToGroup.length)
    (hrows : rowToGroup.length < 2 ^ 32) (hthreads : threads.Perm (List.range rowToGroup.length))
    (hdata : rowToGroup.length ≤ data.length) (hvalid : (rowToGroup.length + 7) / 8 ≤ valid.length) :
    dispatchAggI32 R.combine R.identity data valid rowToGroup rowToGroup.length nGroups threads =
      .ok ((List.range nGroups).map fun g => total R (validWords data valid (rowsIn rowToGroup g))) :=
  (@dispatchAggI32_eq rowToGroup.length ⟨rowToGroup, [], nGroups⟩ threads rfl hpos hrows hthreads data
    valid hdata hvalid R).trans
    (congrArg Except.ok (List.map_congr_left fun g _ => groupTotal_eq R data valid g))

/-- The counts of a group's valid rows, on the device. -/
def wordCounts (rowToGroup : List ℕ) (nGroups : ℕ) (valid : List UInt8) : List Word :=
  (List.range nGroups).map fun g =>
    BitVec.ofNat 32 (validRows rowToGroup rowToGroup.length valid g).length

theorem dispatchCountU32_cells (hpos : 0 < rowToGroup.length) (hrows : rowToGroup.length < 2 ^ 32)
    (hthreads : threads.Perm (List.range rowToGroup.length))
    (hvalid : (rowToGroup.length + 7) / 8 ≤ valid.length) :
    dispatchCountU32 valid rowToGroup rowToGroup.length nGroups threads =
      .ok (wordCounts rowToGroup nGroups valid) :=
  @dispatchCountU32_eq rowToGroup.length ⟨rowToGroup, [], nGroups⟩ threads rfl hpos hrows hthreads
    valid hvalid

theorem getD_countToValid (hrows : rowToGroup.length < 2 ^ 32) {g : ℕ} (hg : g < nGroups) :
    (countToValid (wordCounts rowToGroup nGroups valid)).getD g false = true ↔
      validWords data valid (rowsIn rowToGroup g) ≠ [] := by
  have hflags := @countToValid_counts rowToGroup.length ⟨rowToGroup, [], nGroups⟩ hrows valid
  unfold wordCounts
  rw [hflags, getD_map_range _ hg, decide_eq_true_iff, List.length_pos_iff]
  show _ ↔ ¬ _ = []
  rw [validWords, List.map_eq_nil_iff]
  rfl

theorem isMean_fromSumCount (toFloat : Word → Word) (hrows : rowToGroup.length < 2 ^ 32)
    {sums : List Word} (hsums : sums.length = nGroups) :
    ∃ values flags, meanFromSumCount toFloat fl sums (wordCounts rowToGroup nGroups valid) =
        .f32 values flags ∧
      ∀ g < nGroups, IsMean (validWords data valid (rowsIn rowToGroup g))
        (fl.div (toFloat (sums.getD g 0))
          (fl.ofU32 (BitVec.ofNat 32 (validWords data valid (rowsIn rowToGroup g)).length)))
        (values.getD g 0) (flags.getD g false) := by
  set counts := wordCounts rowToGroup nGroups valid with hcounts
  have hlen : counts.length = nGroups := by
    rw [hcounts, wordCounts, List.length_map, List.length_range]
  refine ⟨(sums.zip counts).map fun p => if p.2 = 0 then 0 else fl.div (toFloat p.1) (fl.ofU32 p.2),
    (sums.zip counts).map fun p => p.2 != 0, rfl, fun g hg => ?_⟩
  have hcount : counts.getD g 0 =
      BitVec.ofNat 32 (validWords data valid (rowsIn rowToGroup g)).length := by
    rw [hcounts, wordCounts, getD_map_range _ hg, length_validWords]
    rfl
  have hlt : (validWords data valid (rowsIn rowToGroup g)).length < 2 ^ 32 := by
    rw [length_validWords]
    exact ((List.length_filter_le _ _).trans (length_rowsIn_le g)).trans_lt hrows
  have hzero : BitVec.ofNat 32 (validWords data valid (rowsIn rowToGroup g)).length = 0 ↔
      validWords data valid (rowsIn rowToGroup g) = [] := by
    rw [← List.length_eq_zero_iff]
    refine ⟨fun h => ?_, fun h => by rw [h]; rfl⟩
    have hnat := congrArg BitVec.toNat h
    rwa [BitVec.toNat_ofNat, Nat.mod_eq_of_lt hlt] at hnat
  have hxs : g < sums.length := hsums ▸ hg
  have hys : g < counts.length := hlen ▸ hg
  rw [getD_zip_map _ hxs hys 0 0, getD_zip_map _ hxs hys 0 0]
  dsimp only
  rw [hcount]
  refine ⟨?_, fun hne => if_neg fun h => hne (hzero.1 h)⟩
  rw [bne_iff_ne, Ne, hzero]

/-! Every kind. -/

section Kinds

variable {kind : AggKind} {vcol : ValueColumn}

theorem runOneAgg_i32 (hpos : 0 < rowToGroup.length) (hrows : rowToGroup.length < 2 ^ 32)
    (hthreads : run.threads.Perm (List.range rowToGroup.length))
    (hdata : rowToGroup.length ≤ data.length) (hvalid : (rowToGroup.length + 7) / 8 ≤ valid.length)
    (hkind : kind = .sumI32 ∨ kind = .minI32 ∨ kind = .maxI32 ∨ kind = .meanI32) :
    ∃ out, runOneAgg fl fl64 rowToGroup nGroups run kind (.i32 data valid) = .ok out ∧
      ∀ g < nGroups, Meets fl fl64 kind (.i32 data valid) (rowsIn rowToGroup g) g out := by
  have hcell := fun R => @dispatchAggI32_cells rowToGroup nGroups run.threads data valid R hpos hrows
    hthreads hdata hvalid
  have hcounts := @dispatchCountU32_cells rowToGroup nGroups run.threads valid hpos hrows hthreads
    hvalid
  let cells : Reduction Word → List Word := fun R =>
    (List.range nGroups).map fun g => total R (validWords data valid (rowsIn rowToGroup g))
  let flags := countToValid (wordCounts rowToGroup nGroups valid)
  have hread : ∀ R, ∀ g < nGroups,
      (cells R).getD g 0 = total R (validWords data valid (rowsIn rowToGroup g)) :=
    fun R g hg => getD_map_range _ hg 0
  have hsum : ∀ g < nGroups, (cells addReduction).getD g 0 =
      BitVec.ofInt 32 (exactSum (validWords data valid (rowsIn rowToGroup g))) := by
    intro g hg
    rw [hread _ g hg]
    apply BitVec.eq_of_toInt_eq
    rw [toInt_total_addReduction, BitVec.toInt_ofInt]
  obtain rfl | rfl | rfl | rfl := hkind
  · refine ⟨.i32 (cells addReduction) (List.replicate nGroups true), ?_,
      fun g hg => ⟨hsum g hg, getD_replicate_true hg⟩⟩
    show Except.mapError _ (dispatchAggI32 addReduction.combine addReduction.identity data valid
      rowToGroup rowToGroup.length nGroups run.threads >>= _) = _
    rw [hcell addReduction]
    rfl
  · refine ⟨.i32 (cells minReduction) flags, ?_,
      fun g hg => ⟨getD_countToValid hrows hg, fun hne => ?_, fun v hv => ?_⟩⟩
    · show Except.mapError _ (dispatchAggI32 minReduction.combine minReduction.identity data valid
        rowToGroup rowToGroup.length nGroups run.threads >>= _) = _
      rw [hcell minReduction, hcounts]
      rfl
    · rw [hread _ g hg]
      exact (minReduction_least hne).1
    · rw [hread _ g hg]
      exact (minReduction_least (List.ne_nil_of_mem hv)).2 v hv
  · refine ⟨.i32 (cells maxReduction) flags, ?_,
      fun g hg => ⟨getD_countToValid hrows hg, fun hne => ?_, fun v hv => ?_⟩⟩
    · show Except.mapError _ (dispatchAggI32 maxReduction.combine maxReduction.identity data valid
        rowToGroup rowToGroup.length nGroups run.threads >>= _) = _
      rw [hcell maxReduction, hcounts]
      rfl
    · rw [hread _ g hg]
      exact (maxReduction_greatest hne).1
    · rw [hread _ g hg]
      exact (maxReduction_greatest (List.ne_nil_of_mem hv)).2 v hv
  · obtain ⟨values, flags, hmean, hcells⟩ := @isMean_fromSumCount fl rowToGroup nGroups data valid
      fl.ofI32 hrows (cells addReduction) (by rw [List.length_map, List.length_range])
    refine ⟨.f32 values flags, ?_, fun g hg => ?_⟩
    · show Except.mapError _ (dispatchAggI32 addReduction.combine addReduction.identity data valid
        rowToGroup rowToGroup.length nGroups run.threads >>= _) = _
      rw [hcell addReduction]
      show Except.mapError _ (dispatchCountU32 valid rowToGroup rowToGroup.length nGroups run.threads
        >>= _) = _
      rw [hcounts]
      exact congrArg Except.ok hmean
    · have hmean := hcells g hg
      rwa [hsum g hg] at hmean

theorem runOneAgg_f32 {k : F32Kernel} (hpos : 0 < rowToGroup.length)
    (hrows : rowToGroup.length < 2 ^ 32) (hthreads : run.threads.Perm (List.range rowToGroup.length))
    (hdata : rowToGroup.length ≤ data.length) (hvalid : (rowToGroup.length + 7) / 8 ≤ valid.length)
    (hkind : kernelOf fl kind = some k)
    (hlaunch : run.launch.Completes k ⟨data, valid, rowToGroup, rowToGroup.length, nGroups⟩) :
    ∃ out, runOneAgg fl fl64 rowToGroup nGroups run kind (.f32 data valid) = .ok out ∧
      ∀ g < nGroups, Meets fl fl64 kind (.f32 data valid) (rowsIn rowToGroup g) g out := by
  set inp : AggInput := ⟨data, valid, rowToGroup, rowToGroup.length, nGroups⟩ with hinp
  have hfits : inp.Fits := ⟨hrows, hdata, le_rfl, hvalid⟩
  obtain ⟨cells, hcells, hlen, hgather⟩ := dispatchAggF32_gathered hfits hlaunch
  have hcounts := @dispatchCountU32_cells rowToGroup nGroups run.threads valid hpos hrows hthreads
    hvalid
  have hgather : ∀ g < nGroups, Gathered k (validWords data valid (rowsIn rowToGroup g))
      (cells.getD g 0) := by
    intro g hg
    have hcell := hgather g hg
    have hwords : gather inp g (List.range inp.nRows) = validWords data valid (rowsIn rowToGroup g) :=
      @words_eq inp g
    rwa [hwords] at hcell
  cases kind <;> cases hkind
  case sumF32 =>
    refine ⟨.f32 cells (List.replicate nGroups true), ?_, fun g hg =>
      ⟨hgather g hg, getD_replicate_true hg⟩⟩
    show Except.mapError _ (dispatchAggF32 (aggSumF32 fl) inp run.launch >>= _) = _
    rw [hcells]
    rfl
  case meanF32 =>
    obtain ⟨values, flags, hmean, hmeans⟩ := @isMean_fromSumCount fl rowToGroup nGroups data valid
      id hrows cells hlen
    refine ⟨.f32 values flags, ?_, fun g hg => ⟨_, hgather g hg, hmeans g hg⟩⟩
    show Except.mapError _ (dispatchAggF32 (aggSumF32 fl) inp run.launch >>= _) = _
    rw [hcells]
    show Except.mapError _ (dispatchCountU32 valid rowToGroup rowToGroup.length nGroups run.threads
      >>= _) = _
    rw [hcounts]
    exact congrArg Except.ok hmean
  case minF32 =>
    refine ⟨.f32 cells (countToValid (wordCounts rowToGroup nGroups valid)), ?_, fun g hg =>
      ⟨hgather g hg, getD_countToValid hrows hg⟩⟩
    show Except.mapError _ (dispatchAggF32 (aggMinF32 fl) inp run.launch >>= _) = _
    rw [hcells]
    show Except.mapError _ (dispatchCountU32 valid rowToGroup rowToGroup.length nGroups run.threads
      >>= _) = _
    rw [hcounts]
    rfl
  case maxF32 =>
    refine ⟨.f32 cells (countToValid (wordCounts rowToGroup nGroups valid)), ?_, fun g hg =>
      ⟨hgather g hg, getD_countToValid hrows hg⟩⟩
    show Except.mapError _ (dispatchAggF32 (aggMaxF32 fl) inp run.launch >>= _) = _
    rw [hcells]
    show Except.mapError _ (dispatchCountU32 valid rowToGroup rowToGroup.length nGroups run.threads
      >>= _) = _
    rw [hcounts]
    rfl

theorem runOneAgg_i64 {data : List (BitVec 64)} {valid : List UInt8} (hrows : rowToGroup.length < 2 ^ 32)
    (hdata : rowToGroup.length ≤ data.length)
    (hkind : kind = .sumI64 ∨ kind = .minI64 ∨ kind = .maxI64 ∨ kind = .meanI64) :
    ∃ out, runOneAgg fl fl64 rowToGroup nGroups run kind (.i64 data valid) = .ok out ∧
      ∀ g < nGroups, Meets fl fl64 kind (.i64 data valid) (rowsIn rowToGroup g) g out := by
  obtain rfl | rfl | rfl | rfl := hkind
  · exact ⟨_, rfl, fun g hg => ⟨sumI64_cell hdata hg, getD_replicate_true hg⟩⟩
  · exact ⟨_, rfl, fun g hg => extremal_of_extremaOf
      (extremaOf_buckets toInt_injective toInt_le_i64Max slt_iff run.split) hdata hg⟩
  · exact ⟨_, rfl, fun g hg => extremal_of_extremaOf
      (extremaOf_buckets reversed_injective reversed_le_i64Min (fun v old => slt_iff old v) run.split)
      hdata hg⟩
  · refine ⟨_, rfl, fun g hg => ?_⟩
    have hsums : g < (CpuPath.aggregateSumI64Cpu data valid rowToGroup nGroups run.split).length := by
      rw [CpuPath.aggregateSumI64Cpu_eq, ParFold.length_buckets]
      exact hg
    have hcounts : g < (countsOf rowToGroup nGroups run valid).length := by
      rw [length_countsOf]
      exact hg
    refine isMean_of_means ?_ ?_
    · unfold computeMeanI64
      rw [List.length_map, List.length_zip]
      omega
    · refine (getElem?_zip_map (fun p : BitVec 64 × ℕ => if p.2 = 0 then none
        else some (fl64.div (fl64.ofI64 p.1) (fl64.ofU64 p.2))) hsums hcounts 0 0).trans ?_
      dsimp only
      rw [countsOf_cell data hrows hg, sumI64_cell hdata hg]

theorem runOneAgg_f64 {data : List (BitVec 64)} {valid : List UInt8} (hrows : rowToGroup.length < 2 ^ 32)
    (hdata : rowToGroup.length ≤ data.length)
    (hkind : kind = .sumF64 ∨ kind = .minF64 ∨ kind = .maxF64 ∨ kind = .meanF64) :
    ∃ out, runOneAgg fl fl64 rowToGroup nGroups run kind (.f64 data valid) = .ok out ∧
      ∀ g < nGroups, Meets fl fl64 kind (.f64 data valid) (rowsIn rowToGroup g) g out := by
  obtain rfl | rfl | rfl | rfl := hkind
  · exact ⟨_, rfl, fun g hg => ⟨cells_sumF64 hdata hg, getD_replicate_true hg⟩⟩
  · exact ⟨_, rfl, fun g hg => cells_extremumF64 (aggregateExtremumF64Cpu_cells double_infinity
      isNan_iff double_nan (fun _ _ _ _ => ieee_lt_iff) run.split) hdata hg⟩
  · have hcells := @aggregateExtremumF64Cpu_cells data valid rowToGroup nGroups Ieee.Extendedᵒᵈ _ _
      double f64NegInfinity (fun v old => Ieee.Comparison.gt.ieee (double v) (double old))
      double_negInfinity isNan_iff double_nan (fun _ _ _ _ => ieee_gt_iff) run.split
    exact ⟨_, rfl, fun g hg => cells_extremumF64 hcells hdata hg⟩
  · refine ⟨_, rfl, fun g hg =>
      ⟨_, @cells_sumF64 fl64 rowToGroup nGroups data valid run.split hdata g hg, ?_⟩⟩
    have hsums : g < (aggregateSumF64Cpu data valid rowToGroup nGroups fl64.add run.split).length := by
      rw [length_aggregateSumF64Cpu]
      exact hg
    have hcounts : g < (countsOf rowToGroup nGroups run valid).length := by
      rw [length_countsOf]
      exact hg
    refine isMean_of_means ?_ ?_
    · unfold computeMeanF64
      rw [List.length_map, List.length_zip]
      omega
    · refine (getElem?_zip_map (fun p : BitVec 64 × ℕ => if p.2 = 0 then none
        else some (fl64.div p.1 (fl64.ofU64 p.2))) hsums hcounts 0 0).trans ?_
      dsimp only
      rw [countsOf_cell data hrows hg]

/-- An aggregate's cells are computed from their groups' rows alone. -/
theorem runOneAgg_meets (hpos : 0 < rowToGroup.length) (hrows : rowToGroup.length < 2 ^ 32)
    (hfits : Fits rowToGroup.length kind vcol)
    (hrun : run.Completes fl kind vcol rowToGroup nGroups) :
    ∃ out, runOneAgg fl fl64 rowToGroup nGroups run kind vcol = .ok out ∧
      ∀ g < nGroups, Meets fl fl64 kind vcol (rowsIn rowToGroup g) g out := by
  have hcount : ∀ valid, ∀ g < nGroups, (countsOf rowToGroup nGroups run valid).getD g 0 =
      ((rowsIn rowToGroup g).filter fun row => bitAt valid row != 0).length :=
    fun valid g hg => (countsOf_cell ([] : List Word) hrows hg).trans (length_validWords _ _ _)
  have hlen : ∀ g < nGroups, ((CpuPath.aggregateLenCpu rowToGroup nGroups run.split).map
      BitVec.toNat).getD g 0 = (rowsIn rowToGroup g).length := by
    intro g hg
    rw [show (0 : ℕ) = (0 : BitVec 64).toNat from rfl, getD_map, CpuPath.aggregateLenCpu_eq,
      ParFold.getD_buckets _ _ _ _ hg, valuesAt_lenUpdate hg, toNat_total_ones]
    · exact length_filter_eq_rowsIn g
    · exact (List.length_filter_le _ _).trans_lt (by omega)
  cases kind <;> cases vcol
  case count.i64 | count.f64 | count.i32 | count.f32 => exact ⟨_, rfl, hcount _⟩
  case len.i64 | len.f64 | len.i32 | len.f32 => exact ⟨_, rfl, hlen⟩
  case sumI64.i64 | minI64.i64 | maxI64.i64 | meanI64.i64 =>
    exact runOneAgg_i64 hrows hfits (by simp)
  case sumF64.f64 | minF64.f64 | maxF64.f64 | meanF64.f64 =>
    exact runOneAgg_f64 hrows hfits (by simp)
  case sumI32.i32 | minI32.i32 | maxI32.i32 | meanI32.i32 =>
    exact runOneAgg_i32 hpos hrows hrun.threads hfits.1 hfits.2 (by simp)
  case sumF32.f32 | minF32.f32 | maxF32.f32 | meanF32.f32 =>
    exact runOneAgg_f32 hpos hrows hrun.threads hfits.1 hfits.2 rfl (hrun.launch _ _ _ rfl rfl)
  all_goals exact hfits.elim

end Kinds

end Cells

/-! The groups. -/

def SameKeys (cols : List KeyColumn) (i j : ℕ) : Prop := ∀ c ∈ cols, c.SameKey i j

instance (c : KeyColumn) (i j : ℕ) : Decidable (c.SameKey i j) := inferInstanceAs (Decidable (_ ∨ _))

instance (cols : List KeyColumn) (i j : ℕ) : Decidable (SameKeys cols i j) :=
  inferInstanceAs (Decidable (∀ _ ∈ _, _))

/-- The rows whose keys are those of row `rep`, in row order. -/
def keyRows (cols : List KeyColumn) (nRows rep : ℕ) : List ℕ :=
  (List.range nRows).filter fun row => SameKeys cols row rep

/-- The result groups the rows by their keys; `reps` are the groups' first rows. -/
structure IsGroupBy (fl : F32Ops) (fl64 : F64Arith) (cols : List KeyColumn)
    (specs : List (AggKind × ValueColumn)) (nRows : ℕ) (out : GroupByResult) (reps : List ℕ) : Prop where
  nGroups : out.nGroups = reps.length
  keys : out.decodedKeys = cols.map fun c => ⟨c.dtype, reps.map c.valueAt, reps.map c.isValid⟩
  first : ∀ r ∈ reps, IsLeast {row | row < nRows ∧ SameKeys cols row r} r
  distinct : reps.Pairwise fun r r' => ¬ SameKeys cols r r'
  covered : ∀ row < nRows, ∃ r ∈ reps, SameKeys cols row r
  cells : List.Forall₂ (fun s o => ∀ g < reps.length,
    Meets fl fl64 s.1 s.2 (keyRows cols nRows (reps.getD g 0)) g o) specs out.aggOutputs

section Groups

variable {fl : F32Ops} {fl64 : F64Arith} {cols : List KeyColumn}
  {specs : List (AggKind × ValueColumn)} {nRows : ℕ}

theorem decode_rows (hw : keyWidth cols ≤ 128) (rows : List ℕ) (nRows : ℕ) :
    decode (rows.map (encodeRow cols (fieldsFrom 0 cols))) ⟨fieldsFrom 0 cols, keyWidth cols, nRows⟩ =
      .ok (cols.map fun c => ⟨c.dtype, rows.map c.valueAt, rows.map c.isValid⟩) := by
  have hcolumns : (fieldsFrom 0 cols).map
      (columnOf (rows.map (encodeRow cols (fieldsFrom 0 cols)))) =
      cols.map fun c => (⟨c.dtype, rows.map c.valueAt, rows.map c.isValid⟩ : DecodedColumn) := by
    conv_lhs => rw [← map_snd_placed cols, List.map_map]
    conv_rhs => rw [← map_fst_placed cols, List.map_map]
    refine List.map_congr_left fun p hp => ?_
    show columnOf (rows.map (encodeRow cols ((placed cols).map Prod.snd))) p.2 = _
    rw [map_snd_placed]
    exact columnOf_encodeRows hw hp rows
  unfold decode
  rw [decodeKeys_eq, hcolumns]

theorem emptyOutputs (out : GroupByResult) (houtputs : out.aggOutputs =
    specs.map fun s => emptyOutputFor s.1) (hgroups : out.nGroups = 0)
    (hkeys : out.decodedKeys = cols.map fun c => ⟨c.dtype, [], []⟩) :
    IsGroupBy fl fl64 cols specs 0 out [] := by
  refine ⟨hgroups, hkeys, fun r hr => absurd hr List.not_mem_nil, .nil,
    fun row hrow => absurd hrow (Nat.not_lt_zero row), ?_⟩
  rw [houtputs, List.forall₂_map_right_iff]
  exact List.forall₂_same.2 fun s _ g hg => absurd hg (Nat.not_lt_zero g)

theorem runAggs_meets {rowToGroup : List ℕ} {nGroups : ℕ} {runs : AggRuns}
    (hpos : 0 < rowToGroup.length) (hrows : rowToGroup.length < 2 ^ 32)
    (hfits : ∀ s ∈ specs, Fits rowToGroup.length s.1 s.2)
    (hruns : ∀ s a, specs[a]? = some s →
      (runs a rowToGroup nGroups).Completes fl s.1 s.2 rowToGroup nGroups) :
    ∃ outs, runAggs fl fl64 runs specs rowToGroup nGroups = .ok outs ∧
      List.Forall₂ (fun s o => ∀ g < nGroups, Meets fl fl64 s.1 s.2 (rowsIn rowToGroup g) g o)
        specs outs := by
  have hall : ∀ p ∈ specs.zipIdx, ∃ out,
      runOneAgg fl fl64 rowToGroup nGroups (runs p.2 rowToGroup nGroups) p.1.1 p.1.2 = .ok out ∧
        ∀ g < nGroups, Meets fl fl64 p.1.1 p.1.2 (rowsIn rowToGroup g) g out :=
    fun p hp => runOneAgg_meets hpos hrows (hfits p.1 (List.fst_mem_of_mem_zipIdx hp))
      (hruns p.1 p.2 (List.mem_zipIdx_iff_getElem?.1 hp))
  obtain ⟨outs, houts, hmeets⟩ := mapM_of_forall hall
  refine ⟨outs, houts, ?_⟩
  conv => arg 2; rw [← List.zipIdx_map_fst 0 specs]
  rw [List.forall₂_map_left_iff]
  exact hmeets

/-- A grouping of the encoded rows groups the rows by their keys. -/
theorem isGroupBy_of_groups (hcols : Encodable cols nRows) {build : BuildOutput} {outs : List AggOutput}
    (hgroups : Groups ((List.range nRows).map (encodeRow cols (fieldsFrom 0 cols))) build)
    (houts : List.Forall₂ (fun s o => ∀ g < build.nGroups,
      Meets fl fl64 s.1 s.2 (rowsIn build.rowToGroup g) g o) specs outs) :
    IsGroupBy fl fl64 cols specs nRows
      ⟨cols.map fun c => ⟨c.dtype, build.firstRowPerGroup.map c.valueAt,
        build.firstRowPerGroup.map c.isValid⟩, outs, build.nGroups⟩ build.firstRowPerGroup := by
  have hlen : build.rowToGroup.length = nRows := by rw [hgroups.length_ids]; simp
  have hfirsts := hgroups.length_firsts
  have hsame : ∀ i j, i < nRows → j < nRows →
      (build.rowToGroup[i]? = build.rowToGroup[j]? ↔ SameKeys cols i j) := by
    intro i j hi hj
    rw [hgroups.same_iff i j (by simpa using hi) (by simpa using hj)]
    simp only [List.getElem_map, List.getElem_range]
    exact encodeRow_eq_iff hcols.width i j
  -- the rows of a group are those with the keys of its first row
  have hrep : ∀ g < build.nGroups, ∃ r, build.firstRowPerGroup[g]? = some r ∧ r < nRows ∧
      IsLeast {i | build.rowToGroup[i]? = some g} r ∧
      ∀ row < nRows, (build.rowToGroup[row]? = some g ↔ SameKeys cols row r) := by
    intro g hg
    obtain ⟨r, hr, hleast⟩ := hgroups.least g hg
    have hrlt : r < nRows := by
      rw [← hlen]
      exact (List.getElem?_eq_some_iff.1 hleast.1).1
    refine ⟨r, hr, hrlt, hleast, fun row hrow => ?_⟩
    have hgroup : build.rowToGroup[r]? = some g := hleast.1
    rw [← hgroup]
    exact hsame row r hrow hrlt
  refine ⟨hfirsts.symm, rfl, fun r hr => ?_, ?_, fun row hrow => ?_, ?_⟩
  · obtain ⟨g, hg, rfl⟩ := List.mem_iff_getElem.1 hr
    obtain ⟨r, hread, hrlt, hleast, hiff⟩ := hrep g (hfirsts ▸ hg)
    obtain rfl := Option.some.inj ((List.getElem?_eq_getElem hg).symm.trans hread)
    refine ⟨⟨hrlt, (hiff _ hrlt).1 hleast.1⟩, fun row hrow => hleast.2 ?_⟩
    exact (hiff row hrow.1).2 hrow.2
  · rw [List.pairwise_iff_getElem]
    intro g g' hg hg' hlt hkeys
    obtain ⟨r, hread, hrlt, hleast, -⟩ := hrep g (hfirsts ▸ hg)
    obtain ⟨r', hread', hrlt', hleast', -⟩ := hrep g' (hfirsts ▸ hg')
    obtain rfl := Option.some.inj ((List.getElem?_eq_getElem hg).symm.trans hread)
    obtain rfl := Option.some.inj ((List.getElem?_eq_getElem hg').symm.trans hread')
    have hid := (hsame _ _ hrlt hrlt').2 hkeys
    have hid₁ : build.rowToGroup[build.firstRowPerGroup[g]]? = some g := hleast.1
    have hid₂ : build.rowToGroup[build.firstRowPerGroup[g']]? = some g' := hleast'.1
    rw [hid₁, hid₂] at hid
    exact absurd (Option.some.inj hid) (Nat.ne_of_lt hlt)
  · have hrowlen : row < build.rowToGroup.length := hlen ▸ hrow
    have hmem := (hgroups.mem_ids _).1 (List.getElem_mem hrowlen)
    obtain ⟨r, hread, -, -, hiff⟩ := hrep _ hmem
    exact ⟨r, List.mem_of_getElem? hread, (hiff row hrow).1 (List.getElem?_eq_getElem hrowlen)⟩
  · refine houts.imp fun s o hcells g hg => ?_
    have hgroup : g < build.nGroups := hfirsts ▸ hg
    obtain ⟨r, hread, -, -, hiff⟩ := hrep g hgroup
    have hrows : keyRows cols nRows (build.firstRowPerGroup.getD g 0) =
        rowsIn build.rowToGroup g := by
      unfold keyRows rowsIn groupRows
      rw [hlen, List.getD_eq_getElem?_getD, hread, Option.getD_some]
      refine List.filter_congr fun row hrow => decide_eq_decide.2 ?_
      have hlt := List.mem_range.1 hrow
      have hrowlen : row < build.rowToGroup.length := hlen ▸ hlt
      rw [← hiff row hlt, getD_of_lt _ hrowlen, List.getElem?_eq_getElem hrowlen, Option.some.injEq]
    rw [hrows]
    exact hcells g hgroup

theorem rowsIn_replicate (nRows : ℕ) : rowsIn (List.replicate nRows 0) 0 = List.range nRows := by
  unfold rowsIn groupRows
  rw [List.length_replicate]
  refine List.filter_eq_self.2 fun row hrow => ?_
  rw [getD_of_lt _ (by simpa using hrow), List.getElem_replicate]
  rfl

/-- With no key columns every row is in the one group. -/
theorem isGroupBy_of_no_keys {outs : List AggOutput} (hpos : 0 < nRows)
    (houts : List.Forall₂ (fun s o => ∀ g < 1,
      Meets fl fl64 s.1 s.2 (rowsIn (List.replicate nRows 0) g) g o) specs outs) :
    IsGroupBy fl fl64 [] specs nRows ⟨[], outs, 1⟩ [0] := by
  have hall : ∀ i j, SameKeys [] i j := fun _ _ c hc => absurd hc List.not_mem_nil
  refine ⟨rfl, rfl, fun r hr => ?_, List.pairwise_singleton _ _,
    fun row _ => ⟨0, List.mem_singleton_self 0, hall row 0⟩, ?_⟩
  · obtain rfl := List.mem_singleton.1 hr
    exact ⟨⟨hpos, hall 0 0⟩, fun row _ => Nat.zero_le row⟩
  · refine houts.imp fun s o hcells g hg => ?_
    obtain rfl : g = 0 := Nat.lt_one_iff.1 hg
    have hrows : keyRows [] nRows 0 = List.range nRows :=
      List.filter_eq_self.2 fun row _ => decide_eq_true (hall row 0)
    have hcell := hcells 0 Nat.one_pos
    rw [rowsIn_replicate] at hcell
    exact hrows ▸ hcell

/-- The columns of a group-by: none, or some that the key encoder accepts. -/
def Keyed (cols : List KeyColumn) (nRows : ℕ) : Prop := cols = [] ∨ Encodable cols nRows

theorem find?_of_keyed (hcols : Keyed cols nRows) : cols.find? (fun kc => kc.nRows != nRows) = none := by
  apply List.find?_eq_none.2
  intro c hc hne
  rcases hcols with rfl | hcols
  · exact absurd hc List.not_mem_nil
  · exact absurd (hcols.wf c hc).rows (bne_iff_ne.1 hne)

/-- The keyed rows are grouped by what the build finds. -/
theorem dispatchGroupby_of_encodable {g : GpuRun} {deviceOk : Bool} {runs : AggRuns}
    (hrows : nRows < 2 ^ 32) (hcols : Encodable cols nRows)
    (hfits : ∀ s ∈ specs, Fits nRows s.1 s.2)
    (hbuild : g.Sound deviceOk ((List.range nRows).map (encodeRow cols (fieldsFrom 0 cols))))
    (hruns : ∀ s a, specs[a]? = some s → ∀ rowToGroup nGroups, rowToGroup.length = nRows →
      (runs a rowToGroup nGroups).Completes fl s.1 s.2 rowToGroup nGroups) :
    ∃ out reps, dispatchGroupby fl fl64 g deviceOk runs cols specs nRows = .ok out ∧
      IsGroupBy fl fl64 cols specs nRows out reps := by
  set lanes := (List.range nRows).map (encodeRow cols (fieldsFrom 0 cols)) with hlanes
  have hlength : lanes.length = nRows := by simp [hlanes]
  have hencode : encodeKeys cols = .ok (lanes, ⟨fieldsFrom 0 cols, keyWidth cols, nRows⟩) :=
    (encodeKeys_eq_ok_iff cols _ _).2 ⟨nRows, hcols, rfl, rfl⟩
  unfold dispatchGroupby
  rw [find?_of_keyed (.inr hcols)]
  dsimp only
  rw [if_neg hcols.ne_nil, hencode]
  by_cases hzero : nRows = 0
  · have hempty : IsGroupBy fl fl64 cols specs nRows ⟨cols.map fun c => ⟨c.dtype, [], []⟩,
        specs.map fun s => emptyOutputFor s.1, 0⟩ [] :=
      hzero.symm ▸ emptyOutputs _ rfl rfl rfl
    refine ⟨_, [], ?_, hempty⟩
    show (if nRows = 0 then _ else _) = _
    rw [if_pos hzero]
    show (decode [] _ >>= _) = _
    rw [show decode [] _ = _ from decode_rows hcols.width [] nRows]
    rfl
  have hpos : 0 < nRows := Nat.pos_of_ne_zero hzero
  obtain ⟨build, hout, hgroups⟩ := @groups_dispatchBuild g deviceOk lanes (hlength.symm ▸ hrows) hbuild
  rw [hlength] at hout
  have hids : build.rowToGroup.length = nRows := hgroups.length_ids.trans hlength
  obtain ⟨outs, houts, hmeets⟩ := @runAggs_meets fl fl64 specs build.rowToGroup build.nGroups runs
    (hids.symm ▸ hpos) (hids.symm ▸ hrows) (hids.symm ▸ hfits)
    fun s a hs => hruns s a hs _ _ hids
  -- the representatives' lanes are their rows', encoded
  have hreps : build.firstRowPerGroup.map (fun row => lanes.getD row 0) =
      build.firstRowPerGroup.map (encodeRow cols (fieldsFrom 0 cols)) := by
    refine List.map_congr_left fun r hr => ?_
    obtain ⟨g, hg, rfl⟩ := List.mem_iff_getElem.1 hr
    obtain ⟨r, hread, hleast⟩ := hgroups.least g (hgroups.length_firsts ▸ hg)
    obtain rfl := Option.some.inj ((List.getElem?_eq_getElem hg).symm.trans hread)
    have hrow : build.firstRowPerGroup[g] < build.rowToGroup.length :=
      (List.getElem?_eq_some_iff.1 hleast.1).1
    rw [getD_of_lt _ (hrow.trans_eq (hids.trans hlength.symm))]
    simp only [hlanes, List.getElem_map, List.getElem_range]
  refine ⟨_, build.firstRowPerGroup, ?_, isGroupBy_of_groups hcols hgroups hmeets⟩
  show (if nRows = 0 then _ else _) = _
  rw [if_neg hzero, hout]
  show (runAggs fl fl64 runs specs build.rowToGroup build.nGroups >>= _) = _
  rw [houts]
  show (decode (build.firstRowPerGroup.map (fun row => lanes.getD row 0)) _ >>= _) = _
  rw [hreps, decode_rows hcols.width]
  rfl

/-- The group-by is the relational one, whatever the build and the devices do with their time. -/
theorem dispatchGroupby_isGroupBy {g : GpuRun} {deviceOk : Bool} {runs : AggRuns}
    (hrows : nRows < 2 ^ 32) (hcols : Keyed cols nRows) (hfits : ∀ s ∈ specs, Fits nRows s.1 s.2)
    (hbuild : g.Sound deviceOk ((List.range nRows).map (encodeRow cols (fieldsFrom 0 cols))))
    (hruns : ∀ s a, specs[a]? = some s → ∀ rowToGroup nGroups, rowToGroup.length = nRows →
      (runs a rowToGroup nGroups).Completes fl s.1 s.2 rowToGroup nGroups) :
    ∃ out reps, dispatchGroupby fl fl64 g deviceOk runs cols specs nRows = .ok out ∧
      IsGroupBy fl fl64 cols specs nRows out reps := by
  rcases hcols with rfl | hcols
  · by_cases hzero : nRows = 0
    · refine ⟨⟨[], specs.map fun s => emptyOutputFor s.1, 0⟩, [], ?_,
        hzero.symm ▸ emptyOutputs _ rfl rfl rfl⟩
      show (if nRows = 0 then _ else _) = _
      rw [if_pos hzero]
    · have hlen : (List.replicate nRows 0).length = nRows := List.length_replicate
      have hpos := Nat.pos_of_ne_zero hzero
      obtain ⟨outs, houts, hmeets⟩ := @runAggs_meets fl fl64 specs (List.replicate nRows 0) 1 runs
        (hlen.symm ▸ hpos) (hlen.symm ▸ hrows) (hlen.symm ▸ hfits)
        fun s a hs => hruns s a hs _ _ hlen
      refine ⟨⟨[], outs, 1⟩, [0], ?_, isGroupBy_of_no_keys hpos hmeets⟩
      show (if nRows = 0 then _ else (runAggs fl fl64 runs specs (List.replicate nRows 0) 1 >>= _)) = _
      rw [if_neg hzero, houts]
      rfl
  · exact dispatchGroupby_of_encodable hrows hcols hfits hbuild hruns

end Groups

theorem exists_run (fl : F32Ops) (kind : AggKind) (vcol : ValueColumn) (rowToGroup : List ℕ)
    (nGroups : ℕ) : ∃ run : AggRun, run.Completes fl kind vcol rowToGroup nGroups := by
  have hlaunch : ∃ launch : F32Launch, ∀ k data valid, kernelOf fl kind = some k →
      vcol = .f32 data valid →
      launch.Completes k ⟨data, valid, rowToGroup, rowToGroup.length, nGroups⟩ := by
    rcases hkernel : kernelOf fl kind with _ | k
    · exact ⟨⟨fun _ _ _ => Shape.row 0, []⟩, fun k data valid hk => by cases hk⟩
    cases vcol with
    | f32 data valid =>
      obtain ⟨launch, hcomplete⟩ :=
        exists_completes k ⟨data, valid, rowToGroup, rowToGroup.length, nGroups⟩
      refine ⟨launch, fun k' data' valid' hk hcol => ?_⟩
      cases hk
      cases hcol
      exact hcomplete
    | i64 | f64 | i32 => exact ⟨⟨fun _ _ _ => Shape.row 0, []⟩, fun k data valid _ hcol => by cases hcol⟩
  obtain ⟨launch, hcomplete⟩ := hlaunch
  exact ⟨⟨List.range rowToGroup.length, launch, .leaf⟩, .refl _, hcomplete⟩

/-- The devices can run every aggregate to its end. -/
theorem exists_runs (fl : F32Ops) (specs : List (AggKind × ValueColumn)) (nRows : ℕ) :
    ∃ runs : AggRuns, ∀ s a, specs[a]? = some s → ∀ rowToGroup nGroups, rowToGroup.length = nRows →
      (runs a rowToGroup nGroups).Completes fl s.1 s.2 rowToGroup nGroups := by
  have hrun : ∀ (a : ℕ) (rowToGroup : List ℕ) (nGroups : ℕ), ∃ run : AggRun, ∀ s, specs[a]? = some s →
      run.Completes fl s.1 s.2 rowToGroup nGroups := by
    intro a rowToGroup nGroups
    rcases specs[a]? with _ | s
    · obtain ⟨run, -⟩ := exists_run fl .len (.f32 [] []) rowToGroup nGroups
      exact ⟨run, fun s hs => by cases hs⟩
    · obtain ⟨run, hcomplete⟩ := exists_run fl s.1 s.2 rowToGroup nGroups
      refine ⟨run, fun s' hs => ?_⟩
      cases hs
      exact hcomplete
  choose runs hruns using hrun
  exact ⟨runs, fun s a hs rowToGroup nGroups _ => hruns a rowToGroup nGroups s hs⟩

/-! A sample: the keys 1 and 2 in turn over 500000 rows, which the GPU build is tried for. -/

def sampleKeys : List KeyColumn :=
  [⟨"k", .i32, (List.replicate 250000 [1, 0, 0, 0, 2, 0, 0, 0]).flatten, List.replicate 62500 0xFF,
    a1RowsThreshold, none⟩]

def sampleSpecs : List (AggKind × ValueColumn) :=
  [(.sumI64, .i64 (List.replicate 250000 [10, 20]).flatten (List.replicate 62500 0xFF)),
    (.maxI32, .i32 (List.replicate 250000 [4, 5]).flatten (List.replicate 62500 7)),
    (.len, .i32 [] [])]

theorem sampleKeys_encodable : Encodable sampleKeys a1RowsThreshold := by
  refine ⟨List.cons_ne_nil _ _, fun c hc => ?_, by decide⟩
  rw [List.mem_singleton.1 hc]
  refine ⟨rfl, fun h => (by cases h), ?_, (List.length_replicate (n := 62500)).ge⟩
  exact (show needData .i32 a1RowsThreshold = 250000 * 8 by decide).trans_le
    (length_flatten_replicate 250000 [1, 0, 0, 0, 2, 0, 0, 0]).ge

theorem sampleSpecs_fits : ∀ s ∈ sampleSpecs, Fits a1RowsThreshold s.1 s.2 := by
  refine List.forall_mem_cons.2 ⟨?_, List.forall_mem_cons.2 ⟨⟨?_, ?_⟩, ?_⟩⟩
  · exact (length_flatten_replicate 250000 [10, 20]).ge
  · exact (length_flatten_replicate 250000 [4, 5]).ge
  · exact (List.length_replicate (n := 62500)).ge
  · exact List.forall_mem_singleton.2 trivial

theorem dispatchGroupby_isGroupBy_sample :
    ∃ schedule runs out reps,
      dispatchGroupby default default (hostLaunch a1RowsThreshold schedule) true runs sampleKeys
          sampleSpecs a1RowsThreshold = .ok out ∧
        IsGroupBy default default sampleKeys sampleSpecs a1RowsThreshold out reps := by
  obtain ⟨runs, hruns⟩ := exists_runs default sampleSpecs a1RowsThreshold
  have hlen : ((List.range a1RowsThreshold).map
      (encodeRow sampleKeys (fieldsFrom 0 sampleKeys))).length = a1RowsThreshold := by
    rw [List.length_map, List.length_range]
  have hrows : a1RowsThreshold + 256 < 2 ^ 32 := by decide
  obtain ⟨schedule, hsound⟩ := exists_sound true (hlen.symm ▸ hrows)
  rw [hlen] at hsound
  obtain ⟨out, reps, hout, hgroup⟩ := @dispatchGroupby_isGroupBy default default sampleKeys sampleSpecs
    a1RowsThreshold (hostLaunch a1RowsThreshold schedule) true runs (by decide)
    (.inr sampleKeys_encodable) sampleSpecs_fits hsound hruns
  exact ⟨schedule, runs, out, reps, hout, hgroup⟩

end PolarsMetal.GroupBy.Pipeline
