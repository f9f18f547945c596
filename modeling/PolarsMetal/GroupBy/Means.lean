import PolarsMetal.GroupBy.Bindings
import PolarsMetal.GroupBy.AggPaths
import PolarsMetal.Lib.Wrapping

/-! The numerators of integer means. Every path accumulates them in words of the column's own
width: 32-bit atomics on the device, 64-bit wrapping adds on the CPU. -/

namespace PolarsMetal.GroupBy
open Bitmap Fallible Reads Reduce

/-! The CPU sum of a 64-bit column. -/

/-- How the parallel iterator divides the rows: runs folded by one worker, joined pairwise. -/
inductive Split where
  | leaf (rows : List ℕ)
  | node (left right : Split)

def Split.rows : Split → List ℕ
  | leaf rows => rows
  | node left right => left.rows ++ right.rows

/-- The fold of one worker. -/
def sumI64Leaf (values : List (BitVec 64)) (valid : List UInt8) (rowToGroup : List ℕ)
    (nGroups : ℕ) (rows : List ℕ) : List (BitVec 64) :=
  rows.foldl (fun acc i =>
    if bitAt valid i = 0 then acc
    else acc.modify (rowToGroup.getD i 0) (fun old => old + values.getD i 0))
    (List.replicate nGroups 0)

/-- `split` covers the rows below the shorter of the two lengths. -/
def aggregateSumI64Cpu (values : List (BitVec 64)) (valid : List UInt8) (rowToGroup : List ℕ)
    (nGroups : ℕ) : Split → List (BitVec 64)
  | .leaf rows => sumI64Leaf values valid rowToGroup nGroups rows
  | .node left right =>
    List.zipWith (fun x y => x + y) (aggregateSumI64Cpu values valid rowToGroup nGroups left)
      (aggregateSumI64Cpu values valid rowToGroup nGroups right)

/-- Double-precision arithmetic on bit patterns. -/
structure F64Ops where
  ofI64 : BitVec 64 → BitVec 64
  ofU64 : ℕ → BitVec 64
  div : BitVec 64 → BitVec 64 → BitVec 64

def computeMeanI64 (fl : F64Ops) (sums : List (BitVec 64)) (counts : List ℕ) :
    List (Option (BitVec 64)) :=
  (sums.zip counts).map (fun (s, c) =>
    if c = 0 then none else some (fl.div (fl.ofI64 s) (fl.ofU64 c)))

def meanFromSumCountI64 (fl : F64Ops) (sums : List (BitVec 64)) (counts : List ℕ) : AggOutput :=
  let means := computeMeanI64 fl sums counts
  .f64 (means.map (fun m => m.getD 0)) (means.map Option.isSome)

/-- The mean of a 64-bit integer column on the per-aggregate path. -/
def runMeanI64 (fl : F64Ops) (data : List (BitVec 64)) (valid : List UInt8) (rowToGroup : List ℕ)
    (nGroups : ℕ) (split : Split) : AggOutput :=
  let sums := aggregateSumI64Cpu data valid rowToGroup nGroups split
  let counts := aggregateCountCpu valid rowToGroup nGroups
  meanFromSumCountI64 fl sums counts

/-! What the numerators are. -/

section Numerators

variable {w : ℕ} (rowToGroup : List ℕ) (data : List (BitVec w)) (valid : List UInt8)

/-- A group's valid rows among `rows`. -/
def validAmong (rows : List ℕ) (g : ℕ) : List ℕ :=
  (rows.filter (fun row => rowToGroup.getD row 0 = g)).filter (fun row => bitAt valid row != 0)

/-- A group's valid values, in row order. -/
def groupWords (rows : List ℕ) (g : ℕ) : List (BitVec w) :=
  (validAmong rowToGroup valid rows g).map (fun row => data.getD row 0)

/-- The exact sum of a group's valid values. -/
def groupSum (g : ℕ) : ℤ :=
  Wrapping.exactSum (groupWords rowToGroup data valid (List.range rowToGroup.length) g)

/-- Every group's numerator is the exact sum of its valid values. -/
def NumeratorsExact (sums : List (BitVec w)) (nGroups : ℕ) : Prop :=
  ∀ g < nGroups, (sums.getD g 0).toInt = groupSum rowToGroup data valid g

/-- Every group's sum fits the width of the column. -/
def SumsFit (nGroups : ℕ) : Prop :=
  ∀ g < nGroups, Wrapping.InRange w (groupSum rowToGroup data valid g)

/-- Every group's denominator is its number of valid rows. -/
def CountsValid (counts : List ℕ) (nGroups : ℕ) : Prop :=
  ∀ g < nGroups, counts.getD g 0 = (validRows rowToGroup rowToGroup.length valid g).length

variable {rowToGroup data valid}

theorem validAmong_cons (i : ℕ) (rows : List ℕ) (g : ℕ) :
    validAmong rowToGroup valid (i :: rows) g =
      if rowToGroup.getD i 0 = g ∧ bitAt valid i ≠ 0 then i :: validAmong rowToGroup valid rows g
      else validAmong rowToGroup valid rows g := by
  unfold validAmong
  by_cases hgroup : rowToGroup.getD i 0 = g
  · rw [List.filter_cons_of_pos (by simpa only [decide_eq_true_eq] using hgroup), List.filter_cons]
    by_cases hbit : bitAt valid i = 0
    · rw [if_neg (by simp [hbit]), if_neg (fun h => h.2 hbit)]
    · rw [if_pos (by simp [hbit]), if_pos ⟨hgroup, hbit⟩]
  · rw [List.filter_cons_of_neg (by simpa only [decide_eq_true_eq] using hgroup),
      if_neg (fun h => hgroup h.1)]

theorem validAmong_append (rows rows' : List ℕ) (g : ℕ) :
    validAmong rowToGroup valid (rows ++ rows') g =
      validAmong rowToGroup valid rows g ++ validAmong rowToGroup valid rows' g := by
  simp only [validAmong, List.filter_append]

theorem numeratorsExact_iff (hw : 0 < w) {sums : List (BitVec w)} {nGroups : ℕ}
    (h : ∀ g < nGroups, sums.getD g 0 = total (Wrapping.addReduction w)
      (groupWords rowToGroup data valid (List.range rowToGroup.length) g)) :
    NumeratorsExact rowToGroup data valid sums nGroups ↔ SumsFit rowToGroup data valid nGroups := by
  unfold NumeratorsExact SumsFit groupSum
  refine forall₂_congr fun g hg => ?_
  rw [h g hg]
  exact Wrapping.toInt_total_eq_iff hw _

end Numerators

/-- The words the 32-bit kernels fold are the group's valid values. -/
theorem groupUpdates_validValue (rowToGroup : List ℕ) (data : List Word) (valid : List UInt8)
    (rows : List ℕ) (g : ℕ) :
    groupUpdates rowToGroup (validValue data valid) rows g =
      groupWords rowToGroup data valid rows g := by
  unfold groupUpdates groupWords validAmong
  induction rows.filter (fun row => rowToGroup.getD row 0 = g) with
  | nil => rfl
  | cons row rows ih =>
    rw [List.filterMap_cons, List.filter_cons, validValue]
    by_cases hbit : bitAt valid row = 0
    · simpa [hbit] using ih
    · simpa [hbit] using ih

/-! The CPU path. -/

section Cpu

variable {values : List (BitVec 64)} {valid : List UInt8} {rowToGroup : List ℕ} {nGroups : ℕ}

theorem length_aggregateSumI64Cpu (split : Split) :
    (aggregateSumI64Cpu values valid rowToGroup nGroups split).length = nGroups := by
  induction split with
  | leaf rows =>
    unfold aggregateSumI64Cpu sumI64Leaf
    generalize hacc : List.replicate nGroups (0 : BitVec 64) = acc
    have hlen : acc.length = nGroups := by rw [← hacc, List.length_replicate]
    clear hacc
    induction rows generalizing acc with
    | nil => exact hlen
    | cons i rows ih =>
      rw [List.foldl_cons]
      refine ih _ ?_
      split_ifs
      · exact hlen
      · rwa [List.length_modify]
  | node left right ihl ihr => simp [aggregateSumI64Cpu, ihl, ihr]

theorem getD_sumI64Leaf (rows : List ℕ) {g : ℕ} (hg : g < nGroups) :
    (sumI64Leaf values valid rowToGroup nGroups rows).getD g 0 =
      total (Wrapping.addReduction 64) (groupWords rowToGroup values valid rows g) := by
  have hrun : ∀ acc : List (BitVec 64), g < acc.length →
      (rows.foldl (fun acc i => if bitAt valid i = 0 then acc
        else acc.modify (rowToGroup.getD i 0) (fun old => old + values.getD i 0)) acc).getD g 0 =
      acc.getD g 0 + total (Wrapping.addReduction 64) (groupWords rowToGroup values valid rows g) := by
    induction rows with
    | nil => intro acc _; exact (BitVec.add_zero _).symm
    | cons i rows ih =>
      intro acc hacc
      rw [List.foldl_cons]
      unfold groupWords
      rw [validAmong_cons]
      by_cases hbit : bitAt valid i = 0
      · rw [if_pos hbit, ih acc hacc, if_neg (fun h => h.2 hbit), groupWords]
      · rw [if_neg hbit, ih _ (by rwa [List.length_modify]), getD_of_lt _ hacc,
          getD_of_lt _ (by rwa [List.length_modify])]
        by_cases hgroup : rowToGroup.getD i 0 = g
        · subst hgroup
          rw [if_pos ⟨rfl, hbit⟩, List.map_cons, total_cons, List.getElem_modify_eq]
          exact BitVec.add_assoc _ _ _
        · rw [if_neg (fun h => hgroup h.1), List.getElem_modify_ne _ _ hgroup, groupWords]
  rw [sumI64Leaf, hrun _ (by simpa using hg), getD_of_lt _ (by simpa using hg),
    List.getElem_replicate]
  exact BitVec.zero_add _

/-- However the rows are divided, a cell is the wrapped sum of its group's valid values. -/
theorem getD_aggregateSumI64Cpu (split : Split) {g : ℕ} (hg : g < nGroups) :
    (aggregateSumI64Cpu values valid rowToGroup nGroups split).getD g 0 =
      total (Wrapping.addReduction 64) (groupWords rowToGroup values valid split.rows g) := by
  induction split with
  | leaf rows => exact getD_sumI64Leaf rows hg
  | node left right ihl ihr =>
    have hl : g < (aggregateSumI64Cpu values valid rowToGroup nGroups left).length := by
      rwa [length_aggregateSumI64Cpu]
    have hr : g < (aggregateSumI64Cpu values valid rowToGroup nGroups right).length := by
      rwa [length_aggregateSumI64Cpu]
    rw [getD_of_lt _ hl] at ihl
    rw [getD_of_lt _ hr] at ihr
    have hlen : g < (aggregateSumI64Cpu values valid rowToGroup nGroups (.node left right)).length := by
      rwa [length_aggregateSumI64Cpu]
    rw [Split.rows, groupWords, validAmong_append, List.map_append, total_append, getD_of_lt _ hlen]
    simp only [aggregateSumI64Cpu, List.getElem_zipWith]
    exact congrArg₂ (· + ·) ihl ihr

theorem getD_aggregateCountCpu {g : ℕ} (hg : g < nGroups) :
    (aggregateCountCpu valid rowToGroup nGroups).getD g 0 =
      (validRows rowToGroup rowToGroup.length valid g).length := by
  change _ = (validAmong rowToGroup valid (List.range rowToGroup.length) g).length
  unfold aggregateCountCpu
  have hrun : ∀ (rows : List ℕ) (acc : List ℕ), g < acc.length →
      (rows.foldl (fun counts i => if bitAt valid i = 0 then counts
        else counts.modify (rowToGroup.getD i 0) (fun c => c + 1)) acc).getD g 0 =
      acc.getD g 0 + (validAmong rowToGroup valid rows g).length := by
    intro rows
    induction rows with
    | nil => intro acc _; rfl
    | cons i rows ih =>
      intro acc hacc
      rw [List.foldl_cons, validAmong_cons]
      by_cases hbit : bitAt valid i = 0
      · rw [if_pos hbit, ih acc hacc, if_neg (fun h => h.2 hbit)]
      · rw [if_neg hbit, ih _ (by rwa [List.length_modify]),
          getD_of_lt _ (by rwa [List.length_modify]), getD_of_lt _ hacc]
        by_cases hgroup : rowToGroup.getD i 0 = g
        · subst hgroup
          rw [if_pos ⟨rfl, hbit⟩, List.length_cons, List.getElem_modify_eq]
          omega
        · rw [if_neg (fun h => hgroup h.1), List.getElem_modify_ne _ _ hgroup]
  rw [hrun _ _ (by simpa using hg), getD_of_lt _ (by simpa using hg), List.getElem_replicate,
    Nat.zero_add]

end Cpu

/-! The 32-bit atomics. -/

section Device

variable {fl : F32Ops} {rowToGroup : List ℕ} {nGroups : ℕ} {threads : List ℕ} {data : List Word}
  {valid : List UInt8}

theorem getD_dispatchAggI32 {sums : List Word}
    (hthreads : threads.Perm (List.range rowToGroup.length))
    (h : dispatchAggI32 aggSumI32 0 data valid rowToGroup rowToGroup.length nGroups threads = .ok sums)
    {g : ℕ} (hg : g < nGroups) :
    sums.getD g 0 = total (Wrapping.addReduction 32)
      (groupWords rowToGroup data valid (List.range rowToGroup.length) g) := by
  rw [← groupUpdates_validValue]
  unfold dispatchAggI32 at h
  split_ifs at h with hzero
  · obtain rfl := Except.ok.inj h
    rw [hzero, getD_of_lt _ (by simpa using hg), List.getElem_replicate]
    rfl
  · obtain rfl := Except.ok.inj h
    have hcell := @getD_foldl_aggThread addReduction data valid rowToGroup rowToGroup.length nGroups
      threads hthreads g hg
    exact hcell

theorem total_validOnes (rows : List ℕ) (hrows : ∀ row ∈ rows, row < rowToGroup.length) (g : ℕ) :
    total addReduction (groupUpdates rowToGroup
        (validValue (List.replicate rowToGroup.length 1) valid) rows g) =
      BitVec.ofNat 32 (validAmong rowToGroup valid rows g).length := by
  rw [groupUpdates_validValue, groupWords, total_ones, List.length_map]
  intro x hx
  obtain ⟨row, hrow, rfl⟩ := List.mem_map.1 hx
  have hlt := hrows row (List.mem_of_mem_filter (List.mem_of_mem_filter hrow))
  rw [getD_of_lt _ (by simpa using hlt), List.getElem_replicate]

theorem length_validAmong_le (g : ℕ) :
    (validAmong rowToGroup valid (List.range rowToGroup.length) g).length ≤ rowToGroup.length := by
  calc (validAmong rowToGroup valid (List.range rowToGroup.length) g).length
      ≤ _ := List.length_filter_le _ _
    _ ≤ _ := List.length_filter_le _ _
    _ = rowToGroup.length := List.length_range

theorem getD_dispatchCountU32 {counts : List Word}
    (hthreads : threads.Perm (List.range rowToGroup.length))
    (h : dispatchCountU32 valid rowToGroup rowToGroup.length nGroups threads = .ok counts)
    {g : ℕ} (hg : g < nGroups) :
    (counts.getD g 0).toNat = (validRows rowToGroup rowToGroup.length valid g).length := by
  change _ = (validAmong rowToGroup valid (List.range rowToGroup.length) g).length
  unfold dispatchCountU32 at h
  split_ifs at h with hzero hover
  · obtain rfl := Except.ok.inj h
    rw [hzero, getD_of_lt _ (by simpa using hg), List.getElem_replicate]
    rfl
  · obtain rfl := Except.ok.inj h
    rw [countThread_eq]
    have hcell := @getD_foldl_aggThread addReduction (List.replicate rowToGroup.length 1) valid
      rowToGroup rowToGroup.length nGroups threads hthreads g hg
    refine (congrArg BitVec.toNat hcell).trans ?_
    rw [total_validOnes _ (fun row => List.mem_range.1), BitVec.toNat_ofNat]
    have hle := @length_validAmong_le rowToGroup valid g
    exact Nat.mod_eq_of_lt (by omega)

/-- A mean of the per-aggregate path divides the words of the two kernels. -/
theorem runOneAgg_meanI32 {out : AggOutput}
    (h : runOneAgg fl .meanI32 (.i32 data valid) rowToGroup nGroups threads = .ok out) :
    ∃ sums counts,
      dispatchAggI32 aggSumI32 0 data valid rowToGroup rowToGroup.length nGroups threads = .ok sums ∧
      dispatchCountU32 valid rowToGroup rowToGroup.length nGroups threads = .ok counts ∧
      out = meanFromSumCount fl.ofI32 fl sums counts := by
  unfold runOneAgg at h
  obtain ⟨sums, hsums, h⟩ := bind_eq_ok.1 h
  obtain ⟨counts, hcounts, h⟩ := bind_eq_ok.1 h
  exact ⟨sums, counts, hsums, hcounts, (pure_eq_ok.1 h).symm⟩

end Device

/-! The fused kernel. -/

section Fused

variable {fl : F32Ops} {specs : List AggSpec} {byName : ValueColumns} {nRows : ℕ}
  {build : BuildOutput} {colDtypes : ColDtypes} {sig : AggSignature} {inp : KernelInput}

theorem fusedPrepare_caps (h : fusedPrepare specs byName nRows build = .ok (colDtypes, sig, inp)) :
    build.nGroups ≤ maxGroups ∧ nRows < 2 ^ 32 := by
  rw [fusedPrepare] at h
  obtain ⟨colDtypes', -, h⟩ := bind_eq_ok.1 h
  obtain ⟨sig', -, h⟩ := bind_eq_ok.1 h
  obtain ⟨-, h⟩ := guard_eq_ok.1 h
  obtain ⟨hcap, h⟩ := guard_eq_ok.1 h
  obtain ⟨buffers, -, h⟩ := bind_eq_ok.1 h
  obtain ⟨hrows, -⟩ := guard_eq_ok.1 h
  exact ⟨Nat.not_lt.1 hcap, Nat.not_le.1 hrows⟩

/-- A 32-bit integer column as the kernel sees it. -/
structure BoundColumn (colDtypes : ColDtypes) (sig : AggSignature) (inp : KernelInput) (nRows : ℕ)
    (col : String) (data : List Word) (valid : List UInt8) : Prop where
  dtype : colDtypes.lookup col = some .i32
  sigDtype : columnDtypeFor sig col = some .i32
  mem : col ∈ inp.columnOrder
  rowValid : ∀ row < nRows,
    inp.rowValid (inp.columnOrder.idxOf col) row = (bitAt valid row != 0)
  rowValue : ∀ row, inp.rowValue (inp.columnOrder.idxOf col) row = data.getD row 0

theorem boundColumn_fusedPrepare
    (h : fusedPrepare specs byName nRows build = .ok (colDtypes, sig, inp)) {col name : String}
    {op : AggOp} (hspec : .simple col op name ∈ specs) {data : List Word} {valid : List UInt8}
    (hcol : byName.lookup col = some (.i32 data valid)) :
    BoundColumn colDtypes sig inp nRows col data valid := by
  obtain ⟨hsig, buffers, rfl, hbuffers⟩ := fusedPrepare_inv h
  have hmem := hsig.used _ hspec col (by simp [AggSpec.referencedColumns])
  obtain ⟨dt, hdt⟩ := exists_dtype hsig hmem
  have hsdt : sig.columnDtypes[sig.columnOrder.idxOf col]? = some dt :=
    (hsig.interned.dtype col hmem).symm.trans hdt
  obtain ⟨hi, -⟩ := List.getElem?_eq_some_iff.1 hsdt
  have hname : sig.columnOrder[sig.columnOrder.idxOf col]? = some col := by
    rw [List.getElem?_eq_getElem (List.idxOf_lt_length_iff.2 hmem), List.getElem_idxOf]
  have hlen := hbuffers.length_eq
  simp only [List.length_zipIdx, List.length_zip] at hlen
  have hlt : sig.columnOrder.idxOf col < buffers.length := by
    have := List.idxOf_lt_length_iff.2 hmem
    omega
  obtain ⟨col', hcol', hwords, hvalid, helem⟩ :=
    staged_column hbuffers hname hsdt (List.getElem?_eq_getElem hlt)
  obtain rfl := Option.some.inj (hcol.symm.trans hcol')
  -- the only dtype bound to an integer buffer is the column's own
  have hpair : (sig.columnOrder.zip sig.columnDtypes)[sig.columnOrder.idxOf col]? =
      some (col, dt) := List.getElem?_zip_eq_some.2 ⟨hname, hsdt⟩
  have hzip : (sig.columnOrder.zip sig.columnDtypes).zipIdx[sig.columnOrder.idxOf col]? =
      some ((col, dt), sig.columnOrder.idxOf col) := by
    rw [List.getElem?_zipIdx, hpair, Option.map_some, Nat.zero_add]
  obtain ⟨hi', hentry⟩ := List.getElem?_eq_some_iff.1 hzip
  have hslot := hbuffers.get hi' hlt
  simp only [List.get_eq_getElem, hentry] at hslot
  obtain rfl : dt = .i32 := by
    simp only [slotBuffers, hcol, bind_eq_ok] at hslot
    obtain ⟨words, hwords, -⟩ := hslot
    cases dt <;> first | rfl | cases hwords
  refine ⟨hdt, (columnDtypeFor_eq hsig hmem).trans hdt, hmem, fun row hrow => ?_, fun row => ?_⟩
  · rw [KernelInput.rowValid, kernelInput, List.getD_eq_getElem?_getD, List.getElem?_map,
      List.getElem?_eq_getElem hlt, Option.map_some, Option.getD_some, hvalid]
    exact congrArg (· != 0) (bitAt_take hrow)
  · rw [KernelInput.rowValue, kernelInput, List.getD_eq_getElem?_getD (l := List.map _ _),
      List.getElem?_map, List.getElem?_eq_getElem hlt, Option.map_some, Option.getD_some, hwords]
    rfl

/-- A mean of the fused path, and the cells it divides. -/
theorem runFusedAgg_mean (h : fusedPrepare specs byName nRows build = .ok (colDtypes, sig, inp))
    {grid : Grid} (hgrid : (gridRows grid).Perm (List.range nRows)) {order : FlushOrder}
    (horder : ∀ a j, (order a j).Perm (fusedFlushes fl specs sig inp grid a j))
    {col name : String} {a : ℕ} (ha : specs[a]? = some (.simple col .mean name)) {data : List Word}
    {valid : List UInt8} (hcol : byName.lookup col = some (.i32 data valid))
    (hrows : build.rowToGroup.length = nRows) {out : AggOutput}
    (hout : runFusedAgg fl inp sig colDtypes order (.simple col .mean name, a) = .ok out) :
    out = meanFromSumCount fl.ofI32 fl
        (runFlushes fl .i32Sum (List.replicate build.nGroups 0) (order a 0))
        (runFlushes fl .counter (List.replicate build.nGroups 0) (order a 1)) ∧
      (∀ g < build.nGroups,
        (runFlushes fl .i32Sum (List.replicate build.nGroups 0) (order a 0)).getD g 0 =
          total (Wrapping.addReduction 32)
            (groupWords build.rowToGroup data valid (List.range build.rowToGroup.length) g)) ∧
      ∀ g < build.nGroups,
        ((runFlushes fl .counter (List.replicate build.nGroups 0) (order a 1)).getD g 0).toNat =
          (validRows build.rowToGroup build.rowToGroup.length valid g).length := by
  subst hrows
  have hspec := List.mem_of_getElem? ha
  have hb := boundColumn_fusedPrepare h hspec hcol
  obtain ⟨hcap, hlt⟩ := fusedPrepare_caps h
  obtain ⟨-, buffers, hinp, -⟩ := fusedPrepare_inv h
  have hr2g : inp.rowToGroup = build.rowToGroup := by rw [hinp]; rfl
  have hgroups : inp.nGroups = build.nGroups := by rw [hinp]; rfl
  have hslots : aggSlots sig (.simple col .mean name) = [.i32Sum, .counter] := by
    simp only [aggSlots, hb.sigDtype, Option.getD_some, sumKindFor]
  have hsum := horder a 0
  have hcount := horder a 1
  rw [fusedFlushes, ha] at hsum hcount
  simp only [hslots, List.getD_cons_zero, List.getD_cons_succ] at hsum hcount
  refine ⟨?_, fun g hg => ?_, fun g hg => ?_⟩
  · simp only [runFusedAgg, allocationOf, hb.dtype, hslots, hgroups] at hout
    exact (Except.ok.inj hout).symm
  · have hcell := getD_runFlushes (computes_i32Sum fl) hgrid hsum (hgroups ▸ hcap) (hgroups ▸ hg)
    rw [hgroups, hr2g] at hcell
    refine hcell.trans ?_
    rw [← groupUpdates_validValue, groupUpdates_congr (fun row hrow => ?_) g]
    · rfl
    · rw [aggRowUpdate, if_pos hb.mem, validValue]
      simp only [hb.rowValid row (List.mem_range.1 hrow), hb.rowValue, if_true]
      by_cases hbit : bitAt valid row = 0 <;> simp [hbit]
  · have hcell := getD_runFlushes (computes_counter fl) hgrid hcount (hgroups ▸ hcap) (hgroups ▸ hg)
    rw [hgroups, hr2g] at hcell
    refine (congrArg BitVec.toNat hcell).trans ?_
    change _ = (validAmong build.rowToGroup valid (List.range build.rowToGroup.length) g).length
    have hle := @length_validAmong_le build.rowToGroup valid g
    have hones := @total_validOnes build.rowToGroup valid (List.range build.rowToGroup.length)
      (fun row => List.mem_range.1) g
    rw [groupUpdates_congr (fun row hrow => ?_) g, hones, BitVec.toNat_ofNat,
      Nat.mod_eq_of_lt (by omega)]
    rw [aggRowUpdate, if_pos hb.mem, validValue, getD_of_lt _ (by simpa using hrow),
      List.getElem_replicate]
    simp only [hb.rowValid row (List.mem_range.1 hrow)]
    by_cases hbit : bitAt valid row = 0 <;> simp [hbit]

end Fused

/-- One run of the fused kernel's atomics. -/
structure FusedSchedule (fl : F32Ops) (specs : List AggSpec) (byName : ValueColumns) (nRows : ℕ)
    (build : BuildOutput) (grid : Grid) (order : FlushOrder) : Prop where
  rows : build.rowToGroup.length = nRows
  partition : (gridRows grid).Perm (List.range nRows)
  flushes : ∀ colDtypes sig inp, fusedPrepare specs byName nRows build = .ok (colDtypes, sig, inp) →
    ∀ a j, (order a j).Perm (fusedFlushes fl specs sig inp grid a j)

theorem getD_map_toNat {counts : List Word} (g : ℕ) :
    (counts.map BitVec.toNat).getD g 0 = (counts.getD g 0).toNat := by
  rw [List.getD_eq_getElem?_getD, List.getD_eq_getElem?_getD, List.getElem?_map]
  cases counts[g]? <;> rfl

/-- The three ways an integer column's mean is computed. On each, the output divides these sums by
the groups' numbers of valid rows, and the sums are exact precisely when every group's sum fits
the width of the column. -/
theorem mean_numerators_exact_iff (fl : F32Ops) (fl64 : F64Ops) :
    (∀ (data : List Word) (valid : List UInt8) (rowToGroup : List ℕ) (nGroups : ℕ)
        (threads : List ℕ) (out : AggOutput), threads.Perm (List.range rowToGroup.length) →
      runOneAgg fl .meanI32 (.i32 data valid) rowToGroup nGroups threads = .ok out →
      ∃ sums counts, dispatchAggI32 aggSumI32 0 data valid rowToGroup rowToGroup.length nGroups
          threads = .ok sums ∧
        out = meanFromSumCount fl.ofI32 fl sums counts ∧
        CountsValid rowToGroup valid (counts.map BitVec.toNat) nGroups ∧
        (NumeratorsExact rowToGroup data valid sums nGroups ↔
          SumsFit rowToGroup data valid nGroups)) ∧
    (∀ (data : List (BitVec 64)) (valid : List UInt8) (rowToGroup : List ℕ)
        (nGroups : ℕ) (split : Split), rowToGroup.length ≤ data.length →
      split.rows = List.range (min data.length rowToGroup.length) →
      ∃ sums counts, sums = aggregateSumI64Cpu data valid rowToGroup nGroups split ∧
        runMeanI64 fl64 data valid rowToGroup nGroups split = meanFromSumCountI64 fl64 sums counts ∧
        CountsValid rowToGroup valid counts nGroups ∧
        (NumeratorsExact rowToGroup data valid sums nGroups ↔
          SumsFit rowToGroup data valid nGroups)) ∧
    ∀ (specs : List AggSpec) (byName : ValueColumns) (nRows : ℕ)
        (build : BuildOutput) (grid : Grid) (order : FlushOrder) (res : GroupByResult) (a : ℕ)
        (col name : String) (data : List Word) (valid : List UInt8),
      FusedSchedule fl specs byName nRows build grid order →
      dispatchGroupbyFused fl specs byName nRows build order = .ok res →
      specs[a]? = some (.simple col .mean name) → byName.lookup col = some (.i32 data valid) →
      ∃ sums counts, sums = runFlushes fl .i32Sum (List.replicate res.nGroups 0) (order a 0) ∧
        res.aggOutputs[a]? = some (meanFromSumCount fl.ofI32 fl sums counts) ∧
        CountsValid build.rowToGroup valid (counts.map BitVec.toNat) res.nGroups ∧
        (NumeratorsExact build.rowToGroup data valid sums res.nGroups ↔
          SumsFit build.rowToGroup data valid res.nGroups) := by
  refine ⟨fun data valid rowToGroup nGroups threads out hthreads hout => ?_,
    fun data valid rowToGroup nGroups split hlen hsplit => ?_,
    fun specs byName nRows build grid order res a col name data valid hs hres ha hcol => ?_⟩
  · obtain ⟨sums, counts, hsums, hcounts, rfl⟩ := runOneAgg_meanI32 hout
    refine ⟨sums, counts, hsums, rfl, fun g hg => ?_, ?_⟩
    · rw [getD_map_toNat, getD_dispatchCountU32 hthreads hcounts hg]
    · exact numeratorsExact_iff (by decide) (fun g hg => getD_dispatchAggI32 hthreads hsums hg)
  · rw [min_eq_right hlen] at hsplit
    refine ⟨_, _, rfl, rfl, fun g hg => getD_aggregateCountCpu hg, ?_⟩
    refine numeratorsExact_iff (by decide) (fun g hg => ?_)
    rw [getD_aggregateSumI64Cpu split hg, hsplit]
  · unfold dispatchGroupbyFused at hres
    by_cases hzero : nRows = 0
    · -- no rows, no groups
      rw [if_pos hzero] at hres
      obtain rfl := pure_eq_ok.1 hres
      have hempty : ∀ flushes, runFlushes fl .i32Sum [] flushes = [] := fun flushes =>
        List.length_eq_zero_iff.1 (length_runFlushes [] flushes)
      refine ⟨_, [], rfl, ?_, fun g hg => absurd hg (Nat.not_lt_zero g),
        fun _ g hg => absurd hg (Nat.not_lt_zero g), fun _ g hg => absurd hg (Nat.not_lt_zero g)⟩
      rw [List.getElem?_map, ha, Option.map_some, List.replicate_zero, hempty]
      rfl
    · rw [if_neg hzero] at hres
      obtain ⟨⟨colDtypes, sig, inp⟩, hprep, hres⟩ := bind_eq_ok.1 hres
      obtain ⟨outs, houts, hres⟩ := bind_eq_ok.1 hres
      obtain rfl := pure_eq_ok.1 hres
      have hall := forall₂_of_mapM houts
      have hentry : specs.zipIdx[a]? = some (.simple col .mean name, a) := by
        rw [List.getElem?_zipIdx, ha, Option.map_some, Nat.zero_add]
      obtain ⟨hi, hget⟩ := List.getElem?_eq_some_iff.1 hentry
      have hi' : a < outs.length := hall.length_eq ▸ hi
      have hout := hall.get hi hi'
      simp only [List.get_eq_getElem, hget] at hout
      obtain ⟨heq, hsums, hcounts⟩ := runFusedAgg_mean hprep hs.partition
        (hs.flushes colDtypes sig inp hprep) ha hcol hs.rows hout
      refine ⟨_, _, rfl, (List.getElem?_eq_getElem hi').trans (congrArg some heq), fun g hg => ?_,
        numeratorsExact_iff (by decide) hsums⟩
      rw [getD_map_toNat, hcounts g hg]

theorem mean_numerators_exact_iff_sample :
    (∃ sums counts, dispatchAggI32 aggSumI32 0 [3, 5] [3] [0, 0] 2 1 [1, 0] = .ok sums ∧
      meanFromSumCount (default : F32Ops).ofI32 default [8] [2] =
        meanFromSumCount (default : F32Ops).ofI32 default sums counts ∧
      CountsValid [0, 0] [3] (counts.map BitVec.toNat) 1 ∧
      (NumeratorsExact [0, 0] [3, 5] [3] sums 1 ↔ SumsFit (w := 32) [0, 0] [3, 5] [3] 1)) ∧
    (∃ sums counts, sums = aggregateSumI64Cpu [3, 5] [3] [0, 0] 1 (.node (.leaf [0]) (.leaf [1])) ∧
      runMeanI64 ⟨id, fun _ => 0, fun a _ => a⟩ [3, 5] [3] [0, 0] 1 (.node (.leaf [0]) (.leaf [1])) =
        meanFromSumCountI64 ⟨id, fun _ => 0, fun a _ => a⟩ sums counts ∧
      CountsValid [0, 0] [3] counts 1 ∧
      (NumeratorsExact [0, 0] [3, 5] [3] sums 1 ↔ SumsFit (w := 64) [0, 0] [3, 5] [3] 1)) ∧
    ∃ sums counts, sums = runFlushes default .i32Sum [0] [(0, 8)] ∧
      [AggOutput.f32 [0] [true]][0]? =
        some (meanFromSumCount (default : F32Ops).ofI32 default sums counts) ∧
      CountsValid [0, 0] [3] (counts.map BitVec.toNat) 1 ∧
      (NumeratorsExact [0, 0] [3, 5] [3] sums 1 ↔ SumsFit (w := 32) [0, 0] [3, 5] [3] 1) := by
  obtain ⟨hdevice, hcpu, hfused⟩ := mean_numerators_exact_iff default ⟨id, fun _ => 0, fun a _ => a⟩
  refine ⟨hdevice [3, 5] [3] [0, 0] 1 [1, 0] _ (by decide) rfl,
    hcpu [3, 5] [3] [0, 0] 1 (.node (.leaf [0]) (.leaf [1]))
      (by decide) rfl,
    hfused [.simple "v" .mean "m"] [("v", .i32 [3, 5] [3])] 2 ⟨[0, 0], [0], 1⟩ [[[[1], [0]]]]
      (fun a j => if a = 0 then if j = 0 then [(0, 8)] else if j = 1 then [(0, 2)] else [(0, 2)]
        else []) ⟨[.f32 [0] [true]], 1⟩ 0 "v" "m" [3, 5] [3] ⟨rfl, by decide, ?_⟩ rfl rfl rfl⟩
  intro colDtypes sig inp hprep a j
  have hval : fusedPrepare [.simple "v" .mean "m"] [("v", .i32 [3, 5] [3])] 2 ⟨[0, 0], [0], 1⟩ =
      .ok ([("v", .i32)], ⟨["v"], [.i32], [.simple 0 .mean .i32]⟩,
        ⟨[0, 0], 2, 1, ["v"], [.i32], [[3, 5]], [[3]]⟩) := rfl
  rw [hval] at hprep
  cases hprep
  rcases a with _ | a
  · rcases j with _ | _ | j <;> exact List.Perm.of_eq rfl
  · exact List.Perm.of_eq rfl

/-- Two values whose sum needs 33 bits: the numerator is negative. -/
theorem mean_of_two_wraps :
    runOneAgg default .meanI32 (.i32 [0x7FFFFFFF, 1] [3]) [0, 0] 1 [0, 1] =
        .ok (meanFromSumCount (default : F32Ops).ofI32 default [0x80000000] [2]) ∧
      dispatchAggI32 aggSumI32 0 [0x7FFFFFFF, 1] [3] [0, 0] 2 1 [0, 1] = .ok [0x80000000] ∧
      ¬ NumeratorsExact [0, 0] [0x7FFFFFFF, 1] [3] [(0x80000000 : Word)] 1 := by
  refine ⟨rfl, rfl, fun h => ?_⟩
  exact absurd (h 0 (by decide)) (by decide)

end PolarsMetal.GroupBy
