import PolarsMetal.GroupBy.FusedReduce
import PolarsMetal.Lib.Fallible

/-! The two aggregation paths side by side, for sums, minima, maxima, counts and
row counts over 32-bit integer columns. Their values always agree; their
validity agrees except for the minimum or maximum of a group without a valid
row, which only the per-aggregate path marks null. -/

namespace PolarsMetal.GroupBy
open Bitmap Fallible Reads Reduce

/-- A 32-bit integer column with a value and a validity bit for every row. -/
structure IntColumn (byName : ValueColumns) (nRows : ℕ) (col : String) (data : List Word)
    (valid : List UInt8) : Prop where
  lookup : byName.lookup col = some (.i32 data valid)
  data : nRows ≤ data.length
  valid : (nRows + 7) / 8 ≤ valid.length

def IntSpec (byName : ValueColumns) (nRows : ℕ) : AggSpec → Prop
  | .simple col op _ => op ∈ [AggOp.sum, .min, .max, .count] ∧
      ∃ data valid, IntColumn byName nRows col data valid
  | .expression _ _ _ => False
  | .length _ => True

/-- An assignment of the rows to at most `maxGroups` groups. -/
structure Assignment (nRows : ℕ) (build : BuildOutput) : Prop where
  rows : build.rowToGroup.length = nRows
  lt : ∀ g ∈ build.rowToGroup, g < build.nGroups
  cap : build.nGroups ≤ maxGroups

def Used (specs : List AggSpec) (col : String) : Prop :=
  ∃ spec ∈ specs, col ∈ spec.referencedColumns

theorem used_intColumn {byName : ValueColumns} {nRows : ℕ} {specs : List AggSpec}
    (h : ∀ spec ∈ specs, IntSpec byName nRows spec) {col : String} (hu : Used specs col) :
    ∃ data valid, IntColumn byName nRows col data valid := by
  obtain ⟨spec, hspec, hcol⟩ := hu
  have hint := h spec hspec
  cases spec with
  | simple c op _ =>
    obtain rfl : col = c := by simpa [AggSpec.referencedColumns] using hcol
    exact hint.2
  | expression e op _ => exact hint.elim
  | length _ => simp [AggSpec.referencedColumns] at hcol

/-! What the fused dispatcher binds. -/

theorem collectDtypes_spec {byName : ValueColumns} {nRows : ℕ} {specs : List AggSpec}
    (h : ∀ spec ∈ specs, IntSpec byName nRows spec) :
    ∃ colDtypes, collectDtypes byName specs = .ok colDtypes ∧
      ∀ col, Used specs col → colDtypes.lookup col = some .i32 := by
  obtain ⟨colDtypes, hrun, hall, hmem⟩ := foldlM_eq_ok (f := insertDtype byName)
    (l := specs.flatMap AggSpec.referencedColumns) (b := ([] : ColDtypes))
    (I := fun pre out => (∀ name dt, out.lookup name = some dt → dt = .i32) ∧
      ∀ name ∈ pre, (out.lookup name).isSome)
    ⟨by simp, by simp⟩ (by
      rintro pre name out hname ⟨hall, hmem⟩
      obtain ⟨spec, hspec, hcol⟩ := List.mem_flatMap.1 hname
      obtain ⟨data, valid, hcolumn⟩ := used_intColumn h ⟨spec, hspec, hcol⟩
      by_cases hin : (out.lookup name).isSome
      · refine ⟨out, by rw [insertDtype, if_pos hin], hall, fun n hn => ?_⟩
        rcases List.mem_append.1 hn with hn | hn
        · exact hmem n hn
        · rwa [List.mem_singleton.1 hn]
      · refine ⟨out ++ [(name, .i32)], ?_, fun n dt hn => ?_, fun n hn => ?_⟩
        · rw [insertDtype, if_neg hin, hcolumn.lookup]
          rfl
        · rw [List.lookup_append] at hn
          rcases hold : out.lookup n with _ | dt'
          · rw [hold, Option.none_or] at hn
            by_cases heq : n == name
            · simp only [List.lookup_cons, heq, Option.some.injEq] at hn
              exact hn.symm
            · simp [List.lookup_cons, heq] at hn
          · rw [hold, Option.some_or, Option.some.injEq] at hn
            exact hall n dt (hn ▸ hold)
        · rw [List.lookup_append]
          rcases List.mem_append.1 hn with hn | hn
          · simp [hmem n hn]
          · rw [List.mem_singleton.1 hn]
            simp)
  refine ⟨colDtypes, hrun, fun col hu => ?_⟩
  obtain ⟨spec, hspec, hcol⟩ := hu
  obtain ⟨dt, hdt⟩ := Option.isSome_iff_exists.1 (hmem col (List.mem_flatMap.2 ⟨spec, hspec, hcol⟩))
  rw [hdt, hall col dt hdt]

structure SlotsOf (specs : List AggSpec) (order : List String) (dtypes : List MetalDtype) : Prop where
  length : dtypes.length = order.length
  dtypes : ∀ d ∈ dtypes, d = .i32
  used : ∀ col ∈ order, Used specs col

theorem intern_slotsOf {specs : List AggSpec} {order : List String} {dtypes : List MetalDtype}
    (h : SlotsOf specs order dtypes) {col : String} (hu : Used specs col) :
    SlotsOf specs (intern col .i32 (order, dtypes)).1 (intern col .i32 (order, dtypes)).2 ∧
      col ∈ (intern col .i32 (order, dtypes)).1 ∧
      ∀ c ∈ order, c ∈ (intern col .i32 (order, dtypes)).1 := by
  unfold intern
  split_ifs with hin
  · exact ⟨h, hin, fun c hc => hc⟩
  · refine ⟨⟨by simp [h.length], fun d hd => ?_, fun c hc => ?_⟩, by simp,
      fun c hc => List.mem_append_left _ hc⟩
    · rcases List.mem_append.1 hd with hd | hd
      · exact h.dtypes d hd
      · exact List.mem_singleton.1 hd
    · rcases List.mem_append.1 hc with hc | hc
      · exact h.used c hc
      · rwa [List.mem_singleton.1 hc]

theorem fromSpecs_spec {byName : ValueColumns} {nRows : ℕ} {specs : List AggSpec}
    (h : ∀ spec ∈ specs, IntSpec byName nRows spec) {colDtypes : ColDtypes}
    (hdt : ∀ col, Used specs col → colDtypes.lookup col = some .i32) :
    ∃ sig, AggSignature.fromSpecs specs colDtypes = .ok sig ∧
      SlotsOf specs sig.columnOrder sig.columnDtypes ∧
      ∀ col, Used specs col → col ∈ sig.columnOrder := by
  obtain ⟨⟨⟨order, dtypes⟩, aggs⟩, hrun, hslots, hmem⟩ := foldlM_eq_ok
    (f := fun (st : (List String × List MetalDtype) × List CanonicalAgg) spec =>
      internSpec colDtypes st.1 spec >>= fun p => pure (p.1, st.2 ++ [p.2]))
    (l := specs) (b := ((([], []), []) : (List String × List MetalDtype) × List CanonicalAgg))
    (I := fun pre st => SlotsOf specs st.1.1 st.1.2 ∧
      ∀ spec ∈ pre, ∀ col ∈ spec.referencedColumns, col ∈ st.1.1)
    ⟨⟨rfl, by simp, by simp⟩, by simp⟩ (by
      rintro pre spec ⟨⟨order, dtypes⟩, aggs⟩ hspec ⟨hslots, hmem⟩
      have hint := h spec hspec
      cases spec with
      | simple col op name =>
        have hu : Used specs col := ⟨_, hspec, by simp [AggSpec.referencedColumns]⟩
        obtain ⟨hslots', hcol, hkeep⟩ := intern_slotsOf hslots hu
        refine ⟨(intern col .i32 (order, dtypes),
          aggs ++ [.simple (slotOf (intern col .i32 (order, dtypes)).1 col) op .i32]), ?_, hslots', ?_⟩
        · simp only [internSpec, lookupDtype, hdt col hu]
          rfl
        · intro spec' hspec' c hc
          rcases List.mem_append.1 hspec' with hspec' | hspec'
          · exact hkeep c (hmem spec' hspec' c hc)
          · rw [List.mem_singleton.1 hspec'] at hc
            obtain rfl : c = col := by simpa [AggSpec.referencedColumns] using hc
            exact hcol
      | expression e op name => exact hint.elim
      | length name =>
        refine ⟨((order, dtypes), aggs ++ [.length]), rfl, hslots, ?_⟩
        intro spec' hspec' c hc
        rcases List.mem_append.1 hspec' with hspec' | hspec'
        · exact hmem spec' hspec' c hc
        · rw [List.mem_singleton.1 hspec'] at hc
          simp [AggSpec.referencedColumns] at hc)
  refine ⟨⟨order, dtypes, aggs⟩, ?_, hslots, fun col hu => ?_⟩
  · rw [AggSignature.fromSpecs]
    exact bind_eq_ok.2 ⟨_, hrun, rfl⟩
  · obtain ⟨spec, hspec, hcol⟩ := hu
    exact hmem spec hspec col hcol

/-- The buffers bound for a 32-bit integer column. -/
def intBuffers (byName : ValueColumns) (nRows : ℕ) (col : String) : List Word × List UInt8 :=
  match byName.lookup col with
  | some (.i32 data valid) => (data, valid.take ((nRows + 7) / 8))
  | _ => ([], [])

theorem intBuffers_eq {byName : ValueColumns} {nRows : ℕ} {col : String} {data : List Word}
    {valid : List UInt8} (h : IntColumn byName nRows col data valid) :
    intBuffers byName nRows col = (data, valid.take ((nRows + 7) / 8)) := by
  rw [intBuffers, h.lookup]

theorem slotBuffers_eq {byName : ValueColumns} {nRows : ℕ} {col : String} {data : List Word}
    {valid : List UInt8} (h : IntColumn byName nRows col data valid) (slot : ℕ) :
    slotBuffers byName nRows ((col, .i32), slot) = .ok (intBuffers byName nRows col) := by
  have hlen : ¬ valid.length < (nRows + 7) / 8 := Nat.not_lt.2 h.valid
  rw [intBuffers_eq h]
  simp only [slotBuffers, h.lookup, vcolBytesForSlot]
  change (if valid.length < (nRows + 7) / 8 then _ else _) = _
  rw [if_neg hlen]
  rfl

/-- What the kernel sees of the specs' columns. -/
structure Bound (specs : List AggSpec) (byName : ValueColumns) (nRows : ℕ) (build : BuildOutput)
    (colDtypes : ColDtypes) (sig : AggSignature) (inp : KernelInput) : Prop where
  rowToGroup : inp.rowToGroup = build.rowToGroup
  nGroups : inp.nGroups = build.nGroups
  dtype : ∀ col, Used specs col → colDtypes.lookup col = some .i32
  sigDtype : ∀ col, Used specs col → columnDtypeFor sig col = some .i32
  mem : ∀ col, Used specs col → col ∈ inp.columnOrder
  valid : ∀ col data valid, Used specs col → IntColumn byName nRows col data valid →
    ∀ row < nRows, inp.rowValid (inp.columnOrder.idxOf col) row = (bitAt valid row != 0)
  value : ∀ col data valid, Used specs col → IntColumn byName nRows col data valid →
    ∀ row, inp.rowValue (inp.columnOrder.idxOf col) row = data.getD row 0

theorem fusedPrepare_bound {specs : List AggSpec} {byName : ValueColumns} {nRows : ℕ}
    {build : BuildOutput} (h : ∀ spec ∈ specs, IntSpec byName nRows spec)
    (hcap : build.nGroups ≤ maxGroups) (hrows : nRows < 2 ^ 32) :
    ∃ colDtypes sig inp, fusedPrepare specs byName nRows build = .ok (colDtypes, sig, inp) ∧
      Bound specs byName nRows build colDtypes sig inp := by
  obtain ⟨colDtypes, hcollect, hdt⟩ := collectDtypes_spec h
  obtain ⟨sig, hsig, hslots, hmem⟩ := fromSpecs_spec h hdt
  have hsupported : signatureSupportedByFused sig = true := by
    rw [signatureSupportedByFused, List.all_eq_true]
    intro d hd
    rw [hslots.dtypes d hd]
  have hbuffers : (sig.columnOrder.zip sig.columnDtypes).zipIdx.mapM (slotBuffers byName nRows) =
      .ok ((sig.columnOrder.zip sig.columnDtypes).zipIdx.map
        (fun entry => intBuffers byName nRows entry.1.1)) := by
    refine mapM_eq_ok (fun entry hentry => ?_)
    obtain ⟨⟨col, d⟩, slot⟩ := entry
    have hzip := List.of_mem_zip (List.fst_mem_of_mem_zipIdx hentry)
    obtain rfl := hslots.dtypes d hzip.2
    obtain ⟨data, valid, hcolumn⟩ := used_intColumn h (hslots.used col hzip.1)
    exact slotBuffers_eq hcolumn slot
  set buffers := (sig.columnOrder.zip sig.columnDtypes).zipIdx.map
    (fun entry => intBuffers byName nRows entry.1.1) with hbufs
  have hslot : ∀ col, Used specs col →
      buffers[sig.columnOrder.idxOf col]? = some (intBuffers byName nRows col) := by
    intro col hu
    have hlt : sig.columnOrder.idxOf col < sig.columnOrder.length :=
      List.idxOf_lt_length_iff.2 (hmem col hu)
    have hlt' : sig.columnOrder.idxOf col < sig.columnDtypes.length := by rwa [hslots.length]
    have hzip : (sig.columnOrder.zip sig.columnDtypes)[sig.columnOrder.idxOf col]? =
        some (col, .i32) := by
      rw [List.getElem?_zip_eq_some, List.getElem?_eq_getElem hlt, List.getElem?_eq_getElem hlt',
        List.getElem_idxOf hlt, hslots.dtypes _ (List.getElem_mem hlt')]
      exact ⟨rfl, rfl⟩
    rw [hbufs, List.getElem?_map, List.getElem?_zipIdx, hzip]
    rfl
  refine ⟨colDtypes, sig, kernelInput sig buffers nRows build, ?_, ⟨rfl, rfl, hdt, ?_, hmem, ?_, ?_⟩⟩
  · rw [fusedPrepare]
    refine bind_eq_ok.2 ⟨colDtypes, hcollect, bind_eq_ok.2 ⟨sig, by rw [hsig]; rfl, ?_⟩⟩
    refine guard_eq_ok.2 ⟨by simp [hsupported], guard_eq_ok.2 ⟨Nat.not_lt.2 hcap, ?_⟩⟩
    exact bind_eq_ok.2 ⟨buffers, hbuffers, guard_eq_ok.2 ⟨Nat.not_le.2 hrows, rfl⟩⟩
  · intro col hu
    have hlt : sig.columnOrder.idxOf col < sig.columnDtypes.length := by
      rw [hslots.length]
      exact List.idxOf_lt_length_iff.2 (hmem col hu)
    rw [columnDtypeFor, if_pos (hmem col hu), List.getElem?_eq_getElem hlt,
      hslots.dtypes _ (List.getElem_mem hlt)]
  · intro col data valid hu hcolumn row hrow
    rw [KernelInput.rowValid, kernelInput, List.getD_eq_getElem?_getD, List.getElem?_map,
      hslot col hu, intBuffers_eq hcolumn]
    simp only [Option.map_some, Option.getD_some, bitAt_take hrow]
  · intro col data valid hu hcolumn row
    rw [KernelInput.rowValue, kernelInput, List.getD_eq_getElem?_getD (l := List.map _ _),
      List.getElem?_map, hslot col hu, intBuffers_eq hcolumn]
    simp only [Option.map_some, Option.getD_some]

/-! What both paths compute for one spec. -/

/-- The reduction of a group's valid words. -/
def groupTotal (R : Reduction Word) (rowToGroup : List ℕ) (nRows : ℕ) (data : List Word)
    (valid : List UInt8) (g : ℕ) : Word :=
  total R (groupUpdates rowToGroup (validValue data valid) (List.range nRows) g)

def groupRows (rowToGroup : List ℕ) (nRows g : ℕ) : List ℕ :=
  (List.range nRows).filter (fun row => rowToGroup.getD row 0 = g)

def validRows (rowToGroup : List ℕ) (nRows : ℕ) (valid : List UInt8) (g : ℕ) : List ℕ :=
  (groupRows rowToGroup nRows g).filter (fun row => bitAt valid row != 0)

/-- A spec's output; `present` decides the validity of a minimum or a maximum. -/
def aggregateOutput (byName : ValueColumns) (nRows : ℕ) (build : BuildOutput)
    (present : List UInt8 → ℕ → Bool) : AggSpec → AggOutput
  | .simple col op _ =>
    match byName.lookup col with
    | some (.i32 data valid) =>
      let perGroup := fun R => (List.range build.nGroups).map
        (groupTotal R build.rowToGroup nRows data valid)
      match op with
      | .count => .u64 ((List.range build.nGroups).map
          (fun g => (validRows build.rowToGroup nRows valid g).length))
      | .min => .i32 (perGroup minReduction) ((List.range build.nGroups).map (present valid))
      | .max => .i32 (perGroup maxReduction) ((List.range build.nGroups).map (present valid))
      | _ => .i32 (perGroup addReduction) (List.replicate build.nGroups true)
    | _ => .u64 []
  | .expression _ _ _ => .u64 []
  | .length _ => .u64 ((List.range build.nGroups).map
      (fun g => (groupRows build.rowToGroup nRows g).length))

theorem groupUpdates_congr {rowToGroup : List ℕ} {update update' : ℕ → Option Word} {rows : List ℕ}
    (h : ∀ row ∈ rows, update row = update' row) (g : ℕ) :
    groupUpdates rowToGroup update rows g = groupUpdates rowToGroup update' rows g :=
  List.filterMap_congr (fun row hrow => h row (List.mem_filter.1 hrow).1)

/-- A group's count, as the counter word: one for each row that updates it. -/
theorem total_counter {rowToGroup : List ℕ} {nRows : ℕ} {keep : ℕ → Bool} (g : ℕ) :
    total addReduction (groupUpdates rowToGroup (fun row => if keep row then some 1 else none)
      (List.range nRows) g) =
        BitVec.ofNat 32 (((groupRows rowToGroup nRows g).filter keep).length) := by
  rw [total_ones]
  · rw [groupUpdates, groupRows, List.length_filterMap_eq_countP, List.countP_eq_length_filter]
    congr 3
    funext row
    by_cases hk : keep row <;> simp [hk]
  · intro x hx
    rw [groupUpdates, List.mem_filterMap] at hx
    obtain ⟨row, -, hrow⟩ := hx
    split_ifs at hrow
    exact (Option.some.inj hrow).symm

theorem length_groupRows_le (rowToGroup : List ℕ) (nRows g : ℕ) (keep : ℕ → Bool) :
    ((groupRows rowToGroup nRows g).filter keep).length ≤ nRows := by
  calc ((groupRows rowToGroup nRows g).filter keep).length
      ≤ (groupRows rowToGroup nRows g).length := List.length_filter_le _ _
    _ ≤ (List.range nRows).length := List.length_filter_le _ _
    _ = nRows := List.length_range

theorem map_range_of_getD {n : ℕ} {xs : List Word} (hlen : xs.length = n) {f : ℕ → Word}
    (h : ∀ g < n, xs.getD g 0 = f g) : xs = (List.range n).map f := by
  refine ext_getD 0 (by simpa using hlen) (fun g hg => ?_)
  rw [h g (hlen ▸ hg), getD_of_lt _ (by simpa [← hlen] using hg), List.getElem_map,
    List.getElem_range]

/-! The fused path. -/

section Fused

variable {fl : F32Ops} {specs : List AggSpec} {byName : ValueColumns} {nRows : ℕ}
  {build : BuildOutput} {colDtypes : ColDtypes} {sig : AggSignature} {inp : KernelInput}
  {grid : Grid} {order : List (ℕ × Word)}

theorem runFlushes_eq (hb : Bound specs byName nRows build colDtypes sig inp)
    (hcap : build.nGroups ≤ maxGroups) (hgrid : (gridRows grid).Perm (List.range nRows))
    {k : ReduceKind} {R : Reduction Word} (hk : Computes fl k R) {update update' : ℕ → Option Word}
    (horder : order.Perm (gridFlushes fl inp k update grid))
    (hupdate : ∀ row < nRows, update row = update' row) :
    runFlushes fl k (List.replicate inp.nGroups R.identity) order =
      (List.range build.nGroups).map (fun g =>
        total R (groupUpdates build.rowToGroup update' (List.range nRows) g)) := by
  refine map_range_of_getD (by rw [length_runFlushes, List.length_replicate, hb.nGroups])
    (fun g hg => ?_)
  rw [getD_runFlushes hk hgrid horder (hb.nGroups ▸ hcap) (hb.nGroups ▸ hg), hb.rowToGroup,
    groupUpdates_congr (fun row hrow => hupdate row (List.mem_range.1 hrow))]

theorem aggRowUpdate_value (hb : Bound specs byName nRows build colDtypes sig inp) {col name : String}
    {op : AggOp} (hop : op = .sum ∨ op = .min ∨ op = .max) (hu : Used specs col) {data : List Word}
    {valid : List UInt8} (hcolumn : IntColumn byName nRows col data valid) {row : ℕ}
    (hrow : row < nRows) :
    aggRowUpdate fl inp (.simple col op name) 0 row = validValue data valid row := by
  have hread : (if inp.rowValid (inp.columnOrder.idxOf col) row then
      some (inp.rowValue (inp.columnOrder.idxOf col) row) else none) = validValue data valid row := by
    rw [hb.valid col data valid hu hcolumn row hrow, hb.value col data valid hu hcolumn, validValue]
    by_cases hbit : bitAt valid row = 0 <;> simp [hbit]
  rw [aggRowUpdate, if_pos (hb.mem col hu)]
  obtain rfl | rfl | rfl := hop <;> exact hread

theorem aggRowUpdate_count (hb : Bound specs byName nRows build colDtypes sig inp) {col name : String}
    (hu : Used specs col) {data : List Word} {valid : List UInt8}
    (hcolumn : IntColumn byName nRows col data valid) {row : ℕ} (hrow : row < nRows) :
    aggRowUpdate fl inp (.simple col .count name) 0 row =
      if bitAt valid row != 0 then some 1 else none := by
  rw [aggRowUpdate, if_pos (hb.mem col hu)]
  simp only [hb.valid col data valid hu hcolumn row hrow]

theorem aggRowUpdate_length {name : String} (row : ℕ) :
    aggRowUpdate fl inp (.length name) 0 row = if true then some 1 else none := rfl

theorem toNat_counts (hrows : nRows < 2 ^ 32) (keep : ℕ → Bool) :
    ((List.range build.nGroups).map (fun g => total addReduction (groupUpdates build.rowToGroup
      (fun row => if keep row then some 1 else none) (List.range nRows) g))).map BitVec.toNat =
        (List.range build.nGroups).map
          (fun g => ((groupRows build.rowToGroup nRows g).filter keep).length) := by
  rw [List.map_map]
  refine List.map_congr_left (fun g _ => ?_)
  rw [Function.comp_apply, total_counter, BitVec.toNat_ofNat,
    Nat.mod_eq_of_lt ((length_groupRows_le _ _ _ _).trans_lt hrows)]

/-- One spec on the fused path: every group counts as valid. -/
theorem runFusedAgg_eq (hb : Bound specs byName nRows build colDtypes sig inp)
    (h : ∀ spec ∈ specs, IntSpec byName nRows spec) (hcap : build.nGroups ≤ maxGroups)
    (hrows : nRows < 2 ^ 32) (hgrid : (gridRows grid).Perm (List.range nRows))
    {order : FlushOrder} (horder : ∀ a j, (order a j).Perm (fusedFlushes fl specs sig inp grid a j))
    {spec : AggSpec} {a : ℕ} (ha : specs[a]? = some spec) :
    runFusedAgg fl inp sig colDtypes order (spec, a) =
      .ok (aggregateOutput byName nRows build (fun _ _ => true) spec) := by
  have hspec := List.mem_of_getElem? ha
  have hint := h spec hspec
  have hflush := horder a 0
  rw [fusedFlushes, ha] at hflush
  have hvalid : List.replicate inp.nGroups true = (List.range build.nGroups).map (fun _ => true) := by
    rw [hb.nGroups, List.map_const', List.length_range]
  cases spec with
  | simple col op name =>
    have hu : Used specs col := ⟨_, hspec, by simp [AggSpec.referencedColumns]⟩
    obtain ⟨hop, data, valid, hcolumn⟩ := hint
    have hdt := hb.dtype col hu
    have hsdt := hb.sigDtype col hu
    simp only [List.mem_cons, List.not_mem_nil, or_false] at hop
    obtain rfl | rfl | rfl | rfl := hop
    · have hrun := runFlushes_eq hb hcap hgrid (computes_i32Sum fl)
        (by simpa [aggSlots, hsdt, sumKindFor] using hflush)
        (fun row hrow => aggRowUpdate_value hb (.inl rfl) hu hcolumn hrow)
      simp only [runFusedAgg, allocationOf, hdt, aggSlots, hsdt, sumKindFor, aggregateOutput,
        hcolumn.lookup, Option.getD_some]
      refine congrArg Except.ok ?_
      simp only [finalizeSimpleLike, primaryKindFor, primarySeed, List.getD_cons_zero]
      exact congrArg₂ AggOutput.i32 hrun (by rw [hb.nGroups])
    · have hrun := runFlushes_eq hb hcap hgrid (computes_i32Min fl)
        (by simpa [aggSlots, hsdt, minKindFor] using hflush)
        (fun row hrow => aggRowUpdate_value hb (.inr (.inl rfl)) hu hcolumn hrow)
      simp only [runFusedAgg, allocationOf, hdt, aggSlots, hsdt, minKindFor, aggregateOutput,
        hcolumn.lookup, Option.getD_some]
      refine congrArg Except.ok ?_
      simp only [finalizeSimpleLike, primaryKindFor, primarySeed, List.getD_cons_zero]
      exact congrArg₂ AggOutput.i32 hrun hvalid
    · have hrun := runFlushes_eq hb hcap hgrid (computes_i32Max fl)
        (by simpa [aggSlots, hsdt, maxKindFor] using hflush)
        (fun row hrow => aggRowUpdate_value hb (.inr (.inr rfl)) hu hcolumn hrow)
      simp only [runFusedAgg, allocationOf, hdt, aggSlots, hsdt, maxKindFor, aggregateOutput,
        hcolumn.lookup, Option.getD_some]
      refine congrArg Except.ok ?_
      simp only [finalizeSimpleLike, primaryKindFor, primarySeed, List.getD_cons_zero]
      exact congrArg₂ AggOutput.i32 hrun hvalid
    · have hrun := runFlushes_eq hb hcap hgrid (computes_counter fl)
        (by simpa [aggSlots] using hflush)
        (fun row hrow => aggRowUpdate_count hb hu hcolumn hrow)
      simp only [runFusedAgg, allocationOf, hdt, aggSlots, aggregateOutput, hcolumn.lookup]
      refine congrArg Except.ok ?_
      simp only [finalizeSimpleLike, primarySeed, List.getD_cons_zero]
      exact congrArg AggOutput.u64 ((congrArg (List.map BitVec.toNat) hrun).trans
        (toNat_counts hrows _))
  | expression e op name => exact hint.elim
  | length name =>
    have hrun := runFlushes_eq hb hcap hgrid (computes_counter fl)
      (by simpa [aggSlots] using hflush) (fun row _ => aggRowUpdate_length row)
    simp only [runFusedAgg, allocationOf, aggSlots, aggregateOutput]
    refine congrArg Except.ok ?_
    simp only [finalizeSimpleLike, primarySeed, List.getD_cons_zero]
    refine congrArg AggOutput.u64 (((congrArg (List.map BitVec.toNat) hrun).trans
      (toNat_counts hrows (fun _ => true))).trans ?_)
    simp

end Fused

/-! The per-aggregate path. -/

section PerAgg

variable {byName : ValueColumns} {nRows : ℕ} {build : BuildOutput} {threads : List ℕ}

theorem dispatchAggI32_eq (hlen : build.rowToGroup.length = nRows) (hpos : 0 < nRows)
    (hrows : nRows < 2 ^ 32) (hthreads : threads.Perm (List.range nRows)) {data : List Word}
    {valid : List UInt8} (hdata : nRows ≤ data.length) (hvalid : (nRows + 7) / 8 ≤ valid.length)
    (R : Reduction Word) :
    dispatchAggI32 R.combine R.identity data valid build.rowToGroup nRows build.nGroups threads =
      .ok ((List.range build.nGroups).map (groupTotal R build.rowToGroup nRows data valid)) := by
  rw [dispatchAggI32, if_neg (by omega), if_neg (by omega), if_neg (Nat.not_lt.2 hdata),
    if_neg (by omega), if_neg (Nat.not_lt.2 hvalid)]
  exact congrArg Except.ok (map_range_of_getD (by rw [length_foldl_aggThread, List.length_replicate])
    (fun g hg => getD_foldl_aggThread hthreads hg))

theorem dispatchCountU32_eq (hlen : build.rowToGroup.length = nRows) (hpos : 0 < nRows)
    (hrows : nRows < 2 ^ 32) (hthreads : threads.Perm (List.range nRows)) {valid : List UInt8}
    (hvalid : (nRows + 7) / 8 ≤ valid.length) :
    dispatchCountU32 valid build.rowToGroup nRows build.nGroups threads =
      .ok ((List.range build.nGroups).map
        (fun g => BitVec.ofNat 32 (validRows build.rowToGroup nRows valid g).length)) := by
  have hdata : nRows ≤ (List.replicate nRows (1 : Word)).length := by simp
  have hagg := dispatchAggI32_eq hlen hpos hrows hthreads hdata hvalid addReduction
  have hones : ∀ g, groupTotal addReduction build.rowToGroup nRows (List.replicate nRows 1) valid g =
      BitVec.ofNat 32 (validRows build.rowToGroup nRows valid g).length := by
    intro g
    rw [validRows, ← total_counter, groupTotal]
    refine congrArg (total addReduction) (groupUpdates_congr (fun row hrow => ?_) g)
    have hlt : row < (List.replicate nRows (1 : Word)).length := by
      simpa using List.mem_range.1 hrow
    rw [validValue, getD_of_lt _ hlt, List.getElem_replicate]
    by_cases hbit : bitAt valid row = 0 <;> simp [hbit]
  rw [dispatchAggI32, if_neg (by omega), if_neg (by omega), if_neg (by simp),
    if_neg (by omega), if_neg (Nat.not_lt.2 hvalid)] at hagg
  rw [dispatchCountU32, if_neg (by omega), if_neg (by omega),
    if_neg (by omega), if_neg (Nat.not_lt.2 hvalid), countThread_eq]
  exact hagg.trans (congrArg Except.ok (List.map_congr_left (fun g _ => hones g)))

theorem countToValid_counts (hrows : nRows < 2 ^ 32) (valid : List UInt8) :
    countToValid ((List.range build.nGroups).map
        (fun g => BitVec.ofNat 32 (validRows build.rowToGroup nRows valid g).length)) =
      (List.range build.nGroups).map
        (fun g => decide (0 < (validRows build.rowToGroup nRows valid g).length)) := by
  rw [countToValid, List.map_map]
  refine List.map_congr_left (fun g _ => ?_)
  have hlt : (validRows build.rowToGroup nRows valid g).length < 2 ^ 32 :=
    (length_groupRows_le _ _ _ _).trans_lt hrows
  refine decide_eq_decide.2 ?_
  rw [BitVec.lt_def, BitVec.toNat_ofNat, Nat.mod_eq_of_lt hlt]
  rfl

/-- Counting rows into their groups, skipping some. -/
theorem foldl_modify_count (groupOf : ℕ → ℕ) (skip : ℕ → Prop) [DecidablePred skip]
    (rows : List ℕ) (nGroups : ℕ) :
    rows.foldl (fun counts i => if skip i then counts
        else counts.modify (groupOf i) (fun c => c + 1)) (List.replicate nGroups 0) =
      (List.range nGroups).map (fun g =>
        ((rows.filter (fun row => groupOf row = g)).filter (fun i => ¬ skip i)).length) := by
  induction rows using List.reverseRecOn with
  | nil => simp [List.map_const']
  | append_singleton rows i ih =>
    rw [List.foldl_append, ih, List.foldl_cons, List.foldl_nil]
    refine List.ext_getElem (by split_ifs <;> simp) (fun g hg hg' => ?_)
    by_cases hs : skip i
    · simp only [if_pos hs]
      by_cases hrow : groupOf i = g <;> simp [hs, hrow]
    · simp only [if_neg hs, List.getElem_modify]
      by_cases hrow : groupOf i = g <;> simp [hs, hrow]

theorem aggregateCountCpu_eq (hbuild : Assignment nRows build) (valid : List UInt8) :
    aggregateCountCpu valid build.rowToGroup build.nGroups =
      (List.range build.nGroups).map
        (fun g => (validRows build.rowToGroup nRows valid g).length) := by
  rw [aggregateCountCpu, hbuild.rows, foldl_modify_count (fun i => build.rowToGroup.getD i 0) (fun i => bitAt valid i = 0)]
  refine List.map_congr_left (fun g _ => congrArg List.length (List.filter_congr (fun row _ => ?_)))
  by_cases hbit : bitAt valid row = 0 <;> simp [hbit]

theorem aggregateLenCpu_eq (hbuild : Assignment nRows build) :
    aggregateLenCpu build.rowToGroup build.nGroups =
      (List.range build.nGroups).map (fun g => (groupRows build.rowToGroup nRows g).length) := by
  have hself : build.rowToGroup = (List.range nRows).map (fun i => build.rowToGroup.getD i 0) := by
    refine List.ext_getElem (by simp [hbuild.rows]) (fun i hi _ => ?_)
    rw [List.getElem_map, List.getElem_range, getD_of_lt _ hi]
  have hcount := foldl_modify_count (fun i => build.rowToGroup.getD i 0) (fun _ => False) (List.range nRows) build.nGroups
  rw [aggregateLenCpu]
  conv_lhs => rw [hself]
  rw [List.foldl_map]
  simpa [groupRows] using hcount

/-- A group's minimum or maximum is valid when one of its rows is. -/
def rowPresent (build : BuildOutput) (nRows : ℕ) (valid : List UInt8) (g : ℕ) : Bool :=
  0 < (validRows build.rowToGroup nRows valid g).length

theorem rowPresent_iff {valid : List UInt8} {g : ℕ} :
    rowPresent build nRows valid g = true ↔
      ∃ row < nRows, build.rowToGroup.getD row 0 = g ∧ bitAt valid row ≠ 0 := by
  rw [rowPresent, decide_eq_true_iff, List.length_pos_iff_exists_mem]
  simp only [validRows, groupRows, List.mem_filter, List.mem_range, decide_eq_true_iff, bne_iff_ne,
    and_assoc]

theorem requestOf_intSpec {spec : AggSpec} (hspec : IntSpec byName nRows spec) :
    ∃ req, requestOf byName spec = .ok req := by
  cases spec with
  | simple col op name =>
    obtain ⟨hop, data, valid, hcolumn⟩ := hspec
    rw [requestOf, hcolumn.lookup]
    simp only [List.mem_cons, List.not_mem_nil, or_false] at hop
    obtain rfl | rfl | rfl | rfl := hop <;> exact ⟨_, rfl⟩
  | expression e op name => exact hspec.elim
  | length name => exact ⟨_, rfl⟩

/-- One spec on the per-aggregate path. -/
theorem runOneAgg_eq {fl : F32Ops} (hbuild : Assignment nRows build) (hpos : 0 < nRows)
    (hrows : nRows < 2 ^ 32) (hthreads : threads.Perm (List.range nRows)) {spec : AggSpec}
    (hspec : IntSpec byName nRows spec) :
    ∃ req, requestOf byName spec = .ok req ∧
      runOneAgg fl req.1 req.2 build.rowToGroup build.nGroups threads =
        .ok (aggregateOutput byName nRows build (rowPresent build nRows) spec) := by
  have hlen := hbuild.rows
  cases spec with
  | simple col op name =>
    obtain ⟨hop, data, valid, hcolumn⟩ := hspec
    have hagg := dispatchAggI32_eq hlen hpos hrows hthreads hcolumn.data hcolumn.valid
    have hcounts := dispatchCountU32_eq hlen hpos hrows hthreads hcolumn.valid
    have hvalid := @countToValid_counts nRows build hrows valid
    simp only [List.mem_cons, List.not_mem_nil, or_false] at hop
    obtain rfl | rfl | rfl | rfl := hop
    · refine ⟨(.sumI32, .i32 data valid), by rw [requestOf, hcolumn.lookup]; rfl, ?_⟩
      simp only [runOneAgg, aggregateOutput, hcolumn.lookup, hlen]
      exact bind_eq_ok.2 ⟨_, hagg addReduction, rfl⟩
    · refine ⟨(.minI32, .i32 data valid), by rw [requestOf, hcolumn.lookup]; rfl, ?_⟩
      simp only [runOneAgg, aggregateOutput, hcolumn.lookup, hlen]
      exact bind_eq_ok.2 ⟨_, hagg minReduction, bind_eq_ok.2 ⟨_, hcounts, by rw [hvalid]; rfl⟩⟩
    · refine ⟨(.maxI32, .i32 data valid), by rw [requestOf, hcolumn.lookup]; rfl, ?_⟩
      simp only [runOneAgg, aggregateOutput, hcolumn.lookup, hlen]
      exact bind_eq_ok.2 ⟨_, hagg maxReduction, bind_eq_ok.2 ⟨_, hcounts, by rw [hvalid]; rfl⟩⟩
    · refine ⟨(.count, .i32 data valid), by rw [requestOf, hcolumn.lookup]; rfl, ?_⟩
      simp only [runOneAgg, aggregateOutput, hcolumn.lookup, aggregateCountCpu_eq hbuild]
  | expression e op name => exact hspec.elim
  | length name =>
    refine ⟨(.len, .i64 [] []), rfl, ?_⟩
    simp only [runOneAgg, aggregateOutput, aggregateLenCpu_eq hbuild]

end PerAgg

end PolarsMetal.GroupBy
