import PolarsMetal.Filter.NativeFilter
import PolarsMetal.Wire.RoundTrip

/-! The device filter against Polars' own. A frame of 64-bit and boolean columns comes back with the
rows whose predicate is true, in order and with every column's cells and nulls, whichever of the two
functions filters it and in whatever order the threads of any kernel run. -/

namespace PolarsMetal.Filter
open Bitmap Interleave Wire Framing Fallible Fusion TailCalls

/-! The reference. -/

/-- The frame with the rows that `keep` holds of. -/
def PolarsFrame.keepRows (df : PolarsFrame) (keep : ℕ → Bool) : List Wire.Series :=
  df.columns.map fun c =>
    ⟨c.1, ((List.range df.height).filter keep).map fun row => c.2.cells.getD row none⟩

/-- The dtypes the native compaction has a kernel for. -/
def compacted : DtypeTag → Bool
  | .i64 | .f64 | .bool => true
  | _ => false

def minDataBytes : DtypeTag → ℕ → ℕ
  | .bool, nRows => minBytes nRows
  | _, nRows => nRows * 8

/-- The cell of a row in a column's buffers. -/
def wireCell (paType : PaType) (data valid : List UInt8) (row : ℕ) : Option Cell :=
  if bitAt valid row = 1 then some (readCell paType data row) else none

/-- An exact scan, and kernels all of whose threads finish. -/
structure Device.Lawful (device : Device) (nRows : ℕ) : Prop where
  cumsum : ExactCumsum device.cumsum
  predicateOrder : ∀ gid < nRows, 1 ≤ device.predicateOrder.count gid
  scatterOrder : ∀ k, ∀ gid < nRows, 2 ≤ (device.scatterOrder k).count gid

/-! The kernels' threads take two turns at most. -/

theorem length_predicateThread_le (predData predValid : List UInt8) (nRows gid : ℕ) :
    (predicateThread predData predValid nRows gid).length ≤ 1 := by
  unfold predicateThread
  split_ifs
  · exact Nat.zero_le 1
  · exact le_refl 1
  · exact le_refl 1

theorem length_scatterThread64_le (sentinel : BitVec 64) (srcData : List (BitVec 64))
    (a : ScatterArgs) (gid : ℕ) : (scatterThread64 sentinel srcData a gid).length ≤ 2 := by
  unfold scatterThread64
  split_ifs <;> simp

theorem length_scatterThreadBool_le (srcData : List UInt8) (a : ScatterArgs) (gid : ℕ) :
    (scatterThreadBool srcData a gid).length ≤ 2 := by
  unfold scatterThreadBool
  split_ifs <;> simp

/-! One column. -/

theorem slot_table_take {xs : List (BitVec 64)} {n k : ℕ} {x : BitVec 64} (hk : k < n)
    (hx : xs[k]? = some x) : slot ((table 8 (xs.map BitVec.toNat)).take (n * 8)) k = x := by
  rw [slot, cell_take hk]
  refine slot_table ?_
  rw [List.getElem?_map, hx, Option.map_some]

/-- A column read back row by row. -/
theorem fromBuffers_rows {rows : List ℕ} {read : ℕ → Cell} {valid : List UInt8}
    {cellAt : ℕ → Option Cell}
    (h : ∀ k row, rows[k]? = some row →
      (if bitAt valid k = 1 then some (read k) else none) = cellAt row) :
    fromBuffers rows.length valid read = rows.map cellAt := by
  apply List.ext_getElem
  · rw [length_fromBuffers, List.length_map]
  · intro k hk _
    have hrow : k < rows.length := by rwa [length_fromBuffers] at hk
    simp only [fromBuffers, List.getElem_map, List.getElem_range]
    exact h k _ (List.getElem?_eq_getElem hrow)

/-- The survivors reassembled: the kernel's buffers have, at the `k`-th place, the bits of the
`k`-th row kept. -/
theorem assembleSeries_rows {rows : List ℕ} {name : String} {tag : DtypeTag} {paType : PaType}
    {data valid srcData srcValid : List UInt8} (hutf8 : tag ≠ .utf8)
    (hpa : tagToPa tag = some paType)
    (hdata : ∀ k row, rows[k]? = some row →
      readCell paType (trimData tag rows.length data) k = readCell paType srcData row)
    (hvalid : ∀ k row, rows[k]? = some row → bitAt valid k = bitAt srcValid row) :
    assembleSeries ⟨name, tag, data, valid⟩ rows.length =
      .ok ⟨name, rows.map (wireCell paType srcData srcValid)⟩ := by
  unfold assembleSeries
  simp only [hutf8, hpa, if_false]
  split_ifs with hnone
  · rw [List.eq_nil_of_length_eq_zero hnone]
    rfl
  · rw [fromBuffers_rows fun k row hrow => ?_]
    have hk : k < rows.length := (List.getElem?_eq_some_iff.1 hrow).1
    rw [bitAt_take hk, hvalid k row hrow, hdata k row hrow, wireCell]

section Column

variable {p : ℕ → Bool} {nRows : ℕ} {keep : List UInt8} {prefixSum : List ℕ} {order : List ℕ}
  (hrows : nRows < 2 ^ 32) (hkeepLen : keep.length = nRows) (hsumLen : prefixSum.length = nRows)
  (hkeep : ∀ row < nRows, keep.getD row 0 = if p row then 1 else 0)
  (hsum : ∀ row < nRows, prefixSum.getD row 0 = Nat.count (p ·) (row + 1))
  (horder : ∀ gid < nRows, 2 ≤ order.count gid)

/-- What compacting a column leaves is, reassembled, the column's cells at the rows kept. -/
def Survives (p : ℕ → Bool) (nRows : ℕ) (column : WireColumn) (out : Buffers) : Prop :=
  ∃ paType, tagToPa column.tag = some paType ∧
    assembleSeries ⟨column.name, column.tag, out.1, out.2⟩ ((List.range nRows).filter p).length =
      .ok ⟨column.name, ((List.range nRows).filter p).map (wireCell paType column.data column.valid)⟩

include hrows hkeepLen hsumLen hkeep hsum horder

theorem compactSlots_run {sentinel : BitVec 64} (hsentinel : sentinel ≠ 0) {column : WireColumn}
    (paType : PaType) (hutf8 : column.tag ≠ .utf8) (hpa : tagToPa column.tag = some paType)
    (htrim : ∀ n data, trimData column.tag n data = data.take (n * 8))
    (hread : ∀ a b : List UInt8, ∀ i j, slot a i = slot b j → readCell paType a i = readCell paType b j)
    (hvalid : minBytes nRows ≤ column.valid.length) (hdata : nRows * 8 ≤ column.data.length) :
    ∃ out, compactSlots (compact64 (dispatchScatter64 sentinel)) order nRows column keep prefixSum
        (Nat.count (p ·) nRows) = .ok out ∧ Survives p nRows column out := by
  have hlen : (srcTyped column.data nRows).length = nRows := by
    rw [srcTyped, List.length_map, List.length_range]
  have hcomplete : Complete (scatterThread64 sentinel (srcTyped column.data nRows)
      (scatterArgs column.valid keep prefixSum (srcTyped column.data nRows).length
        (Nat.count (p ·) (srcTyped column.data nRows).length)))
      (srcTyped column.data nRows).length order := by
    rw [hlen]
    exact fun gid hgid => (length_scatterThread64_le _ _ _ _).trans (horder gid hgid)
  obtain ⟨result, hrun, hfilters⟩ := compact64_run hsentinel (by rwa [hlen]) (by rwa [hlen])
    (by rwa [hlen]) (by rwa [hlen]) (by rwa [hlen]) (by rwa [hlen]) hcomplete
  rw [hlen] at hrun hfilters
  refine ⟨((table 8 (result.data.map BitVec.toNat)).take (result.nOut * 8), result.valid), ?_, ?_⟩
  · rw [compactSlots, if_neg (by omega), hrun]
    rfl
  refine ⟨paType, hpa, assembleSeries_rows hutf8 hpa (fun k row hrow => hread _ _ _ _ ?_)
    fun k row hrow => ?_⟩
  · have hk := (List.getElem?_eq_some_iff.1 hrow).1
    have hmem : row ∈ List.range nRows := List.mem_of_mem_filter (List.mem_of_getElem? hrow)
    rw [htrim, hfilters.nOut, List.take_take, Nat.min_self]
    refine slot_table_take hk ?_
    rw [hfilters.data, List.getElem?_map, hrow, Option.map_some, srcTyped, List.getD_eq_getElem?_getD,
      List.getElem?_map, List.getElem?_range (List.mem_range.1 hmem)]
    rfl
  · rw [hfilters.valid k, hrow]
    rfl

theorem compactBits_run {column : WireColumn} (htag : column.tag = .bool)
    (hvalid : minBytes nRows ≤ column.valid.length) (hdata : minBytes nRows ≤ column.data.length) :
    ∃ out, compactBits order nRows column keep prefixSum (Nat.count (p ·) nRows) = .ok out ∧
      Survives p nRows column out := by
  have hcomplete : Complete (scatterThreadBool (column.data.take (minBytes nRows))
      (scatterArgs column.valid keep prefixSum nRows (Nat.count (p ·) nRows))) nRows order :=
    fun gid hgid => (length_scatterThreadBool_le _ _ _).trans (horder gid hgid)
  obtain ⟨result, hrun, hfilters⟩ := compactBool_run hrows hkeepLen hsumLen hkeep hsum hdata hvalid
    hcomplete
  refine ⟨(result.data, result.valid), ?_, ?_⟩
  · rw [compactBits, if_neg (by omega), hrun]
    rfl
  have hpa : tagToPa column.tag = some .bool := by rw [htag]; rfl
  refine ⟨.bool, hpa, assembleSeries_rows (by rw [htag]; decide) hpa (fun k row hrow => ?_)
    fun k row hrow => ?_⟩
  · have hk := (List.getElem?_eq_some_iff.1 hrow).1
    rw [htag, trimData, readCell, readCell, bitAt_take hk, hfilters.data k, hrow]
    rfl
  · rw [hfilters.valid k, hrow]
    rfl

/-- A column with a kernel, and a column of any dtype when no row is kept. -/
theorem compactOneColumn_run {column : WireColumn} (hpa : (tagToPa column.tag).isSome)
    (hutf8 : column.tag ≠ .utf8) (hvalid : minBytes nRows ≤ column.valid.length)
    (hkernel : (List.range nRows).filter p = [] ∨
      compacted column.tag = true ∧ minDataBytes column.tag nRows ≤ column.data.length) :
    ∃ out, compactOneColumn order nRows column keep prefixSum (Nat.count (p ·) nRows) = .ok out ∧
      Survives p nRows column out := by
  unfold compactOneColumn
  rw [if_neg (by omega)]
  by_cases hnone : Nat.count (p ·) nRows = 0
  · obtain ⟨paType, hpa⟩ := Option.isSome_iff_exists.1 hpa
    have hempty : (List.range nRows).filter p = [] := by
      rw [← length_filter_range] at hnone
      exact List.eq_nil_of_length_eq_zero hnone
    rw [if_pos hnone]
    refine ⟨_, rfl, paType, hpa, ?_⟩
    rw [hempty]
    have hno : ∀ k row : ℕ, ¬([] : List ℕ)[k]? = some row := fun k row h => by
      rw [List.getElem?_nil] at h
      cases h
    exact assembleSeries_rows hutf8 hpa (fun k row h => absurd h (hno k row))
      fun k row h => absurd h (hno k row)
  rw [if_neg hnone]
  obtain hempty | ⟨hcompacted, hdata⟩ := hkernel
  · rw [← length_filter_range, hempty] at hnone
    exact absurd rfl hnone
  cases htag : column.tag with
  | i64 =>
    rw [htag] at hdata
    exact compactSlots_run hrows hkeepLen hsumLen hkeep hsum horder (by decide)
      .int64 hutf8 (by rw [htag]; rfl) (fun n data => by rw [htag]; rfl)
      (fun a b i j h => congrArg (fun x : BitVec 64 => Cell.int x.toInt) h) hvalid hdata
  | f64 =>
    rw [htag] at hdata
    exact compactSlots_run hrows hkeepLen hsumLen hkeep hsum horder (by decide)
      .float64 hutf8 (by rw [htag]; rfl) (fun n data => by rw [htag]; rfl)
      (fun a b i j h => congrArg Cell.f64 h) hvalid hdata
  | bool =>
    rw [htag] at hdata
    exact compactBits_run hrows hkeepLen hsumLen hkeep hsum horder htag hvalid hdata
  | _ =>
    rw [htag] at hcompacted
    cases hcompacted

end Column

/-! The frame on the wire. -/

/-- What Python hands over for a column the device can take. -/
structure Carries (height : ℕ) (column : String × PolarsSeries) (w : WireColumn) : Prop where
  name : w.name = column.1
  tag : dtypeToTag column.2.dtype = some w.tag
  known : (tagToPa w.tag).isSome
  utf8 : w.tag ≠ .utf8
  valid : minBytes height ≤ w.valid.length
  data : compacted w.tag = true → minDataBytes w.tag height ≤ w.data.length
  cells : compacted w.tag = true → ∀ paType, tagToPa w.tag = some paType → ∀ row < height,
    wireCell paType w.data w.valid row = column.2.cells.getD row none

theorem getValid_eq_true {bytes : List UInt8} {row : ℕ} :
    getValid bytes row = true ↔ bitAt bytes row = 1 := by
  rw [← bitAt_beq_one, beq_iff_eq]

/-- Reading a row of an array that holds a series: null where its cell is, and the cell's value
otherwise, if the slots have the values. -/
theorem wireCell_holds {arr : ArrowArray} {s : PolarsSeries} (h : arr.Holds s) {paType : PaType}
    {data : List UInt8} (hread : ∀ (row : ℕ) c, s.cells[row]? = some (some c) → readCell paType data row = c)
    {row : ℕ} (hrow : row < s.cells.length) :
    wireCell paType data (padTo (minBytes s.cells.length)
      (arr.valid.getD (allOnesBitmap s.cells.length))) row = s.cells.getD row none := by
  obtain ⟨c, hc⟩ : ∃ c, s.cells[row]? = some c := ⟨_, List.getElem?_eq_getElem hrow⟩
  have hvalid := h.getValid hc
  rw [List.getD_eq_getElem?_getD, hc, Option.getD_some, wireCell]
  cases c with
  | none =>
    rw [if_neg]
    rw [← getValid_eq_true, hvalid]
    decide
  | some c => rw [if_pos (getValid_eq_true.1 hvalid), hread row c hc]

section Input

variable {P : Type} {rt : Runtime P} (hmaterialize : ∀ s : PolarsSeries, s.Typed → (rt.materialize s).Holds s)

include hmaterialize

theorem columnInput_of {name : String} {s : PolarsSeries} (hs : s.Typed) (tag : DtypeTag)
    {paType : PaType} {size : ℕ} (htag : dtypeToTag s.dtype = some tag)
    (hpa : tagToPa tag = some paType) (hutf8 : tag ≠ .utf8)
    (hpack : ∀ arr : ArrowArray, dataAndValidForDtype arr s.cells.length (planDtype tag) =
      .ok (padTo size arr.bytes, padTo (minBytes s.cells.length)
        (arr.valid.getD (allOnesBitmap s.cells.length))))
    (hsize : compacted tag = true → minDataBytes tag s.cells.length ≤ size)
    (hread : compacted tag = true → ∀ (row : ℕ) c, s.cells[row]? = some (some c) →
      readCell paType (padTo size (rt.materialize s).bytes) row = c) :
    ∃ w, columnInput rt s.cells.length (name, s) = .ok w ∧ Carries s.cells.length (name, s) w := by
  refine ⟨⟨name, tag, padTo size (rt.materialize s).bytes, padTo (minBytes s.cells.length)
    ((rt.materialize s).valid.getD (allOnesBitmap s.cells.length))⟩, ?_, ?_⟩
  · simp only [columnInput, htag, hpack]
  refine ⟨rfl, htag, Option.isSome_iff_exists.2 ⟨paType, hpa⟩, hutf8, length_padTo _ _,
    fun h => (hsize h).trans (length_padTo _ _), fun h paType' hpa' row hrow => ?_⟩
  obtain rfl : paType = paType' := Option.some.inj (hpa.symm.trans hpa')
  exact wireCell_holds (hmaterialize s hs) (hread h) hrow

/-- Every column that is not left to Polars is packed; what the buffers of a 32-bit column hold does
not matter. -/
theorem columnInput_carries {height : ℕ} {column : String × PolarsSeries}
    (hlen : column.2.cells.length = height) (hs : column.2.Typed)
    (hcol : uncompactable column.2.dtype = false) :
    ∃ w, columnInput rt height column = .ok w ∧ Carries height column w := by
  obtain ⟨name, s⟩ := column
  subst hlen
  have h := hmaterialize s hs
  have hcells : ∀ (row : ℕ) c, s.cells[row]? = some (some c) → hasDtype s.dtype c :=
    fun row c hc => hs c (List.mem_of_getElem? hc)
  rw [uncompactable, Bool.or_eq_false_iff] at hcol
  obtain ⟨hstring, htag⟩ := hcol
  cases hdtype : s.dtype with
  | int64 =>
    obtain ⟨hlen, hslots⟩ := h.int64 hdtype
    refine columnInput_of hmaterialize hs .i64 (by rw [hdtype]; rfl) rfl (by decide)
      (fun _ => rfl) (fun _ => le_refl _) fun _ row c hc => ?_
    have hmap : mapDtype s.dtype = some .i64 := by rw [hdtype]; rfl
    obtain ⟨v, rfl, hlo, hhi⟩ := int_of_widen hmap rfl (hcells row c hc)
    rw [padTo_of_le hlen]
    change Cell.int (slot _ row).toInt = _
    rw [hslots row v hc, toInt_ofInt_of_fits hlo hhi]
  | float64 =>
    obtain ⟨hlen, hslots⟩ := h.float64 hdtype
    refine columnInput_of hmaterialize hs .f64 (by rw [hdtype]; rfl) rfl (by decide)
      (fun _ => rfl) (fun _ => le_refl _) fun _ row c hc => ?_
    have hmap : mapDtype s.dtype = some .f64 := by rw [hdtype]; rfl
    have hc' := float_of_widen hmap rfl (hcells row c hc)
    rw [hdtype] at hc'
    obtain ⟨-, bits, rfl⟩ | ⟨hsingle, -⟩ := hc'
    · rw [padTo_of_le hlen]
      exact congrArg Cell.f64 (hslots row bits hc)
    · cases hsingle
  | boolean =>
    refine columnInput_of hmaterialize hs .bool (by rw [hdtype]; rfl) rfl (by decide)
      (fun _ => rfl) (fun _ => le_refl _) fun _ row c hc => ?_
    have hc' := hcells row c hc
    rw [hdtype] at hc'
    cases c with
    | bool b => rw [readCell, bitAt_beq_one, getValid_padTo, h.boolean hdtype row b hc]
    | _ => simp [hasDtype, mapDtype, intRange] at hc'
  | int32 =>
    exact columnInput_of hmaterialize hs .i32 (by rw [hdtype]; rfl) rfl (by decide)
      (fun _ => rfl) (fun h => by cases h) fun h => by cases h
  | float32 =>
    exact columnInput_of hmaterialize hs .f32 (by rw [hdtype]; rfl) rfl (by decide)
      (fun _ => rfl) (fun h => by cases h) fun h => by cases h
  | other other =>
    simp only [hdtype, isString, dtypeToTag] at hstring htag
    split_ifs at htag with hname
    · simp [hname] at hstring
    · cases htag
  | _ =>
    simp [hdtype, isString, dtypeToTag] at hstring htag

end Input

/-- The native compaction has a kernel for the dtype. -/
def hasKernel (dtype : PolarsDtype) : Bool := (dtypeToTag dtype).any compacted

theorem Carries.hasKernel_eq {height : ℕ} {column : String × PolarsSeries} {w : WireColumn}
    (h : Carries height column w) : hasKernel column.2.dtype = compacted w.tag := by
  rw [hasKernel, h.tag]
  rfl

section Columns

variable {p : ℕ → Bool} {height : ℕ} {keep : List UInt8} {prefixSum : List ℕ} {device : Device}
  {columns : List (String × PolarsSeries)} {ws : List WireColumn}
  (hrows : height < 2 ^ 32) (hkeepLen : keep.length = height) (hsumLen : prefixSum.length = height)
  (hkeep : ∀ row < height, keep.getD row 0 = if p row then 1 else 0)
  (hsum : ∀ row < height, prefixSum.getD row 0 = Nat.count (p ·) (row + 1))
  (hdevice : device.Lawful height)

/-- The column with the rows kept. -/
def keptSeries (p : ℕ → Bool) (height : ℕ) (column : String × PolarsSeries) : Wire.Series :=
  ⟨column.1, ((List.range height).filter p).map fun row => column.2.cells.getD row none⟩

include hrows hkeepLen hsumLen hkeep hsum hdevice

/-- One column through the device and back. -/
theorem compactEntry_run {column : String × PolarsSeries} {w : WireColumn}
    (hw : Carries height column w)
    (hkernel : (List.range height).filter p = [] ∨ hasKernel column.2.dtype = true) (k : ℕ) :
    ∃ out, compactEntry device height keep prefixSum (Nat.count (p ·) height) (w, k) = .ok out ∧
      out.2.2 = Nat.count (p ·) height ∧
      reassembleColumn (Nat.count (p ·) height) (w, out) = .ok (keptSeries p height column) := by
  have hkernel' : (List.range height).filter p = [] ∨
      compacted w.tag = true ∧ minDataBytes w.tag height ≤ w.data.length := by
    refine hkernel.imp_right fun h => ?_
    rw [hw.hasKernel_eq] at h
    exact ⟨h, hw.data h⟩
  obtain ⟨out, hrun, paType, hpa, hout⟩ := compactOneColumn_run hrows hkeepLen hsumLen hkeep hsum
    (hdevice.scatterOrder k) hw.known hw.utf8 hw.valid hkernel'
  refine ⟨(out.1, out.2, Nat.count (p ·) height), ?_, rfl, ?_⟩
  · rw [compactEntry, hrun]
    rfl
  have hcells : ((List.range height).filter p).map (wireCell paType w.data w.valid) =
      ((List.range height).filter p).map fun row => column.2.cells.getD row none := by
    refine List.map_congr_left fun row hrow => ?_
    have hlt : row < height := List.mem_range.1 (List.mem_of_mem_filter hrow)
    rcases hkernel' with hempty | ⟨hcompacted, -⟩
    · rw [hempty] at hrow
      cases hrow
    · exact hw.cells hcompacted paType hpa row hlt
  rw [length_filter_range, hcells, hw.name] at hout
  simp only [reassembleColumn, ne_eq, not_true, if_false, hw.name, hout, keptSeries]

/-- Every column through the device and back. -/
theorem compactEntries_run (hws : List.Forall₂ (Carries height) columns ws)
    (hkernel : (List.range height).filter p = [] ∨ ∀ c ∈ columns, hasKernel c.2.dtype = true)
    (start : ℕ) :
    ∃ outs, (ws.zipIdx start).mapM (compactEntry device height keep prefixSum
        (Nat.count (p ·) height)) = .ok outs ∧ outs.length = ws.length ∧
      (∀ out ∈ outs, out.2.2 = Nat.count (p ·) height) ∧
      (ws.zip outs).mapM (reassembleColumn (Nat.count (p ·) height)) =
        .ok (columns.map (keptSeries p height)) := by
  induction hws generalizing start with
  | nil => exact ⟨[], rfl, rfl, by simp, rfl⟩
  | @cons column w columns ws hw hws ih =>
    obtain ⟨out, hrun, hcount, hback⟩ := compactEntry_run hrows hkeepLen hsumLen hkeep hsum hdevice hw
      (hkernel.imp_right fun h => h _ List.mem_cons_self) start
    obtain ⟨outs, hruns, hlen, hcounts, hbacks⟩ :=
      ih (hkernel.imp_right fun h => fun c hc => h c (List.mem_cons_of_mem _ hc)) (start + 1)
    refine ⟨out :: outs, ?_, congrArg (· + 1) hlen, List.forall_mem_cons.2 ⟨hcount, hcounts⟩, ?_⟩
    · rw [List.zipIdx_cons, List.mapM_cons, hrun, hruns]
      rfl
    · rw [List.zip_cons_cons, List.mapM_cons, hback, hbacks]
      rfl

/-- A row kept and a column without a kernel: the first such column is named. -/
theorem compactEntries_error (hws : List.Forall₂ (Carries height) columns ws)
    (hkept : (List.range height).filter p ≠ []) {column : String × PolarsSeries} {tag : DtypeTag}
    (hfind : columns.find? (fun c => !hasKernel c.2.dtype) = some column)
    (htag : dtypeToTag column.2.dtype = some tag) (start : ℕ) :
    (ws.zipIdx start).mapM (compactEntry device height keep prefixSum (Nat.count (p ·) height)) =
      .error (.notImplemented column.1 tag) := by
  induction hws generalizing start with
  | nil => cases hfind
  | @cons head w columns ws hw hws ih =>
    rw [List.zipIdx_cons, List.mapM_cons]
    rw [List.find?_cons] at hfind
    cases hhas : hasKernel head.2.dtype with
    | true =>
      simp only [hhas, Bool.not_true] at hfind
      obtain ⟨out, hrun, -, -⟩ := compactEntry_run hrows hkeepLen hsumLen hkeep hsum hdevice hw
        (Or.inr hhas) start
      rw [hrun, ih hfind]
      rfl
    | false =>
      simp only [hhas, Bool.not_false, Option.some.injEq] at hfind
      subst hfind
      obtain rfl : w.tag = tag := Option.some.inj (hw.tag.symm.trans htag)
      have hpos : Nat.count (p ·) height ≠ 0 := by
        rw [← length_filter_range]
        exact fun h => hkept (List.eq_nil_of_length_eq_zero h)
      rw [hw.hasKernel_eq] at hhas
      rw [compactEntry, compactOneColumn, if_neg (not_lt.2 hw.valid), if_neg hpos]
      cases htag : w.tag with
      | i64 => rw [htag] at hhas; cases hhas
      | f64 => rw [htag] at hhas; cases hhas
      | bool => rw [htag] at hhas; cases hhas
      | _ => rw [← hw.name]; rfl

end Columns

/-! The native entry point. -/

theorem executeFilterCompact_eq {device : Device} {pred : Buffers} {height : ℕ}
    {value : ℕ → Option Bool} (hrows : height < 2 ^ 32) (hdevice : device.Lawful height)
    (hpred : Encodes pred height value) :
    ∃ keep prefixSum, keep.length = height ∧ prefixSum.length = height ∧
      (∀ row < height, keep.getD row 0 = if decide (value row = some true) then 1 else 0) ∧
      (∀ row < height,
        prefixSum.getD row 0 = Nat.count (fun row => decide (value row = some true) = true) (row + 1)) ∧
      ∀ ws, executeFilterCompact device pred height ws = ws.zipIdx.mapM (compactEntry device height
        keep prefixSum (Nat.count (fun row => decide (value row = some true) = true) height)) := by
  obtain ⟨keep, prefixSum, hrun, hkeepLen, hsumLen, hkeep, hsum⟩ :=
    computeKeepAndPrefix_run hdevice.cumsum hrows hpred.data_length hpred.valid_length
      fun gid hgid => (length_predicateThread_le _ _ _ _).trans (hdevice.predicateOrder gid hgid)
  have hvalue : ∀ row < height, keepRow pred.1 pred.2 row = decide (value row = some true) := by
    intro row hrow
    rw [← hpred.row row hrow, readRow, keepRow]
    cases getValid pred.1 row <;> cases getValid pred.2 row <;> rfl
  have hcount : ∀ n ≤ height, Nat.count (keepRow pred.1 pred.2 ·) n =
      Nat.count (fun row => decide (value row = some true) = true) n := by
    intro n hn
    induction n with
    | zero => rfl
    | succ n ih => rw [Nat.count_succ, Nat.count_succ, ih (by omega), hvalue n (by omega)]
  refine ⟨keep, prefixSum, hkeepLen, hsumLen, fun row hrow => ?_, fun row hrow => ?_, fun ws => ?_⟩
  · rw [hkeep row hrow, hvalue row hrow]
  · rw [hsum row hrow, hcount _ hrow]
  · rw [executeFilterCompact, if_neg (not_lt.2 hpred.data_length), if_neg (not_lt.2 hpred.valid_length),
      hrun, hpred.keptRows_eq, length_filter_range]
    rfl

/-! The two filter functions. -/

/-- What the model leaves outside behaves as documented. -/
structure Environment.Lawful {P : Type} (env : Environment P) (height : ℕ) : Prop where
  sites : ∀ k path, (env.sites k path).Lawful height
  materialize : ∀ s : PolarsSeries, s.Typed → (env.materialize s).Holds s
  polarsFilter : ∀ (df : PolarsFrame) (mask : List (Option Cell)), mask.length = df.height →
    env.polarsFilter df mask =
      .ok (df.keepRows fun row => decide (mask.getD row none = some (.bool true)))
  device : env.device.Lawful height

/-- A predicate that is walked reads a column. -/
theorem columns_ne_nil {df : PolarsFrame} {e : PredicateExpr} {pred : PredicateAst}
    (h : walkFilter df.schema e = some pred) : df.columns ≠ [] := by
  intro hnil
  have hleaf : ∀ e pred, walkPredicate [] e = some pred → pred.isLiteral = true := by
    intro e
    induction e with
    | column name => exact fun pred h => by cases h
    | literal value => intro pred h; cases value <;> cases h <;> rfl
    | binaryExpr op l r ihl ihr =>
      intro pred h
      unfold walkPredicate at h
      split at h
      · simp only [Option.bind_eq_bind, Option.bind_eq_some_iff] at h
        obtain ⟨lhs, hl, rhs, -, hpred⟩ := h
        obtain ⟨-, ⟨-, hlit⟩, -⟩ := walkLogical_eq_some hpred
        rw [ihl lhs hl] at hlit
        cases hlit
      · simp only [Option.bind_eq_bind, Option.bind_eq_some_iff] at h
        obtain ⟨lhs, hl, rhs, hr, hpred⟩ := h
        obtain ⟨-, -, -, -, -, -, -, hlit⟩ := walkCompare_eq_some hpred
        rw [ihl lhs hl, ihr rhs hr] at hlit
        cases hlit
      · cases h
    | other => exact fun pred h => by cases h
  obtain ⟨hwalk, -, hliteral⟩ := walkFilter_eq_some h
  have hschema : df.schema = [] := by rw [PolarsFrame.schema, hnil, List.map_nil]
  rw [hschema] at hwalk
  rw [hleaf e pred hwalk] at hliteral
  cases hliteral

section Dispatch

variable {P : Type} {env : Environment P} {upstream : PolarsFrame} {e : PredicateExpr}
  {pred : PredicateAst} (hwalk : walkFilter upstream.schema e = some pred)
  (henv : env.Lawful upstream.height) (hrows : upstream.height < 2 ^ 32) (hfit : pred.LiteralsFit)

include hwalk henv hrows hfit

/-- Every evaluation of the predicate returns its three-valued value at each row. -/
theorem evaluate_ok (k : ℕ) : ∃ b, env.runtime.evaluatePredicate k upstream pred upstream.height =
    .ok b ∧ Encodes b upstream.height (fun row => kleene upstream row e) := by
  obtain ⟨hpred, hdtype, hliteral⟩ := walkFilter_eq_some hwalk
  have h := evaluatePredicate_yields hpred hdtype hliteral (henv.sites k)
  obtain ⟨b, hb⟩ := h.returns hrows hfit
  refine ⟨b, ?_, h.encodes b hb⟩
  change Except.mapError _ (evaluatePredicate upstream upstream.height (env.sites k) pred) = _
  rw [hb]
  rfl

end Dispatch

section Compact

variable {P : Type} {env : Environment P} {upstream : PolarsFrame} {b : Buffers}
  {value : ℕ → Option Bool} (henv : env.Lawful upstream.height) (hrows : upstream.height < 2 ^ 32)
  (hcol : upstream.columns.any (fun c => uncompactable c.2.dtype) = false)
  (hb : Encodes b upstream.height value)

include henv hcol

theorem columnInputs_carry : ∃ ws, upstream.columns.mapM (columnInput env.runtime upstream.height) =
    .ok ws ∧ List.Forall₂ (Carries upstream.height) upstream.columns ws := by
  refine mapM_of_forall fun c hc => ?_
  refine columnInput_carries henv.materialize (upstream.length_eq c hc) (upstream.typed c hc) ?_
  have hall := List.any_eq_false.1 hcol c hc
  rwa [Bool.not_eq_true] at hall

include hrows hb

theorem compactColumns_ok (hcolumns : upstream.columns ≠ [])
    (hnames : (upstream.columns.map Prod.fst).Nodup)
    (hkernel : (List.range upstream.height).filter (fun row => value row = some true) = [] ∨
      ∀ c ∈ upstream.columns, hasKernel c.2.dtype = true) :
    compactColumns env.runtime upstream b =
      .ok (upstream.keepRows fun row => decide (value row = some true)) := by
  obtain ⟨ws, hinputs, hws⟩ := columnInputs_carry henv hcol
  obtain ⟨keep, prefixSum, hkeepLen, hsumLen, hkeep, hsum, hexec⟩ :=
    executeFilterCompact_eq hrows henv.device hb
  obtain ⟨outs, hruns, hlen, hcounts, hbacks⟩ := compactEntries_run hrows hkeepLen hsumLen hkeep hsum
    henv.device hws hkernel 0
  have hnative : env.runtime.executeFilterCompact b upstream.height ws = .ok outs := by
    change Except.mapError _ (executeFilterCompact env.device b upstream.height ws) = _
    rw [hexec, hruns]
    rfl
  have hframe : frameOf (upstream.columns.map (keptSeries (fun row => decide (value row = some true))
      upstream.height)) = .ok (upstream.keepRows fun row => decide (value row = some true)) := by
    refine frameOf_eq_ok.2 ⟨?_, rfl⟩
    rw [List.map_map]
    exact hnames
  rw [compactColumns, hinputs]
  simp only [bind, Except.bind, hnative, hlen, ne_eq, not_true, if_false]
  cases outs with
  | nil =>
    have hwsLen := hws.length_eq
    rw [← hlen, List.length_nil] at hwsLen
    exact absurd (List.eq_nil_of_length_eq_zero hwsLen) hcolumns
  | cons out outs =>
    have hfirst := hcounts out List.mem_cons_self
    simp only [hfirst, hbacks, hframe]
    rfl

theorem compactColumns_error
    (hkept : (List.range upstream.height).filter (fun row => value row = some true) ≠ [])
    {column : String × PolarsSeries} {tag : DtypeTag}
    (hfind : upstream.columns.find? (fun c => !hasKernel c.2.dtype) = some column)
    (htag : dtypeToTag column.2.dtype = some tag) :
    compactColumns env.runtime upstream b =
      .error (.exception (.native (env.describe (.notImplemented column.1 tag)))) := by
  obtain ⟨ws, hinputs, hws⟩ := columnInputs_carry henv hcol
  obtain ⟨keep, prefixSum, hkeepLen, hsumLen, hkeep, hsum, hexec⟩ :=
    executeFilterCompact_eq hrows henv.device hb
  have hnative : env.runtime.executeFilterCompact b upstream.height ws =
      .error (.exception (.native (env.describe (.notImplemented column.1 tag)))) := by
    change Except.mapError _ (executeFilterCompact env.device b upstream.height ws) = _
    rw [hexec, compactEntries_error hrows hkeepLen hsumLen hkeep hsum henv.device hws hkept hfind htag]
    rfl
  rw [compactColumns, hinputs]
  simp only [bind, Except.bind, hnative]

end Compact

/-- A filter whose predicate the walker accepts, entered by either function: Polars' filter returns
the rows whose predicate is true, and so does the device's, whatever order the threads of its kernels
run in, where some column is Polars' to filter, no row is kept or every column has a kernel; in the
case left the device raises for the first column without one, and does not fall back. -/
theorem filterDispatch_keepRows {P : Type} (env : Environment P) (df : PolarsFrame)
    (plan : FilterPlan P) (upstream : PolarsFrame) (e : PredicateExpr)
    (hup : resolveUpstream env.runtime df plan = .ok upstream)
    (hwalk : walkFilter upstream.schema e = some plan.predicate)
    (henv : env.Lawful upstream.height) (hrows : upstream.height < 2 ^ 32)
    (hfit : plan.predicate.LiteralsFit) (hnames : (upstream.columns.map Prod.fst).Nodup) (k : ℕ) :
    (∀ function : FilterFunction, function = .filterViaPolars ∨
        upstream.columns.any (fun c => uncompactable c.2.dtype) = true ∨
        (List.range upstream.height).filter (fun row => kleene upstream row e = some true) = [] ∨
        (∀ c ∈ upstream.columns, hasKernel c.2.dtype = true) →
      Returns (filterBody env.runtime df plan) ⟨function, k⟩
        (.ok (upstream.keepRows fun row => decide (kleene upstream row e = some true)))) ∧
    ∀ (column : String × PolarsSeries) (tag : DtypeTag),
      upstream.columns.any (fun c => uncompactable c.2.dtype) = false →
      (List.range upstream.height).filter (fun row => kleene upstream row e = some true) ≠ [] →
      upstream.columns.find? (fun c => !hasKernel c.2.dtype) = some column →
      dtypeToTag column.2.dtype = some tag →
      Returns (filterBody env.runtime df plan) ⟨.dispatchFilter, k⟩
        (.error (.exception (.native (env.describe (.notImplemented column.1 tag))))) := by
  have heval := evaluate_ok hwalk henv hrows hfit
  have hpolars : ∀ k, Returns (filterBody env.runtime df plan) ⟨.filterViaPolars, k⟩
      (.ok (upstream.keepRows fun row => decide (kleene upstream row e = some true))) := by
    intro k
    refine returns_of_done ?_
    obtain ⟨b, hb, hencodes⟩ := heval k
    simp only [filterBody, filterViaPolars, hup, hb]
    split_ifs with hnone
    · have hcells : ∀ c ∈ upstream.columns, c.2.cells = [] := fun c hc =>
        List.eq_nil_of_length_eq_zero ((upstream.length_eq c hc).trans hnone)
      have hseries : upstream.series =
          upstream.keepRows fun row => decide (kleene upstream row e = some true) := by
        refine List.map_congr_left fun c hc => ?_
        rw [hcells c hc, hnone]
        rfl
      rw [hseries]
    · have hmask := hencodes.filterMask_eq
      have hlen : (filterMask b upstream.height).length = upstream.height := by
        rw [hmask, List.length_map, List.length_range]
      have hkeep : ∀ row < upstream.height, decide ((filterMask b upstream.height).getD row none =
          some (.bool true)) = decide (kleene upstream row e = some true) := by
        intro row hrow
        rw [hmask, List.getD_eq_getElem?_getD, List.getElem?_map, List.getElem?_range hrow,
          Option.map_some, Option.getD_some]
        generalize kleene upstream row e = value
        cases value with
        | none => rfl
        | some holds => cases holds <;> rfl
      have hrun : env.runtime.polarsFilter upstream (filterMask b upstream.height) =
          .ok (upstream.keepRows fun row => decide (kleene upstream row e = some true)) := by
        refine (henv.polarsFilter upstream _ hlen).trans (congrArg Except.ok ?_)
        refine List.map_congr_left fun c _ => ?_
        rw [List.filter_congr fun row hrow => hkeep row (List.mem_range.1 hrow)]
      rw [hrun]
  refine ⟨fun function hcase => ?_, fun column tag hcol hkept hfind htag => ?_⟩
  · cases function with
    | filterViaPolars => exact hpolars k
    | dispatchFilter =>
      cases hcol : upstream.columns.any (fun c => uncompactable c.2.dtype) with
      | true =>
        refine returns_of_call ?_ (hpolars k)
        simp only [filterBody, dispatchFilter, hup, if_pos hcol]
      | false =>
        rw [hcol] at hcase
        obtain ⟨b, hb, hencodes⟩ := heval k
        refine returns_of_done ?_
        rw [← compactColumns_ok henv hrows hcol hencodes (columns_ne_nil hwalk) hnames (by simpa using hcase)]
        simp only [filterBody, dispatchFilter, hup, hb, hcol, Bool.false_eq_true, if_false]
  · obtain ⟨b, hb, hencodes⟩ := heval k
    refine returns_of_done ?_
    rw [← compactColumns_error henv hrows hcol hencodes hkept hfind htag]
    simp only [filterBody, dispatchFilter, hup, hb, hcol, Bool.false_eq_true, if_false]

/-- The rows are taken in turn, twice. -/
def sampleEnvironment : Environment Unit where
  executePlan df _ := .ok df
  sites _ := sampleSites
  polarsFilter df mask := .ok (df.keepRows fun row => decide (mask.getD row none = some (.bool true)))
  materialize := encodeArrow
  device := ⟨fun keep => .ok (prefixSums keep), [0, 1, 2], fun _ => [2, 1, 0, 1, 2, 0]⟩
  describe _ := "polars_metal"

/-- A 64-bit column with a null, its mask, and a predicate on both. -/
def filteredFrame : PolarsFrame where
  columns := [("x", ⟨.int64, [some (.int 5), none, some (.int 9)]⟩),
    ("b", ⟨.boolean, [some (.bool true), some (.bool true), some (.bool true)]⟩)]
  height := 3
  length_eq := by decide
  typed := by simp [PolarsSeries.Typed, hasDtype, mapDtype, intRange]

theorem sampleEnvironment_lawful : sampleEnvironment.Lawful 3 where
  sites _ _ := ⟨fun s _ => encodeArrow_holds s,
    show ∀ gid < 3, 2 ≤ [2, 0, 1, 0, 2, 1].count gid by decide⟩
  materialize s _ := encodeArrow_holds s
  polarsFilter _ _ _ := rfl
  device := ⟨fun _ => rfl, by decide, fun _ => show ∀ gid < 3, 2 ≤ [2, 1, 0, 1, 2, 0].count gid by decide⟩

/-- `7 < x and b` keeps the last row, on the device. -/
theorem filterDispatch_keepRows_sample :
    Returns (filterBody sampleEnvironment.runtime filteredFrame ⟨.scan, .logical .and
      (.compare .lt (.literalI64 7) (.column "x" .i64) .i64) (.column "b" .bool)⟩) ⟨.dispatchFilter, 0⟩
      (.ok [⟨"x", [some (.int 9)]⟩, ⟨"b", [some (.bool true)]⟩]) := by
  have hwalk : walkFilter filteredFrame.schema samplePredicate = some (.logical .and
      (.compare .lt (.literalI64 7) (.column "x" .i64) .i64) (.column "b" .bool)) := by
    decide +kernel
  obtain ⟨hkeep, -⟩ := filterDispatch_keepRows sampleEnvironment filteredFrame ⟨.scan, .logical .and
    (.compare .lt (.literalI64 7) (.column "x" .i64) .i64) (.column "b" .bool)⟩ filteredFrame
    samplePredicate rfl hwalk sampleEnvironment_lawful (by decide)
    ⟨⟨⟨by decide, by decide⟩, trivial⟩, trivial⟩ (by decide) 0
  have hvalue : filteredFrame.keepRows
      (fun row => decide (kleene filteredFrame row samplePredicate = some true)) =
      [⟨"x", [some (.int 9)]⟩, ⟨"b", [some (.bool true)]⟩] := by
    decide +kernel
  rw [← hvalue]
  exact hkeep .dispatchFilter (by decide)

end PolarsMetal.Filter
