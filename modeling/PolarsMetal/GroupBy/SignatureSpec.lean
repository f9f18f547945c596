import PolarsMetal.GroupBy.FusedKernel
import PolarsMetal.Lib.Fallible

/-! What a signature records of its specs: every referenced column once, with the caller's
dtype, and each spec with its columns replaced by their slots. -/

namespace PolarsMetal.GroupBy
open Fallible

abbrev Columns := List String × List MetalDtype

/-- Distinct names, each beside the dtype the caller gives it. -/
structure Interned (colDtypes : ColDtypes) (columns : Columns) : Prop where
  length : columns.2.length = columns.1.length
  nodup : columns.1.Nodup
  dtype : ∀ name ∈ columns.1, colDtypes.lookup name = columns.2[columns.1.idxOf name]?

/-- Slots already given out stay. -/
def ColumnsExtend (columns columns' : Columns) : Prop :=
  columns.1 <+: columns'.1 ∧ columns.2 <+: columns'.2

theorem ColumnsExtend.refl (columns : Columns) : ColumnsExtend columns columns :=
  ⟨List.prefix_refl _, List.prefix_refl _⟩

theorem ColumnsExtend.trans {a b c : Columns} (h : ColumnsExtend a b) (h' : ColumnsExtend b c) : ColumnsExtend a c :=
  ⟨h.1.trans h'.1, h.2.trans h'.2⟩

theorem ColumnsExtend.idxOf {columns columns' : Columns} (h : ColumnsExtend columns columns') {name : String}
    (hname : name ∈ columns.1) : columns'.1.idxOf name = columns.1.idxOf name := by
  obtain ⟨rest, hrest⟩ := h.1
  rw [← hrest, List.idxOf_append_of_mem hname]

theorem ColumnsExtend.mem {columns columns' : Columns} (h : ColumnsExtend columns columns') {name : String}
    (hname : name ∈ columns.1) : name ∈ columns'.1 := h.1.subset hname

/-- The dtype of a named column. -/
def dtypeAt (columns : Columns) (name : String) : Option MetalDtype :=
  columns.2[columns.1.idxOf name]?

theorem ColumnsExtend.dtypeAt {columns columns' : Columns} (h : ColumnsExtend columns columns')
    (hlen : columns.2.length = columns.1.length) {name : String} (hname : name ∈ columns.1) :
    dtypeAt columns' name = dtypeAt columns name := by
  have hlt : columns.1.idxOf name < columns.2.length := by
    rw [hlen]; exact List.idxOf_lt_length_iff.2 hname
  rw [GroupBy.dtypeAt, GroupBy.dtypeAt, h.idxOf hname]
  obtain ⟨rest, hrest⟩ := h.2
  rw [← hrest, List.getElem?_append_left hlt]

theorem interned_intern {colDtypes : ColDtypes} {columns : Columns}
    (h : Interned colDtypes columns) {name : String} {dt : MetalDtype}
    (hdt : colDtypes.lookup name = some dt) :
    Interned colDtypes (intern name dt columns) ∧ ColumnsExtend columns (intern name dt columns) ∧
      name ∈ (intern name dt columns).1 := by
  unfold intern
  split_ifs with hin
  · exact ⟨h, ColumnsExtend.refl _, hin⟩
  · refine ⟨⟨by simp [h.length], ?_, fun n hn => ?_⟩,
      ⟨List.prefix_append _ _, List.prefix_append _ _⟩, by simp⟩
    · exact List.nodup_append.2 ⟨h.nodup, List.nodup_singleton _, by
        rintro a ha b hb rfl
        exact hin (List.mem_singleton.1 hb ▸ ha)⟩
    · rcases List.mem_append.1 hn with hn | hn
      · rw [h.dtype n hn, List.idxOf_append_of_mem hn, List.getElem?_append_left]
        rw [h.length]
        exact List.idxOf_lt_length_iff.2 hn
      · rw [List.mem_singleton.1 hn, hdt, List.idxOf_append_of_notMem hin]
        simp [h.length]

/-- The canonical form of a spec over interned columns. -/
def canonSpec (columns : Columns) : AggSpec → CanonicalAgg
  | .simple inputCol op _ =>
    .simple (slotOf columns.1 inputCol) op ((dtypeAt columns inputCol).getD .f32)
  | .expression expr op _ =>
    .expression (canonExpr columns.1 expr) op (match expr.referencedColumns with
      | c :: _ => (dtypeAt columns c).getD .f32
      | [] => .f64)
  | .length _ => .length

theorem mem_referencedColumns {e : AggExpr} {name : String} :
    name ∈ e.referencedColumns ↔ name ∈ e.columns := by
  have hfold : ∀ (names out : List String),
      name ∈ names.foldl (fun out name => if name ∈ out then out else out ++ [name]) out ↔
        name ∈ out ∨ name ∈ names := by
    intro names
    induction names with
    | nil => simp
    | cons n names ih =>
      intro out
      rw [List.foldl_cons, ih]
      by_cases hn : n ∈ out
      · rw [if_pos hn, List.mem_cons]
        refine ⟨fun h => h.imp id Or.inr, ?_⟩
        rintro (h | rfl | h)
        · exact Or.inl h
        · exact Or.inl hn
        · exact Or.inr h
      · rw [if_neg hn, List.mem_append, List.mem_singleton, List.mem_cons, or_assoc]
  rw [AggExpr.referencedColumns, hfold]
  simp

theorem canonExpr_extends {columns columns' : Columns} (h : ColumnsExtend columns columns')
    {e : AggExpr} (hcols : ∀ name ∈ e.columns, name ∈ columns.1) :
    canonExpr columns'.1 e = canonExpr columns.1 e := by
  induction e with
  | column name =>
    have hname := hcols name (by simp [AggExpr.columns])
    simp only [canonExpr, hname, h.mem hname, if_true, slotOf, h.idxOf hname]
  | literalF64 bits => rfl
  | literalI64 v => rfl
  | binary op lhs rhs ihl ihr =>
    simp only [canonExpr]
    rw [ihl fun n hn => hcols n (List.mem_append_left _ hn),
      ihr fun n hn => hcols n (List.mem_append_right _ hn)]

/-- Later columns do not change a spec's canonical form. -/
theorem canonSpec_extends {columns columns' : Columns} (h : ColumnsExtend columns columns')
    (hlen : columns.2.length = columns.1.length) {spec : AggSpec}
    (hcols : ∀ name ∈ spec.referencedColumns, name ∈ columns.1) :
    canonSpec columns' spec = canonSpec columns spec := by
  cases spec with
  | simple col op _ =>
    have hcol := hcols col (by simp [AggSpec.referencedColumns])
    simp only [canonSpec, slotOf, h.idxOf hcol, h.dtypeAt hlen hcol]
  | expression e op _ =>
    simp only [canonSpec]
    rw [canonExpr_extends h fun n hn => hcols n (mem_referencedColumns.2 hn)]
    cases href : e.referencedColumns with
    | nil => rfl
    | cons c rest =>
      have hc := hcols c (by rw [AggSpec.referencedColumns, href]; exact List.mem_cons_self ..)
      simp only [h.dtypeAt hlen hc]
  | length _ => rfl

theorem lookupDtype_eq_ok {col : String} {colDtypes : ColDtypes} {dt : MetalDtype} :
    lookupDtype col colDtypes = .ok dt ↔ colDtypes.lookup col = some dt := by
  rw [lookupDtype]
  cases h : colDtypes.lookup col <;> simp

theorem internSpec_spec {colDtypes : ColDtypes} {columns columns' : Columns} {spec : AggSpec}
    {agg : CanonicalAgg} (h : Interned colDtypes columns)
    (hrun : internSpec colDtypes columns spec = .ok (columns', agg)) :
    Interned colDtypes columns' ∧ ColumnsExtend columns columns' ∧
      (∀ name ∈ spec.referencedColumns, name ∈ columns'.1) ∧ agg = canonSpec columns' spec := by
  cases spec with
  | simple col op _ =>
    simp only [internSpec] at hrun
    obtain ⟨dt, hdt, hrun⟩ := bind_eq_ok.1 hrun
    rw [lookupDtype_eq_ok] at hdt
    obtain ⟨hin, hext, hmem⟩ := interned_intern h hdt
    obtain ⟨rfl, rfl⟩ := Prod.mk.inj (pure_eq_ok.1 hrun)
    refine ⟨hin, hext, fun n hn => ?_, ?_⟩
    · obtain rfl : n = col := by simpa [AggSpec.referencedColumns] using hn
      exact hmem
    · rw [canonSpec, dtypeAt, ← hin.dtype col hmem, hdt, Option.getD_some]
  | expression e op _ =>
    simp only [internSpec] at hrun
    obtain ⟨cols, hfold, hrun⟩ := bind_eq_ok.1 hrun
    obtain ⟨hin, hext, hmem⟩ := foldlM_ok_invariant (q := ([] : List String))
      (I := fun pre cols => Interned colDtypes cols ∧ ColumnsExtend columns cols ∧
        ∀ name ∈ pre, name ∈ cols.1)
      (by
        rintro pre col cols cols' ⟨hin, hext, hmem⟩ hstep
        obtain ⟨dt, hdt, hstep⟩ := bind_eq_ok.1 hstep
        obtain rfl := pure_eq_ok.1 hstep
        rw [lookupDtype_eq_ok] at hdt
        obtain ⟨hin', hext', hmem'⟩ := interned_intern hin hdt
        refine ⟨hin', hext.trans hext', fun n hn => ?_⟩
        rcases List.mem_append.1 hn with hn | hn
        · exact hext'.mem (hmem n hn)
        · rwa [List.mem_singleton.1 hn])
      ⟨h, ColumnsExtend.refl _, by simp⟩ hfold
    cases href : e.referencedColumns with
    | nil =>
      rw [href] at hrun
      obtain ⟨rfl, rfl⟩ := Prod.mk.inj (pure_eq_ok.1 hrun)
      refine ⟨hin, hext, by simp [AggSpec.referencedColumns, href], ?_⟩
      simp only [canonSpec, href]
    | cons c rest =>
      rw [href] at hrun
      obtain ⟨dt, hdt, hrun⟩ := bind_eq_ok.1 hrun
      obtain ⟨rfl, rfl⟩ := Prod.mk.inj (pure_eq_ok.1 hrun)
      have hc : c ∈ cols.1 := hmem c (by rw [href]; simp)
      refine ⟨hin, hext, hmem, ?_⟩
      simp only [canonSpec, href, dtypeAt]
      rw [← hin.dtype c hc, lookupDtype_eq_ok.1 hdt, Option.getD_some]
  | length _ =>
    obtain ⟨rfl, rfl⟩ := Prod.mk.inj (pure_eq_ok.1 hrun)
    exact ⟨h, ColumnsExtend.refl _, by simp [AggSpec.referencedColumns], rfl⟩

/-- What `from_specs` returns. -/
structure SignatureOf (colDtypes : ColDtypes) (specs : List AggSpec) (sig : AggSignature) : Prop where
  interned : Interned colDtypes (sig.columnOrder, sig.columnDtypes)
  used : ∀ spec ∈ specs, ∀ name ∈ spec.referencedColumns, name ∈ sig.columnOrder
  aggs : sig.aggs = specs.map (canonSpec (sig.columnOrder, sig.columnDtypes))

theorem signatureOf_fromSpecs {colDtypes : ColDtypes} {specs : List AggSpec} {sig : AggSignature}
    (hrun : AggSignature.fromSpecs specs colDtypes = .ok sig) : SignatureOf colDtypes specs sig := by
  rw [AggSignature.fromSpecs] at hrun
  obtain ⟨⟨columns, aggs⟩, hfold, hrun⟩ := bind_eq_ok.1 hrun
  obtain rfl := pure_eq_ok.1 hrun
  obtain ⟨hin, hused, haggs⟩ := foldlM_ok_invariant (q := ([] : List AggSpec))
    (I := fun pre (st : Columns × List CanonicalAgg) => Interned colDtypes st.1 ∧
      (∀ spec ∈ pre, ∀ name ∈ spec.referencedColumns, name ∈ st.1.1) ∧
      st.2 = pre.map (canonSpec st.1))
    (by
      rintro pre spec ⟨columns, aggs⟩ ⟨columns', aggs'⟩ ⟨hin, hused, haggs⟩ hstep
      obtain ⟨⟨cols, agg⟩, hspec, hstep⟩ := bind_eq_ok.1 hstep
      obtain ⟨rfl, rfl⟩ := Prod.mk.inj (pure_eq_ok.1 hstep)
      obtain ⟨hin', hext, hmem, rfl⟩ := internSpec_spec hin hspec
      refine ⟨hin', fun s hs n hn => ?_, ?_⟩
      · rcases List.mem_append.1 hs with hs | hs
        · exact hext.mem (hused s hs n hn)
        · rw [List.mem_singleton.1 hs] at hn
          exact hmem n hn
      · simp only at haggs ⊢
        rw [List.map_append, List.map_singleton, haggs]
        refine congrArg (· ++ _) (List.map_congr_left fun s hs => ?_)
        exact (canonSpec_extends hext hin.length (hused s hs)).symm)
    ⟨⟨rfl, List.nodup_nil, by simp⟩, by simp, rfl⟩ hfold
  exact ⟨hin, hused, haggs⟩

end PolarsMetal.GroupBy
