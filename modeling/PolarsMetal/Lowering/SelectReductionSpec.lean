import Mathlib.Analysis.Real.Sqrt
import PolarsMetal.Fusion.StagingSpec
import PolarsMetal.Lowering.ChainColumns

/-! What a fused select reduction returns. Where the chain has no shift and its parameters and
literals are the ones its ops stand for, the kernel reduces the chain's non-null values with the
sample variance; the divisor the query asked for is never read. -/

namespace PolarsMetal.Lowering
open Fusion Fallible StraightLine Moments

/-! The divisor. -/

/-- The divisors that give what `count - 1` gives. -/
def DdofHonoured {K : Type} (kind : String) (ddof : ℕ) (xs : List K) : Prop :=
  kind = "var" ∨ kind = "std" →
    1 = ddof ∨ (xs.length ≤ 1 ∧ xs.length ≤ ddof) ∨
      (1 < xs.length ∧ ddof < xs.length ∧ ∀ x ∈ xs, ∀ y ∈ xs, x = y)

theorem reduceOption_map {α β : Type} (f : α → Option β) (xs : List α) :
    (xs.map f).reduceOption = xs.filterMap f :=
  List.filterMap_map

theorem reduceOption_map_some {α : Type} (xs : List α) : (xs.map some).reduceOption = xs := by
  rw [reduceOption_map]
  exact List.filterMap_some

section Numbers

variable {K : Type} [Field K] [LinearOrder K] [IsStrictOrderedRing K]

theorem std_one_eq_iff (R : Root K) {ddof : ℕ} {xs : List K} :
    (variance 1 xs).map R.sqrt = (variance ddof xs).map R.sqrt ↔ variance 1 xs = variance ddof xs := by
  refine ⟨fun h => ?_, congrArg _⟩
  rcases hu : variance 1 xs with _ | u <;> rcases hv : variance ddof xs with _ | v
  · rfl
  · rw [hu, hv] at h
    cases h
  · rw [hu, hv] at h
    cases h
  · rw [hu, hv] at h
    exact congrArg some (R.inj u v (variance_nonneg hu) (variance_nonneg hv) (Option.some.inj h))

theorem polarsReduce_one_eq_iff (R : Root K) {kind : String} {ddof : ℕ} {series : List (Option K)} :
    polarsReduce R kind 1 series = polarsReduce R kind ddof series ↔
      DdofHonoured kind ddof series.reduceOption := by
  unfold DdofHonoured
  rw [← variance_eq_iff]
  by_cases hvar : kind = "var"
  · subst hvar
    simp [polarsReduce]
  by_cases hstd : kind = "std"
  · subst hstd
    simpa [polarsReduce] using std_one_eq_iff R
  · refine iff_of_true ?_ (fun h => absurd h (by simp [hvar, hstd]))
    unfold polarsReduce
    split
    · rfl
    · rfl
    · rfl
    · rfl
    · exact absurd rfl hvar
    · exact absurd rfl hstd
    · rfl

theorem bessel_mlxReduce (R : Root K) {kind : String} {op : OpId} (hop : reductionOp kind = some op)
    {xs : List K} (hne : xs ≠ []) (hlen : kind = "std" ∨ kind = "var" → 1 < xs.length) :
    some (bessel R kind xs.length (mlxReduce R op xs)) = polarsReduce R kind 1 (xs.map some) := by
  have hxs := reduceOption_map_some xs
  have hpos : (0 : K) ≤ xs.length := Nat.cast_nonneg _
  unfold reductionOp at hop
  split at hop <;> cases hop
  · rw [polarsReduce, hxs]
    rfl
  · rw [polarsReduce, hxs]
    simp [hne, bessel, mlxReduce]
  · obtain ⟨a, ha⟩ := Option.isSome_iff_exists.1 (List.isSome_min?_of_ne_nil hne)
    rw [polarsReduce, hxs]
    simp [bessel, mlxReduce, ha]
  · obtain ⟨a, ha⟩ := Option.isSome_iff_exists.1 (List.isSome_max?_of_ne_nil hne)
    rw [polarsReduce, hxs]
    simp [bessel, mlxReduce, ha]
  · have hlen := hlen (Or.inl rfl)
    have hpos' := divisor_pos (K := K) hlen
    rw [polarsReduce, hxs]
    simp only [variance_eq_some hlen, Option.map_some, bessel, mlxReduce]
    rw [← R.mul _ _ (div_nonneg (squaredDeviations_nonneg xs) hpos)
      (div_nonneg hpos (by exact_mod_cast hpos'.le)), bessel_correction hlen]
  · have hlen := hlen (Or.inr rfl)
    rw [polarsReduce, hxs]
    simp only [variance_eq_some hlen, bessel, mlxReduce]
    rw [bessel_correction hlen]

end Numbers

/-! The analyzed reduction. -/

theorem pushReduction_scope {schema : Schema} {kind : String} {opId : OpId} {ds : List Descriptor}
    {scope : FusionScope} {inner : ℕ} {r : ReductionScope}
    (h : pushReduction schema kind opId ds scope inner = .ok r) :
    r.aggKind = kind ∧ r.isChain = !scope.ops.isEmpty ∧
      ∃ s red, pushOp scope opId [inner] none = .ok (s, red) ∧ r.scope = s.markOutput red := by
  rw [pushReduction] at h
  split at h
  · rename_i colDtype hcols
    rcases hout : reductionOutDtype kind colDtype with _ | out
    · simp only [hout] at h
      cases h
    · simp only [hout] at h
      split_ifs at h
      obtain ⟨⟨s, red⟩, hpush, h⟩ := bind_eq_ok.1 h
      obtain rfl := pure_eq_ok.1 h
      exact ⟨rfl, rfl, s, red, hpush, rfl⟩
  · cases h

theorem visitIrOps_ops {cx : Context} {st : Leaves} {e : IRExpr} {scope scope' : FusionScope} {idx : ℕ}
    (h : visitIrOps cx st e scope = .ok (scope', idx)) (hops : scope'.ops = []) :
    ∃ id, e = .leaf id := by
  have hpush : ∀ {s : FusionScope} {op : OpId} {args : List ℕ} {param : Option ℤ},
      pushOp s op args param ≠ .ok (scope', idx) := by
    intro s op args param hp
    rw [(pushOp_eq_ok hp).2.2.1] at hops
    simp at hops
  cases e with
  | leaf id => exact ⟨id, rfl⟩
  | binary op left right =>
    rw [visitIrOps] at h
    rcases hop : binopMap op with _ | opId
    · simp only [hop] at h
      cases h
    · simp only [hop, bind_eq_ok] at h
      obtain ⟨_, -, _, -, h⟩ := h
      exact absurd h hpush
  | cast dtype e =>
    rw [visitIrOps] at h
    split_ifs at h
    obtain ⟨_, -, h⟩ := bind_eq_ok.1 h
    exact absurd h hpush
  | function data input =>
    by_cases hshift : data = .shift
    · subst hshift
      rw [visitIrOps, bind_eq_ok] at h
      obtain ⟨_, -, h⟩ := h
      obtain ⟨_, -, h⟩ := bind_eq_ok.1 h
      exact absurd h hpush
    by_cases hlog : data = .log
    · subst hlog
      rw [visitIrOps, bind_eq_ok] at h
      obtain ⟨_, -, h⟩ := h
      obtain ⟨_, -, h⟩ := bind_eq_ok.1 h
      exact absurd h hpush
    by_cases hpow : data = .pow
    · subst hpow
      rw [visitIrOps] at h
      split_ifs at h
      obtain ⟨_, -, h⟩ := bind_eq_ok.1 h
      exact absurd h hpush
    · rw [visitIrOps_function hshift hlog hpow] at h
      split_ifs at h
      rcases hop : irFunctionMap data with _ | opId
      · simp only [hop] at h
        cases h
      · simp only [hop] at h
        obtain ⟨_, -, h⟩ := bind_eq_ok.1 h
        exact absurd h hpush
  | agg name arguments =>
    rw [visitIrOps] at h
    rcases hop : aggMap name with _ | opId
    · simp only [hop] at h
      cases h
    · simp only [hop] at h
      obtain ⟨_, -, h⟩ := bind_eq_ok.1 h
      exact absurd h hpush
  | ternary p t f =>
    rw [visitIrOps, bind_eq_ok] at h
    obtain ⟨_, -, h⟩ := h
    obtain ⟨_, -, h⟩ := bind_eq_ok.1 h
    obtain ⟨_, -, h⟩ := bind_eq_ok.1 h
    exact absurd h hpush
  | hidden => cases h

/-- What the analysis of an admitted reduction has found out. -/
structure ReductionAnalyzed (nt : NodeTraverser) (schema : Schema) (arg : IRExpr) (r : ReductionScope)
    (op : OpId) : Prop where
  kind : reductionOp r.aggKind = some op
  admitted : Admitted nt arg
  read : LitsRead nt (litValues nt (leafIds arg)) (leafIds arg)
  outDtype : (r.aggKind = "std" ∨ r.aggKind = "var") → r.outDtype = .f32
  reads : ∃ c ∈ colNames r.descriptors, NamesColumn nt c (leafIds arg)
  columns : ∀ c, c ∈ colNames r.descriptors ↔ NamesColumn nt c (leafIds arg)
  bare : r.isChain = false → ∃ id c, arg = .leaf id ∧ nt id = .column c ∧ r.descriptors = [.col c]
  /-- The scope computes the reduction of the chain, if literals are staged as declared. -/
  eval : ∀ (α : Type) (I : Interp α) (b : Bindings α) (inputs : List α),
    List.Forall₂ (fun d v => v = bindDescriptor I b d) r.descriptors inputs →
    evalScope I.op inputs r.scope =
      .ok [I.op op none [opsValue I b ⟨nt, schema, Fusion.outDtype nt schema arg, none⟩
        (litValues nt (leafIds arg)) arg]]
  declared : List.Forall₂ (Declares ⟨nt, schema, Fusion.outDtype nt schema arg, none⟩) r.scope.inputs
    r.descriptors
  native : ∀ c ∈ colNames r.descriptors, ∃ dtype ∈ nativeDtypes, schema c = some dtype
  literals : ∀ x, .lit x ∈ r.descriptors → ReadsLiteral nt (leafIds arg)

theorem reductionOp_plain {kind : String} {op : OpId} (h : reductionOp kind = some op) : op.Plain := by
  unfold reductionOp at h
  split at h <;> cases h <;> decide

theorem reductionOutDtype_f32 {kind : String} {colDtype : PolarsDtype} {out : InputDtype}
    (h : reductionOutDtype kind colDtype = some out) (hkind : kind = "std" ∨ kind = "var") :
    out = .f32 := by
  unfold reductionOutDtype intReductionOutDtype at h
  rcases hkind with rfl | rfl <;> split_ifs at h <;> simp_all

theorem analyzeIrReduction_analyzed {nt : NodeTraverser} {schema : Schema} {name : String}
    {arg : IRExpr} {r : ReductionScope} (h : analyzeIrReduction nt schema (.agg name [arg]) = .ok r) :
    ∃ op, ReductionAnalyzed nt schema arg r op := by
  rw [analyzeIrReduction] at h
  rcases hop : reductionOp name.toLower with _ | op
  · simp only [hop] at h
    cases h
  simp only [hop] at h
  obtain ⟨st, hst, h⟩ := bind_eq_ok.1 h
  obtain ⟨⟨s, inner⟩, hvisit, h⟩ := bind_eq_ok.1 h
  have hred := pushReduction_spec h
  obtain ⟨hkind, hchain, s', red, hpush, hscope⟩ := pushReduction_scope h
  have hdecl := declared_empty.gatherLeaves hst
  obtain ⟨own, hown, hpaired⟩ := hdecl.paired
  obtain ⟨htab, hready⟩ := gatherLeaves_spec hst
  have hinputs : r.scope.inputs = own :=
    (hred.inputs.trans ((visitIrOps_grows arg hvisit).inputs.trans hown)).trans (List.nil_append _)
  obtain ⟨colDtype, hout, ⟨c₀, hc₀⟩, hschema⟩ := hred.column
  have hcolumns : ∀ c, c ∈ colNames r.descriptors ↔ NamesColumn nt c (leafIds arg) := by
    intro c
    rw [hred.descriptors, mem_colNames]
    exact (hdecl.cols c).trans readsColumn_plain
  have hfirst : c₀ ∈ colNames r.descriptors := by
    rw [hred.descriptors]
    exact mem_colNames.2 hc₀
  refine ⟨op, hkind ▸ hop, visitIrOps_admitted arg hvisit, fun id hid v hv => ?_,
    fun hstd => reductionOutDtype_f32 hout (hkind ▸ hstd), ⟨c₀, hfirst, (hcolumns c₀).1 hfirst⟩,
    hcolumns, fun hbare => ?_, fun α I b inputs hin => ?_, ?_, fun c hc => ?_, fun x hx => ?_⟩
  · have hleaf := hready id hid
    unfold LeafReady at hleaf
    simp only [hv] at hleaf
    obtain ⟨x, i, hx, hmem, -⟩ := hleaf
    exact ⟨x, hx, hmem⟩
  · rw [hchain, Bool.not_eq_false', List.isEmpty_iff] at hbare
    obtain ⟨id, rfl⟩ := visitIrOps_ops hvisit hbare
    obtain ⟨id', hid', hc⟩ := (hcolumns c₀).1 hfirst
    rw [leafIds, List.mem_singleton] at hid'
    subst hid'
    have hbare' := hred.bare (by rw [hchain, hbare]; rfl)
    obtain ⟨d, hd⟩ := List.length_eq_one_iff.1 hbare'.1
    rw [hd, List.mem_singleton] at hc₀
    exact ⟨_, c₀, rfl, hc, by rw [hred.descriptors, hd, hc₀]⟩
  · have hmap : inputs = st.descriptors.map (bindDescriptor I b) := by
      rw [hred.descriptors] at hin
      exact (List.forall₂_eq_eq_eq ▸ (List.forall₂_map_left_iff.2 (hin.imp (fun _ _ h => h.symm))) :
        st.descriptors.map (bindDescriptor I b) = inputs).symm
    have hlen : inputs.length = st.scope.inputs.length := by
      rw [hmap, List.length_map, htab.slots]
    obtain ⟨hg, hv⟩ := visitIrOps_spec (I := I) (b := b) hmap arg hready hlen
      ⟨_, by rw [htab.noOps.1]; rfl⟩ hvisit
    obtain ⟨hg', nodes, hrun, hget⟩ := pushOp_plain (reductionOp_plain hop) hpush
      (hg.inputs ▸ hlen) hv.runs (.cons hv .nil)
    rw [hscope, evalScope]
    refine guard_eq_ok.2 ⟨?_, bind_eq_ok.2 ⟨nodes, hrun, ?_⟩⟩
    · rw [not_not]
      exact hlen.trans (congrArg List.length (hg.trans hg').inputs).symm
    · change List.mapM (getHandle nodes) (s'.outputs ++ [red]) = _
      rw [(hg.trans hg').outputs, htab.noOps.2, List.nil_append, List.mapM_cons,
        getHandle_eq_ok.2 hget]
      rfl
  · rw [hinputs, hred.descriptors]
    exact hpaired
  · exact ⟨colDtype, (reductionOutDtype_cases hout).2.1,
      hschema c (mem_colNames.1 (hred.descriptors ▸ hc))⟩
  · exact hdecl.lits x (hred.descriptors ▸ hx)

/-! The element types. -/

section Dtypes

variable {K : Type} (S : RowOps K) (nt : NodeTraverser) (schema : Schema) (arg : IRExpr)

/-- The ops of a scope on element types, its literals all of one. -/
def dtypeInterp (literal : MlxDtype) : Interp (Except String MlxDtype) where
  op := S.dtypeOp
  lit _ := .ok literal
  object _ := .error ""
  binary _ _ _ := .error ""
  cast _ _ := .error ""
  function _ _ := .error ""
  agg _ _ := .error ""
  ternary _ _ _ := .error ""
  hidden := .error ""

/-- Columns come at their native width. -/
def nativeBindings : Bindings (Except String MlxDtype) where
  col c := .ok (((schema c).map seriesInputDtype).getD .f32)
  gatherKey _ := .ok .i32
  gatherValue _ := .ok .f32

/-- The element type of the literals: what the scan of the columns finds. -/
def literalDtype : MlxDtype := (inputDtypeToMlx (Fusion.outDtype nt schema arg)).getD .f32

/-- The element type MLX gives a chain, op by op. -/
def chainDtype : Except String MlxDtype :=
  opsValue (dtypeInterp S (literalDtype nt schema arg)) (nativeBindings schema)
    ⟨nt, schema, Fusion.outDtype nt schema arg, none⟩ (litValues nt (leafIds arg)) arg

/-- MLX gives the reduction of the chain the element type declared for it. -/
def DtypeHonoured (r : ReductionScope) : Prop :=
  ∃ op d, reductionOp r.aggKind = some op ∧ npDtypeAndTag r.outDtype = some d ∧
    S.dtypeOp op none [chainDtype S nt schema arg] = .ok d

variable {S nt schema arg} {r : ReductionScope} {op : OpId}

theorem checkOutput_ok {outDtype : InputDtype} {got : Except String MlxDtype} :
    checkOutput outDtype got = .ok () ↔ ∃ d, npDtypeAndTag outDtype = some d ∧ got = .ok d := by
  unfold checkOutput
  rcases got with message | got
  · simp
  · rcases npDtypeAndTag outDtype with _ | declared
    · simp
    · by_cases h : got = declared <;> simp [h, eq_comm]

theorem inputDtypeToMlx_outDtype :
    inputDtypeToMlx (Fusion.outDtype nt schema arg) = some (literalDtype nt schema arg) := by
  have hsome : (inputDtypeToMlx (Fusion.outDtype nt schema arg)).isSome := by
    unfold Fusion.outDtype
    rcases scanBindingColDtype nt schema arg with _ | d
    · rfl
    · have hmono : ∀ d ∈ monomorphicOutDtypes, (inputDtypeToMlx d).isSome := by decide
      by_cases hd : d ∈ monomorphicOutDtypes
      · simpa only [if_pos hd] using hmono d hd
      · simp only [if_neg hd]
        rfl
  rw [literalDtype, ← Option.some_get hsome, Option.getD_some]

/-- Every input has a view, and the views' element types are the descriptors'. -/
theorem viewDtype_bindings (h : ReductionAnalyzed nt schema arg r op) :
    ∃ dtypes, r.scope.inputs.mapM viewDtype = .ok dtypes ∧
      List.Forall₂ (fun d v => v = bindDescriptor (dtypeInterp S (literalDtype nt schema arg))
        (nativeBindings schema) d) r.descriptors (dtypes.map .ok) := by
  have hnative := h.native
  have hdeclared := h.declared
  generalize r.descriptors = ds at hnative hdeclared ⊢
  generalize r.scope.inputs = inputs at hdeclared ⊢
  induction hdeclared with
  | nil => exact ⟨[], rfl, .nil⟩
  | @cons input d inputs ds hd _ ih =>
    have hview : ∃ t, inputDtypeToMlx input.dtype = some t ∧
        .ok t = bindDescriptor (dtypeInterp S (literalDtype nt schema arg)) (nativeBindings schema) d := by
      cases d with
      | col c =>
        obtain ⟨dtype, hmem, hschema⟩ := hnative c (mem_colNames.2 List.mem_cons_self)
        obtain ⟨dtype', hschema', hdtype⟩ := declares_col hd
        obtain rfl := Option.some.inj (hschema.symm.trans hschema')
        exact ⟨_, (declared_native hdtype).2 hmem, by simp [bindDescriptor, nativeBindings, hschema]⟩
      | lit x =>
        have hdtype : Fusion.outDtype nt schema arg = input.dtype := Except.ok.inj hd
        exact ⟨_, hdtype ▸ inputDtypeToMlx_outDtype, rfl⟩
      | gatherKey k =>
        have hdtype : InputDtype.i32 = input.dtype := Except.ok.inj hd
        exact ⟨.i32, by rw [← hdtype]; rfl, rfl⟩
      | gatherValue c =>
        have hdtype : InputDtype.f32 = input.dtype := Except.ok.inj hd
        exact ⟨.f32, by rw [← hdtype]; rfl, rfl⟩
    obtain ⟨t, ht, hbind⟩ := hview
    obtain ⟨dtypes, hdtypes, hall⟩ := ih fun c hc =>
      hnative c (mem_colNames.2 (List.mem_cons_of_mem _ (mem_colNames.1 hc)))
    refine ⟨t :: dtypes, ?_, .cons hbind hall⟩
    rw [List.mapM_cons, viewDtype, ht, hdtypes]
    rfl

end Dtypes

/-! The launch. -/

section Launch

variable {K : Type} [Field K] [LinearOrder K] {S : RowOps K} {R : Root K} {nt : NodeTraverser}
  {schema : Schema} {arg : IRExpr} {r : ReductionScope} {op : OpId}

theorem denseOp_reduction {kind : String} {n : ℕ} (h : reductionOp kind = some op) (a : Operand K) :
    denseOp S R n op none [a] = .scalar none (mlxReduce R op (a.values n)) := by
  unfold reductionOp at h
  split at h <;> cases h <;> rfl

/-- Staged as declared, the inputs are the scope's bindings. -/
theorem staged_bindings (h : ReductionAnalyzed nt schema arg r op)
    (hlits : ReadsLiteral nt (leafIds arg) → Fusion.outDtype nt schema arg = r.outDtype) (df : Frame K)
    (n : ℕ) :
    List.Forall₂ (fun d v => v = bindDescriptor (denseInterp S R n)
        ⟨denseColumn S df, fun _ => .scalar none S.nan, fun _ => .scalar none S.nan⟩ d) r.descriptors
      (List.zipWith (stageOperand S df r.outDtype) r.scope.inputs r.descriptors) := by
  have hliterals := h.literals
  have hdeclared := h.declared
  generalize r.descriptors = ds at hliterals hdeclared ⊢
  generalize r.scope.inputs = inputs at hdeclared ⊢
  induction hdeclared with
  | nil => exact .nil
  | @cons input d inputs ds hd _ ih =>
    refine .cons ?_ (ih (fun x hx => hliterals x (List.mem_cons_of_mem _ hx)))
    cases d with
    | lit x =>
      have hdtype : Fusion.outDtype nt schema arg = input.dtype := Except.ok.inj hd
      exact if_pos (hdtype.symm.trans (hlits (hliterals x List.mem_cons_self)))
    | _ => rfl

theorem bessel_of_ne {kind : String} (h : ¬(kind = "std" ∨ kind = "var")) (count : ℕ) (x : K) :
    bessel R kind count x = x := by
  unfold bessel
  split
  · exact absurd (Or.inr rfl) h
  · exact absurd (Or.inl rfl) h
  · rfl

/-- A launch reduces the array of the chain, if the element types pass the check. -/
theorem launchReduction_iff (hS : S.toInterp.Coherent) (h : ReductionAnalyzed nt schema arg r op)
    (hf : Faithful nt (litValues nt (leafIds arg)) arg)
    (hlits : ReadsLiteral nt (leafIds arg) → Fusion.outDtype nt schema arg = r.outDtype)
    (df : Frame K) (v : Option K) :
    launchReduction S R df r = .ok v ↔ DtypeHonoured S nt schema arg r ∧
      some (bessel R r.aggKind df.rows.length (mlxReduce R op
        ((evalTree (denseInterp S R df.rows.length) (denseColumn S df) nt arg).values
          df.rows.length))) = v := by
  obtain ⟨dtypes, hdtypes, hbindings⟩ := viewDtype_bindings (S := S) h
  have houts := h.eval _ (denseInterp S R df.rows.length) _ _ (staged_bindings h hlits df _)
  have hgots := h.eval _ (dtypeInterp S (literalDtype nt schema arg)) _ _ hbindings
  rw [opsValue_eq (denseInterp_coherent S R df.rows.length hS) rfl arg h.admitted h.read hf] at houts
  have hcheck : checkOutput r.outDtype (S.dtypeOp op none [chainDtype S nt schema arg]) = .ok () ↔
      DtypeHonoured S nt schema arg r := by
    rw [checkOutput_ok]
    refine ⟨fun ⟨d, hd, hgot⟩ => ⟨op, d, h.kind, hd, hgot⟩, ?_⟩
    rintro ⟨op', d, hop, hd, hgot⟩
    obtain rfl := Option.some.inj (h.kind.symm.trans hop)
    exact ⟨d, hd, hgot⟩
  have hvalue : (if r.outDtype = .f32 then bessel R r.aggKind df.rows.length
      ((denseOp S R df.rows.length op none
        [evalTree (denseInterp S R df.rows.length) (denseColumn S df) nt arg]).cell 0)
      else (denseOp S R df.rows.length op none
        [evalTree (denseInterp S R df.rows.length) (denseColumn S df) nt arg]).cell 0) =
      bessel R r.aggKind df.rows.length (mlxReduce R op
        ((evalTree (denseInterp S R df.rows.length) (denseColumn S df) nt arg).values
          df.rows.length)) := by
    rw [denseOp_reduction h.kind, Operand.cell]
    by_cases hout : r.outDtype = .f32
    · exact if_pos hout
    · rw [if_neg hout, bessel_of_ne (fun hkind => hout (h.outDtype hkind))]
  unfold launchReduction
  rw [← hcheck, ← hvalue, bind_eq_ok]
  refine ⟨fun ⟨dtypes', hdtypes', hrun⟩ => ?_, fun ⟨hpass, hv⟩ => ⟨dtypes, hdtypes, ?_⟩⟩
  · obtain rfl := Except.ok.inj (hdtypes.symm.trans hdtypes')
    obtain ⟨outs, houts', hrun⟩ := bind_eq_ok.1 hrun
    obtain rfl := Except.ok.inj (houts.symm.trans houts')
    obtain ⟨gots, hgots', hrun⟩ := bind_eq_ok.1 hrun
    obtain rfl := Except.ok.inj (hgots.symm.trans hgots')
    obtain ⟨_, hpass, hrun⟩ := bind_eq_ok.1 hrun
    exact ⟨hpass, pure_eq_ok.1 hrun⟩
  · refine bind_eq_ok.2 ⟨_, houts, bind_eq_ok.2 ⟨_, hgots, bind_eq_ok.2 ⟨(), hpass, ?_⟩⟩⟩
    exact pure_eq_ok.2 hv

end Launch

/-! The rows staged. -/

section Rows

variable {K : Type}

def seriesOf (df : Frame K) (c : String) : Operand (Option K) :=
  .column (fun i => (df.getColumn c).getD i none)

/-- The rows without a null in the given columns. -/
def keptRows (df : Frame K) (cols : List String) : List ℕ :=
  (List.range df.rows.length).filter (fun i => cols.all (fun c => ((df.getColumn c).getD i none).isSome))

theorem getColumn_getD (df : Frame K) (c : String) {i : ℕ} (hi : i < df.rows.length) :
    (df.getColumn c).getD i none = cellOf df.columns (df.rows.getD i []) c := by
  simp [Frame.getColumn, hi]

theorem dropNullsSubset_rows (df : Frame K) (cols : List String) :
    (df.dropNullsSubset cols).rows = (keptRows df cols).map (fun i => df.rows.getD i []) := by
  have hrows : df.rows = (List.range df.rows.length).map (fun i => df.rows.getD i []) := by
    refine List.ext_getElem (by simp) (fun i hi _ => ?_)
    simp [hi]
  change df.rows.filter _ = _
  conv_lhs => rw [hrows]
  rw [List.filter_map, keptRows]
  refine congrArg _ (List.filter_congr (fun i hi => ?_))
  simp only [Function.comp_apply, getColumn_getD df _ (List.mem_range.1 hi)]

theorem dropNullsSubset_length (df : Frame K) (cols : List String) :
    (df.dropNullsSubset cols).rows.length = (keptRows df cols).length := by
  rw [dropNullsSubset_rows, List.length_map]

theorem getColumn_dropNullsSubset (df : Frame K) (cols : List String) (c : String) :
    (df.dropNullsSubset cols).getColumn c =
      (keptRows df cols).map (fun i => (df.getColumn c).getD i none) := by
  unfold Frame.getColumn
  rw [dropNullsSubset_rows, List.map_map]
  refine List.map_congr_left (fun i hi => ?_)
  have hlt := List.mem_range.1 (List.mem_filter.1 hi).1
  exact (getColumn_getD df c hlt).symm

theorem keptRows_of_no_null {df : Frame K} {cols : List String}
    (h : ∀ c ∈ cols, none ∉ df.getColumn c) : keptRows df cols = List.range df.rows.length := by
  refine List.filter_eq_self.2 (fun i hi => ?_)
  rw [List.all_eq_true]
  intro c hc
  have hlen : i < (df.getColumn c).length := by
    rw [Frame.getColumn, List.length_map]
    exact List.mem_range.1 hi
  rw [List.getD_eq_getElem?_getD, List.getElem?_eq_getElem hlen, Option.getD_some,
    Option.isSome_iff_ne_none]
  exact fun hnone => h c hc (hnone ▸ List.getElem_mem hlen)

theorem dropNullsSubset_of_no_null {df : Frame K} {cols : List String}
    (h : ∀ c ∈ cols, none ∉ df.getColumn c) : df.dropNullsSubset cols = df := by
  have hrows : (df.dropNullsSubset cols).rows = df.rows := by
    rw [dropNullsSubset_rows, keptRows_of_no_null h]
    refine List.ext_getElem (by simp) (fun i hi hi' => ?_)
    simp [hi']
  exact congrArg (Frame.mk df.columns) hrows

def RowKept (df : Frame K) (cols : List String) (i j : ℕ) : Prop := (keptRows df cols)[j]? = some i

theorem allRows_of_no_null {df : Frame K} {cols : List String}
    (h : ∀ c ∈ cols, none ∉ df.getColumn c) : AllRows df.rows.length (RowKept df cols) := by
  intro i j
  rw [RowKept, keptRows_of_no_null h, List.getElem?_eq_some_iff]
  simp only [List.length_range, List.getElem_range]
  refine ⟨fun h => ?_, fun h => ⟨h.1 ▸ h.2, h.1.symm⟩⟩
  obtain ⟨hj, rfl⟩ := h
  exact ⟨rfl, hj⟩

/-- Dropping the rows where a series is null leaves an array of its values. -/
theorem filterMap_kept {n : ℕ} {p : ℕ → Bool} {ks : List ℕ} {s : ℕ → Option K} {d : ℕ → K}
    (hks : ks = (List.range n).filter p) (hdropped : ∀ i ∈ List.range n, i ∉ ks → s i = none)
    (hcells : ∀ i j, ks[j]? = some i → s i = some (d j)) :
    (List.range n).filterMap s = (List.range ks.length).map d := by
  have hkept : ks.map s = ((List.range ks.length).map d).map some := by
    refine List.ext_getElem (by simp) (fun j hj _ => ?_)
    rw [List.length_map] at hj
    simp [hcells ks[j] j (List.getElem?_eq_getElem hj)]
  have hfilter : (List.range n).filterMap s = ks.filterMap s := by
    rw [hks, List.filterMap_filter]
    refine List.filterMap_congr (fun i hi => ?_)
    by_cases hp : p i = true
    · rw [if_pos hp]
    · rw [if_neg hp]
      exact hdropped i hi (fun hmem => hp (List.mem_filter.1 (hks ▸ hmem)).2)
  calc (List.range n).filterMap s = (ks.map s).reduceOption := by
        rw [hfilter, reduceOption_map]
    _ = (List.range ks.length).map d := by rw [hkept, reduceOption_map_some]

variable [Field K] [LinearOrder K] {S : RowOps K} {R : Root K} {nt : NodeTraverser} {arg : IRExpr}

/-- The chain as Polars evaluates it on a frame. -/
def chainValues (S : RowOps K) (R : Root K) (df : Frame K) (nt : NodeTraverser) (arg : IRExpr) :
    List (Option K) :=
  (evalTree (seriesInterp S R df.rows.length) (seriesOf df) nt arg).values df.rows.length

omit [Field K] [LinearOrder K] in
/-- A kept row's cells are the staged ones. -/
theorem column_agrees (S : RowOps K) (df : Frame K) {cols : List String} {c : String} (hc : c ∈ cols) :
    Agrees (RowKept df cols) (seriesOf df c) (denseColumn S (df.dropNullsSubset cols) c) := by
  refine .column (fun i j hij => ?_)
  have hmem := List.mem_of_getElem? hij
  obtain ⟨x, hx⟩ := Option.isSome_iff_exists.1
    (List.all_eq_true.1 (List.mem_filter.1 hmem).2 c hc)
  have hcell : ((df.dropNullsSubset cols).getColumn c).getD j none = some x := by
    rw [getColumn_dropNullsSubset, List.getD_eq_getElem?_getD, List.getElem?_map, hij]
    exact hx
  rw [hcell]
  exact hx

/-- A chain that reads columns is one, and null in the rows that are dropped. -/
theorem chain_column (df : Frame K) {cols : List String} (ha : Admitted nt arg) (ht : Traversed arg)
    (hcols : ∀ c ∈ cols, NamesColumn nt c (leafIds arg)) (hne : ∃ c, c ∈ cols) :
    ∃ s, evalTree (seriesInterp S R df.rows.length) (seriesOf df) nt arg = .column s ∧
      (classifyNullIr nt arg = some false →
        ∀ i ∈ List.range df.rows.length, i ∉ keptRows df cols → s i = none) := by
  have hreads : ∀ c ∈ cols, ReadsInto _ (classifyNullIr nt arg = some false)
      (evalTree (seriesInterp S R df.rows.length) (seriesOf df) nt arg) :=
    fun c hc => tree_reads rfl arg ha ht (hcols c hc)
  obtain ⟨c₀, hc₀⟩ := hne
  obtain ⟨s, hs, -⟩ := hreads c₀ hc₀
  refine ⟨s, hs, fun hmode i hi hkept => ?_⟩
  have hnull : ∃ c ∈ cols, (df.getColumn c).getD i none = none := by
    by_contra hall
    push Not at hall
    refine hkept (List.mem_filter.2 ⟨hi, List.all_eq_true.2 (fun c hc => ?_)⟩)
    exact Option.isSome_iff_ne_none.2 (hall c hc)
  obtain ⟨c, hc, hcell⟩ := hnull
  obtain ⟨t, ht, hnull⟩ := hreads c hc
  obtain rfl := Operand.column.inj (hs.symm.trans ht)
  exact hnull hmode i hcell

/-- A chain has no more values than rows are staged. -/
theorem chainValues_length_le (df : Frame K) {cols : List String} (ha : Admitted nt arg)
    (ht : Traversed arg) (hcols : ∀ c ∈ cols, NamesColumn nt c (leafIds arg)) (hne : ∃ c, c ∈ cols)
    {dropNulls : Bool} (hmode : dropNulls = true → classifyNullIr nt arg = some false) :
    (chainValues S R df nt arg).reduceOption.length ≤
      (if dropNulls then df.dropNullsSubset cols else df).rows.length := by
  obtain ⟨s, hs, hdropped⟩ := chain_column (S := S) (R := R) df ha ht hcols hne
  have hvalues : (Operand.column s).values df.rows.length = (List.range df.rows.length).map s := rfl
  rw [chainValues, hs, hvalues, reduceOption_map]
  cases dropNulls with
  | false =>
    refine (List.length_filterMap_le ..).trans ?_
    rw [List.length_range]
    exact le_rfl
  | true =>
    have hkept : (List.range df.rows.length).filterMap s = (keptRows df cols).filterMap s := by
      conv_rhs => rw [keptRows, List.filterMap_filter]
      refine List.filterMap_congr fun i hi => ?_
      split_ifs with hkeep
      · rfl
      · exact hdropped (hmode rfl) i hi fun hmem => hkeep (List.mem_filter.1 hmem).2
    rw [hkept, if_pos rfl, dropNullsSubset_length]
    exact List.length_filterMap_le ..

/-- The array of the kept rows holds the chain's non-null values. -/
theorem chainValues_reduceOption {lits : List PyFloat} (df : Frame K) {cols : List String}
    (ha : Admitted nt arg) (ht : Traversed arg) (hf : Faithful nt lits arg) (hu : Unshifted nt arg)
    (hcols : ∀ c, c ∈ cols ↔ NamesColumn nt c (leafIds arg)) (hne : ∃ c, c ∈ cols)
    (hmode : (∀ c ∈ cols, none ∉ df.getColumn c) ∨ classifyNullIr nt arg = some false) {m : ℕ}
    (hm : m = (keptRows df cols).length) :
    (chainValues S R df nt arg).reduceOption =
        (evalTree (denseInterp S R m) (denseColumn S (df.dropNullsSubset cols)) nt arg).values m ∧
      (chainValues S R df nt arg).reduceOption.length = m := by
  have hagrees : Agrees (RowKept df cols)
      (evalTree (seriesInterp S R df.rows.length) (seriesOf df) nt arg)
      (evalTree (denseInterp S R m) (denseColumn S (df.dropNullsSubset cols)) nt arg) :=
    tree_agrees arg ha hf hu (hmode.imp_left allRows_of_no_null)
      (fun id hid c hc => column_agrees S df ((hcols c).2 ⟨id, hid, hc⟩))
  obtain ⟨s, hs, hnull⟩ := chain_column (S := S) (R := R) df ha ht (fun c hc => (hcols c).1 hc) hne
  rw [chainValues]
  rw [hs] at hagrees ⊢
  generalize evalTree (denseInterp S R m) (denseColumn S (df.dropNullsSubset cols)) nt arg = d
    at hagrees ⊢
  cases hagrees with
  | @column _ d cells =>
    -- a row that is not kept is null in the chain
    have hdropped : ∀ i ∈ List.range df.rows.length, i ∉ keptRows df cols → s i = none := by
      intro i hi hkept
      rcases hmode with hmode | hmode
      · exact absurd (keptRows_of_no_null hmode ▸ hi) hkept
      · exact hnull hmode i hi hkept
    have hvalues : (Operand.column s).values df.rows.length = (List.range df.rows.length).map s := rfl
    have hkept : (List.range df.rows.length).filterMap s =
        (List.range (keptRows df cols).length).map d := filterMap_kept rfl hdropped cells
    rw [hvalues, reduceOption_map, hm]
    refine ⟨hkept, ?_⟩
    rw [hkept, List.length_map, List.length_range]

end Rows

/-! The value returned. -/

/-- The values go to the executor: a column with a null or fewer than two rows is reduced by Polars,
and too few rows of a chain by rule. -/
def Launched {K : Type} (df : Frame K) (r : ReductionScope) (dropNulls : Bool) : Prop :=
  if r.isChain = false then
    2 ≤ df.rows.length ∧ none ∉ df.getColumn ((colNames r.descriptors).headD "")
  else
    let frame := if dropNulls then df.dropNullsSubset (colNames r.descriptors) else df
    frame.rows.length ≠ 0 ∧ (r.aggKind = "std" ∨ r.aggKind = "var" → 2 ≤ frame.rows.length)

/-- Where the kernels compute the chain: its parameters and literals are the ops', no shift moves a
row, literals are staged as declared, and a frame that is staged whole has no null to drop. -/
structure ReductionSound {K : Type} (df : Frame K) (nt : NodeTraverser) (schema : Schema)
    (arg : IRExpr) (r : ReductionScope) (dropNulls : Bool) : Prop where
  faithful : Faithful nt (litValues nt (leafIds arg)) arg
  unshifted : Unshifted nt arg
  literals : ReadsLiteral nt (leafIds arg) → Fusion.outDtype nt schema arg = r.outDtype
  nullFree : r.isChain = true → dropNulls = false → ∀ c ∈ colNames r.descriptors, none ∉ df.getColumn c

section Value

variable {K : Type} [Field K] [LinearOrder K] [IsStrictOrderedRing K] {S : RowOps K} {R : Root K}
  {nt : NodeTraverser} {schema : Schema} {arg : IRExpr} {r : ReductionScope} {op : OpId}

omit [IsStrictOrderedRing K] in
theorem polarsReduce_reduceOption (kind : String) (ddof : ℕ) (series : List (Option K)) :
    polarsReduce R kind ddof (series.reduceOption.map some) = polarsReduce R kind ddof series := by
  unfold polarsReduce
  rw [reduceOption_map_some]

/-- A launch over the rows that are not dropped returns the sample reduction. -/
theorem launch_kept (hS : S.toInterp.Coherent) (h : ReductionAnalyzed nt schema arg r op)
    (ht : Traversed arg) (hf : Faithful nt (litValues nt (leafIds arg)) arg) (hu : Unshifted nt arg)
    (hlits : ReadsLiteral nt (leafIds arg) → Fusion.outDtype nt schema arg = r.outDtype)
    (df : Frame K)
    (hmode : (∀ c ∈ colNames r.descriptors, none ∉ df.getColumn c) ∨
      classifyNullIr nt arg = some false)
    (hne : (df.dropNullsSubset (colNames r.descriptors)).rows.length ≠ 0)
    (htwo : r.aggKind = "std" ∨ r.aggKind = "var" →
      1 < (df.dropNullsSubset (colNames r.descriptors)).rows.length) (v : Option K) :
    launchReduction S R (df.dropNullsSubset (colNames r.descriptors)) r = .ok v ↔
      DtypeHonoured S nt schema arg r ∧ polarsReduce R r.aggKind 1 (chainValues S R df nt arg) = v := by
  obtain ⟨hvalues, hlength⟩ := chainValues_reduceOption (S := S) (R := R) df h.admitted ht hf hu
    h.columns (h.reads.imp (fun _ hc => hc.1)) hmode
    (dropNullsSubset_length df (colNames r.descriptors))
  rw [launchReduction_iff hS h hf hlits, ← hvalues]
  generalize hxs : (chainValues S R df nt arg).reduceOption = xs at hlength ⊢
  rw [← hlength] at hne htwo ⊢
  rw [bessel_mlxReduce R h.kind (List.length_pos_iff.1 (Nat.pos_of_ne_zero hne)) htwo, ← hxs,
    polarsReduce_reduceOption]

omit [IsStrictOrderedRing K] in
/-- A column of the frame is the chain of a bare reduction. -/
theorem chainValues_leaf (df : Frame K) {id : ℕ} {c : String} (hc : nt id = .column c) :
    chainValues S R df nt (.leaf id) = df.getColumn c := by
  rw [chainValues, evalTree, hc]
  refine List.ext_getElem (by simp [seriesOf, evalLeaf, Operand.values, Frame.getColumn])
    (fun i hi hi' => ?_)
  simp [seriesOf, evalLeaf, Operand.values, hi']

omit [IsStrictOrderedRing K] in
/-- Too few values for a launch. -/
theorem polarsReduce_few {kind : String} {series : List (Option K)} :
    (series.reduceOption = [] →
      polarsReduce R kind 1 series = if kind = "sum" then some 0 else none) ∧
    (series.reduceOption.length < 2 → kind = "std" ∨ kind = "var" →
      polarsReduce R kind 1 series = none) := by
  refine ⟨fun h => ?_, fun h hkind => ?_⟩
  · have hvar : variance 1 ([] : List K) = none := variance_eq_none (Nat.zero_le _)
    unfold polarsReduce
    simp only [h]
    split <;> simp_all
  · have hvar := variance_eq_none (Nat.lt_succ_iff.1 h)
    rcases hkind with rfl | rfl
    · simp [polarsReduce, hvar]
    · simp [polarsReduce, hvar]

theorem nullModeIr_elementwise {e : IRExpr} :
    nullModeIr nt e = some .elementwise ↔ classifyNullIr nt e = some false := by
  unfold nullModeIr
  rcases classifyNullIr nt e with _ | b
  · simp
  · cases b <;> simp

omit [Field K] [LinearOrder K] [IsStrictOrderedRing K] in
theorem routed_elementwise {plan : PlanNode K} {dropNulls : Bool} (hchain : r.isChain = true)
    (hroute : routeFusedReduction plan nt arg r = some dropNulls) (hdrop : dropNulls = true) :
    classifyNullIr nt arg = some false := by
  subst hdrop
  unfold routeFusedReduction at hroute
  split_ifs at hroute with hbare _ hmode
  · exact absurd (hchain.symm.trans hbare) (by decide)
  · cases hroute
  · exact nullModeIr_elementwise.1 hmode

omit [Field K] [LinearOrder K] [IsStrictOrderedRing K] in
/-- The rows staged are those without a null, and every step of the chain reads them row by row or
reads them all. -/
theorem staged_kept {plan : PlanNode K} {dropNulls : Bool} (hchain : r.isChain = true)
    (hroute : routeFusedReduction plan nt arg r = some dropNulls)
    (hsound : ReductionSound plan.eval nt schema arg r dropNulls) :
    (if dropNulls then plan.eval.dropNullsSubset (colNames r.descriptors) else plan.eval) =
        plan.eval.dropNullsSubset (colNames r.descriptors) ∧
      ((∀ c ∈ colNames r.descriptors, none ∉ plan.eval.getColumn c) ∨
        classifyNullIr nt arg = some false) := by
  cases dropNulls with
  | false =>
    have hfree := hsound.nullFree hchain rfl
    exact ⟨(dropNullsSubset_of_no_null hfree).symm, Or.inl hfree⟩
  | true => exact ⟨rfl, Or.inr (routed_elementwise hchain hroute rfl)⟩

omit [IsStrictOrderedRing K] in
/-- Where nothing is launched, the UDF returns the sample reduction too. -/
theorem selectReductionFused_few {plan : PlanNode K} {dropNulls : Bool}
    (h : ReductionAnalyzed nt schema arg r op) (ht : Traversed arg)
    (hroute : routeFusedReduction plan nt arg r = some dropNulls)
    (hfew : ¬ Launched plan.eval r dropNulls) :
    selectReductionFused S R plan.eval r dropNulls =
      .ok (polarsReduce R r.aggKind 1 (chainValues S R plan.eval nt arg)) := by
  unfold selectReductionFused
  unfold Launched at hfew
  by_cases hchain : r.isChain = false
  · rw [if_pos hchain] at hfew ⊢
    obtain ⟨id, c, rfl, hc, hds⟩ := h.bare hchain
    have hcols : colNames r.descriptors = [c] := by
      rw [hds]
      rfl
    simp only [hcols, List.headD_cons] at hfew ⊢
    rw [if_pos (by rwa [not_and_or, not_not, not_le] at hfew), chainValues_leaf _ hc]
  · rw [if_neg hchain] at hfew ⊢
    have hlength := chainValues_length_le (S := S) (R := R) plan.eval h.admitted ht
      (fun c hc => (h.columns c).1 hc) (h.reads.imp (fun _ hc => hc.1))
      (routed_elementwise (Bool.not_eq_false _ ▸ hchain) hroute)
    simp only at hfew hlength ⊢
    generalize (if dropNulls then plan.eval.dropNullsSubset (colNames r.descriptors)
      else plan.eval) = frame at hfew hlength ⊢
    split_ifs with hzero hsum htwo
    · have hnone := List.length_eq_zero_iff.1 (Nat.le_zero.1 (hlength.trans hzero.le))
      rw [polarsReduce_few.1 hnone, if_pos hsum]
    · have hnone := List.length_eq_zero_iff.1 (Nat.le_zero.1 (hlength.trans hzero.le))
      rw [polarsReduce_few.1 hnone, if_neg hsum]
    · rw [polarsReduce_few.2 (hlength.trans_lt htwo.2) htwo.1]
    · exact absurd ⟨hzero, fun hkind => Nat.not_lt.1 fun hlt => htwo ⟨hkind, hlt⟩⟩ hfew

/-- What the UDF returns is the sample reduction of the chain's non-null values, unless the executor
refuses the element type. -/
theorem selectReductionFused_ok_iff (hS : S.toInterp.Coherent) {plan : PlanNode K} {dropNulls : Bool}
    (h : ReductionAnalyzed nt schema arg r op) (ht : Traversed arg)
    (hroute : routeFusedReduction plan nt arg r = some dropNulls)
    (hsound : Launched plan.eval r dropNulls →
      ReductionSound plan.eval nt schema arg r dropNulls) (v : Option K) :
    selectReductionFused S R plan.eval r dropNulls = .ok v ↔
      (Launched plan.eval r dropNulls → DtypeHonoured S nt schema arg r) ∧
        polarsReduce R r.aggKind 1 (chainValues S R plan.eval nt arg) = v := by
  by_cases hlaunched : Launched plan.eval r dropNulls
  swap
  · rw [selectReductionFused_few h ht hroute hlaunched, Except.ok.injEq]
    exact (and_iff_right fun hl => absurd hl hlaunched).symm
  rw [imp_iff_right hlaunched]
  have hsound := hsound hlaunched
  unfold Launched at hlaunched
  unfold selectReductionFused
  by_cases hchain : r.isChain = false
  · rw [if_pos hchain] at hlaunched ⊢
    obtain ⟨id, c, rfl, hc, hds⟩ := h.bare hchain
    have hcols : colNames r.descriptors = [c] := by
      rw [hds]
      rfl
    simp only [hcols, List.headD_cons] at hlaunched ⊢
    have hmany : ¬(plan.eval.rows.length < 2 ∨ none ∈ plan.eval.getColumn c) :=
      not_or.2 ⟨Nat.not_lt.2 hlaunched.1, hlaunched.2⟩
    rw [if_neg hmany]
    have hfree : ∀ d ∈ colNames r.descriptors, none ∉ plan.eval.getColumn d := by
      rw [hcols]
      exact fun d hd => List.mem_singleton.1 hd ▸ hlaunched.2
    have hlaunch := launch_kept (R := R) hS h ht hsound.faithful hsound.unshifted hsound.literals
      plan.eval (Or.inl hfree)
    rw [dropNullsSubset_of_no_null hfree] at hlaunch
    exact hlaunch (by omega) (fun _ => by omega) v
  · rw [if_neg hchain] at hlaunched ⊢
    obtain ⟨hframe, hmode⟩ := staged_kept (Bool.not_eq_false _ ▸ hchain) hroute hsound
    rw [hframe] at hlaunched ⊢
    obtain ⟨hzero, htwo⟩ := hlaunched
    simp only
    rw [if_neg hzero, if_neg (fun hfew => Nat.not_lt.2 (htwo hfew.1) hfew.2)]
    exact launch_kept hS h ht hsound.faithful hsound.unshifted hsound.literals plan.eval hmode hzero
      htwo v

end Value

/-- A fused reduction that computes its chain is Polars' reduction with the query's `ddof` exactly
when the executor accepts the element type of what it launches and that divisor gives what the sample
divisor gives: the query's `ddof` is never read. -/
theorem select_reduction_fused_iff {K : Type} [Field K] [LinearOrder K] [IsStrictOrderedRing K]
    {S : RowOps K} {R : Root K} (hS : S.toInterp.Coherent) {nt : NodeTraverser} {schema : Schema}
    {name : String} {arg : IRExpr} {r : ReductionScope}
    (h : analyzeIrReduction nt schema (.agg name [arg]) = .ok r) (ht : Traversed arg)
    {plan : PlanNode K} {dropNulls : Bool}
    (hroute : routeFusedReduction plan nt arg r = some dropNulls)
    (hsound : Launched plan.eval r dropNulls →
      ReductionSound plan.eval nt schema arg r dropNulls) (ddof : ℕ) :
    selectReductionFused S R plan.eval r dropNulls =
        .ok (polarsReduce R r.aggKind ddof (chainValues S R plan.eval nt arg)) ↔
      (Launched plan.eval r dropNulls → DtypeHonoured S nt schema arg r) ∧
        DdofHonoured r.aggKind ddof (chainValues S R plan.eval nt arg).reduceOption := by
  obtain ⟨op, hop⟩ := analyzeIrReduction_analyzed h
  rw [selectReductionFused_ok_iff hS hop ht hroute hsound, polarsReduce_one_eq_iff]

/-! Fixed queries. -/

section Samples

variable {K : Type} [Field K] [LinearOrder K]

/-- Sums, products and a comparison of a row; every other op passes its first argument on. -/
def sampleOp : OpSemantics K := fun op _ args =>
  match op with
  | .add => args.sum
  | .mul => args.prod
  | .gt => if args.getD 1 0 < args.headD 0 then 1 else 0
  | _ => args.headD 0

/-- A comparison is a Boolean, a sum of Booleans an Int32. -/
def sampleDtype (op : OpId) (args : List MlxDtype) : Except String MlxDtype :=
  match op, args with
  | .gt, _ => .ok .bool
  | .sum, .bool :: _ => .ok .i32
  | _, arg :: _ => .ok arg
  | _, [] => .error ""

def sampleOps : RowOps K where
  op := sampleOp
  lit := fun x =>
    match x with
    | .finite q => q
    | _ => 0
  object := fun _ => 0
  binary := fun op l r =>
    match binopMap op with
    | some o => sampleOp o none [l, r]
    | none => 0
  cast := fun _ x => x
  function := fun _ args => args.headD 0
  agg := fun _ args => args.headD 0
  ternary := fun p _ _ => p
  hidden := 0
  truth := fun _ => true
  nan := 0
  misread := fun _ => .scalar none 0
  resultDtype := sampleDtype

theorem sampleOps_coherent : (sampleOps : RowOps K).toInterp.Coherent where
  binary _ h _ _ := by simp only [sampleOps, mem_binaryMeanings.1 h]
  castF32 _ := rfl
  plain p h _ := by
    obtain ⟨f, opId⟩ := p
    obtain rfl := mem_plainMeanings.1 h
    cases f <;> rfl
  round _ := rfl
  cumulative p h _ := by
    obtain ⟨c, opId⟩ := p
    obtain rfl := mem_cumulativeMeanings.1 h
    cases c <;> rfl
  pow _ := rfl
  log _ _ _ h := by
    unfold exactLogOp at h
    split_ifs at h <;> cases h <;> rfl
  shift _ _ := rfl
  ternary _ _ _ := rfl

end Samples

noncomputable def realRoot : Root ℝ where
  sqrt := Real.sqrt
  mul := fun _ b ha _ => Real.sqrt_mul ha b
  inj := fun _ _ ha hb h => (Real.sqrt_inj ha hb).1 h

/-- The leaves and the tree of `x + 1`. -/
def addLeaves : NodeTraverser
  | 0 => .column "x"
  | _ => .literal (.int 1)

def addOne : IRExpr := .binary .plus (.leaf 0) (.leaf 1)

def addOneVar : ReductionScope :=
  ⟨⟨[⟨"x", .f32⟩, ⟨"__lit_1.0", .f32⟩], [⟨.add, [0, 1], none⟩, ⟨.var, [2], none⟩], [3]⟩,
    [.col "x", .lit (.finite 1)], "var", true, .f32⟩

noncomputable def nullScan : PlanNode ℝ := .scan ⟨["x"], [[some 1], [none], [some ((4 : ℕ) : ℝ)]]⟩ none

theorem addOneVar_sound : ReductionSound nullScan.eval addLeaves (fun _ => some .float32) addOne
    addOneVar true := by
  refine ⟨⟨trivial, ⟨.finite 1, rfl, by decide +kernel, by decide +kernel⟩⟩, ⟨trivial, trivial⟩,
    fun _ => by decide +kernel, fun _ h => (nomatch h)⟩

theorem select_reduction_fused_iff_sample :
    selectReductionFused sampleOps realRoot nullScan.eval addOneVar true =
        .ok (polarsReduce realRoot "var" 0 (chainValues sampleOps realRoot nullScan.eval addLeaves addOne)) ↔
      (Launched nullScan.eval addOneVar true →
          DtypeHonoured (sampleOps : RowOps ℝ) addLeaves (fun _ => some .float32) addOne addOneVar) ∧
        DdofHonoured "var" 0
          (chainValues sampleOps realRoot nullScan.eval addLeaves addOne).reduceOption := by
  have h : analyzeIrReduction addLeaves (fun _ => some .float32) (.agg "var" [addOne]) =
      .ok addOneVar := by decide +kernel
  have hroute : routeFusedReduction nullScan addLeaves addOne addOneVar = some true := rfl
  exact select_reduction_fused_iff sampleOps_coherent h ⟨trivial, trivial⟩ hroute
    (fun _ => addOneVar_sound) 0

/-- An admitted reduction of a Float32 column for which the UDF does not return Polars' value. -/
def Diverges (name : String) (arg : IRExpr) (r : ReductionScope) (plan : PlanNode ℝ)
    (dropNulls : Bool) (ddof : ℕ) : Prop :=
  analyzeIrReduction addLeaves (fun _ => some .float32) (.agg name [arg]) = .ok r ∧ Traversed arg ∧
    routeFusedReduction plan addLeaves arg r = some dropNulls ∧
      selectReductionFused sampleOps realRoot plan.eval r dropNulls ≠
        .ok (polarsReduce realRoot r.aggKind ddof (chainValues sampleOps realRoot plan.eval addLeaves arg))

/-- `x` as it stands. -/
def bareVar : ReductionScope :=
  ⟨⟨[⟨"x", .f32⟩], [⟨.var, [0], none⟩], [1]⟩, [.col "x"], "var", false, .f32⟩

noncomputable def pairScan : PlanNode ℝ := .scan ⟨["x"], [[some 1], [some ((3 : ℕ) : ℝ)]]⟩ none

theorem bareVar_sound : ReductionSound pairScan.eval addLeaves (fun _ => some .float32) (.leaf 0)
    bareVar false :=
  ⟨trivial, trivial, fun hlit => by simp [ReadsLiteral, leafIds, addLeaves] at hlit,
    fun hchain => (nomatch hchain)⟩

/-- `x.shift(1)` -/
def shiftOne : IRExpr := .function .shift [.leaf 0, .leaf 1]

def shiftedMean : ReductionScope :=
  ⟨⟨[⟨"x", .f32⟩], [⟨.shift, [0], some 1⟩, ⟨.mean, [1], none⟩], [2]⟩, [.col "x"], "mean", true, .f32⟩

/-- `x > 1` -/
def aboveOne : IRExpr := .binary .gt (.leaf 0) (.leaf 1)

def countAbove : ReductionScope :=
  ⟨⟨[⟨"x", .f32⟩, ⟨"__lit_1.0", .f32⟩], [⟨.gt, [0, 1], none⟩, ⟨.sum, [2], none⟩], [3]⟩,
    [.col "x", .lit (.finite 1)], "sum", true, .f32⟩

/-- Over 1 and 3, `x.var(ddof=0)` is 1 and the UDF returns 2; `x.shift(1).mean()` is 1 and the UDF
counts a zero; `(x > 1).sum()` is 1 and the executor refuses an Int32. -/
theorem select_reductions_diverge :
    Diverges "var" (.leaf 0) bareVar pairScan false 0 ∧
      Diverges "mean" shiftOne shiftedMean pairScan false 1 ∧
      Diverges "sum" aboveOne countAbove pairScan false 1 := by
  refine ⟨⟨by decide +kernel, trivial, rfl, fun hvalue => ?_⟩,
    ⟨by decide +kernel, ⟨trivial, trivial, trivial⟩, rfl, fun hvalue => ?_⟩,
    ⟨by decide +kernel, ⟨trivial, trivial⟩, rfl, fun hvalue => ?_⟩⟩
  · have hanalyzed : analyzeIrReduction addLeaves (fun _ => some .float32) (.agg "var" [.leaf 0]) =
        .ok bareVar := by decide +kernel
    obtain ⟨op, hop⟩ := analyzeIrReduction_analyzed hanalyzed
    rw [selectReductionFused_ok_iff sampleOps_coherent hop trivial rfl (fun _ => bareVar_sound),
      polarsReduce_one_eq_iff, chainValues_leaf _ (c := "x") rfl] at hvalue
    have hcolumn : (pairScan.eval.getColumn "x").reduceOption = [(1 : ℝ), ((3 : ℕ) : ℝ)] := rfl
    rw [hcolumn] at hvalue
    rcases hvalue.2 (Or.inl rfl) with h | h | ⟨-, -, h⟩
    · cases h
    · exact absurd h.1 (by decide)
    · exact absurd (h 1 (by simp) ((3 : ℕ) : ℝ) (by simp)) (by norm_num)
  · have hlaunch : selectReductionFused sampleOps realRoot pairScan.eval shiftedMean false =
        .ok (some (mean [0, (1 : ℝ)])) := rfl
    have hpolars : polarsReduce realRoot "mean" 1
        (chainValues sampleOps realRoot pairScan.eval addLeaves shiftOne) = some (mean [(1 : ℝ)]) := rfl
    have hmean := Option.some.inj (Except.ok.inj (hlaunch.symm.trans (hvalue.trans (congrArg _ hpolars))))
    simp [mean] at hmean
  · have hlaunch : selectReductionFused (sampleOps : RowOps ℝ) realRoot pairScan.eval countAbove false =
        .error (.mlxError "output dtype mismatch: declared F32, eval'd I32") := rfl
    exact absurd (hlaunch.symm.trans hvalue) (by rintro ⟨⟩)

end PolarsMetal.Lowering
