import PolarsMetal.Verbs.Layer

/-! Several verbs in one layer. Only one verb is dispatched; the others are collected with the rest of
the layer, which a native verb survives and a sentinel does not. -/

namespace PolarsMetal.Verbs
open Fallible

variable {C D S : Type} {E : Engine C D S} {base : Table C} {layer : List (LayerExpr C D S)}

/-! Named columns. -/

theorem lookup_isSome_iff {t : Table C} {n : String} :
    (∃ c, t.lookup n = some c) ↔ n ∈ tableNames t := by
  induction t with
  | nil => simp [tableNames]
  | cons p t ih =>
    rw [List.lookup_cons]
    by_cases h : n = p.1
    · simp [tableNames, h]
    · have hbeq : (n == p.1) = false := by simpa using h
      rw [hbeq]
      simpa [tableNames, h] using ih

theorem lookup_of_mem {t : Table C} (hnodup : (tableNames t).Nodup) {n : String} {c : C}
    (h : (n, c) ∈ t) : t.lookup n = some c := by
  induction t with
  | nil => cases h
  | cons p t ih =>
    obtain ⟨hp, ht⟩ := List.nodup_cons.1 hnodup
    rw [List.lookup_cons]
    rcases List.mem_cons.1 h with rfl | h
    · simp
    · have hne : n ≠ p.1 := fun he => hp (he ▸ List.mem_map_of_mem h)
      have hbeq : (n == p.1) = false := by simpa using hne
      rw [hbeq]
      exact ih ht h

theorem lookup_append_of_not_mem {t u : Table C} {n : String} (h : n ∉ tableNames t) :
    (t ++ u).lookup n = u.lookup n := by
  induction t with
  | nil => rfl
  | cons p t ih =>
    obtain ⟨hp, ht⟩ := not_or.1 (fun hn => h (List.mem_cons.2 hn))
    have hbeq : (n == p.1) = false := by simpa using hp
    rw [List.cons_append, List.lookup_cons, hbeq]
    exact ih ht

theorem lookup_append_of_some {t u : Table C} {n : String} {c : C} (h : t.lookup n = some c) :
    (t ++ u).lookup n = some c := by
  induction t with
  | nil => cases h
  | cons p t ih =>
    rw [List.lookup_cons] at h
    rw [List.cons_append, List.lookup_cons]
    rcases hn : n == p.1 with _ | _ <;> rw [hn] at h
    · exact ih h
    · exact h

/-- Gathering columns by name, all of which are there. -/
theorem gather_ok {f : String → Except CollectError C} {names : List String}
    (h : ∀ n ∈ names, ∃ c, f n = .ok c) :
    ∃ t, names.mapM (fun n => (f n).map (fun c => (n, c))) = .ok t ∧ tableNames t = names ∧
      ∀ n ∈ names, ∀ c, f n = .ok c → t.lookup n = some c := by
  induction names with
  | nil => exact ⟨[], rfl, rfl, fun _ hn => (nomatch hn)⟩
  | cons n names ih =>
    obtain ⟨⟨c, hc⟩, hrest⟩ := List.forall_mem_cons.1 h
    obtain ⟨t, ht, hnames, hlookup⟩ := ih hrest
    refine ⟨(n, c) :: t, ?_, congrArg (n :: ·) hnames, fun m hm d hd => ?_⟩
    · rw [List.mapM_cons, hc, ht]
      rfl
    · rw [List.lookup_cons]
      by_cases hmn : m = n
      · subst hmn
        rw [hc] at hd
        cases hd
        simp
      · have hbeq : (m == n) = false := by simpa using hmn
        rw [hbeq]
        exact hlookup m ((List.mem_cons.1 hm).resolve_left hmn) d hd

theorem gather_names {f : String → Except CollectError C} {names : List String} {t : Table C}
    (h : names.mapM (fun n => (f n).map (fun c => (n, c))) = .ok t) : tableNames t = names := by
  have hall := forall₂_of_mapM h
  clear h
  induction hall with
  | nil => rfl
  | @cons n p _ _ hp _ ih =>
    rcases hn : f n with e | c <;> rw [hn] at hp <;> cases hp
    exact congrArg (n :: ·) ih

theorem gather_column {f : String → Except CollectError C} {names : List String} {t : Table C}
    (h : names.mapM (fun n => (f n).map (fun c => (n, c))) = .ok t) {n : String} (hn : n ∈ names) :
    ∃ c, f n = .ok c := by
  have hall := forall₂_of_mapM h
  clear h
  induction hall with
  | nil => cases hn
  | @cons m p _ _ hp _ ih =>
    rcases List.mem_cons.1 hn with rfl | hn
    · rcases hf : f n with e | c
      · rw [hf] at hp
        cases hp
      · exact ⟨c, rfl⟩
    · exact ih hn

/-- Gathering columns one of which raises, where nothing but guards raises. -/
theorem gather_guard {f : String → Except CollectError C} {names : List String}
    (hall : ∀ n ∈ names, (∃ c, f n = .ok c) ∨ ∃ v, f n = .error (.guard v))
    (hsome : ∃ n ∈ names, ∃ v, f n = .error (.guard v)) :
    ∃ v, names.mapM (fun n => (f n).map (fun c => (n, c))) = .error (.guard v) := by
  induction names with
  | nil =>
    obtain ⟨n, hn, -⟩ := hsome
    cases hn
  | cons n names ih =>
    obtain ⟨hn, hrest⟩ := List.forall_mem_cons.1 hall
    rcases hn with ⟨c, hc⟩ | ⟨v, hv⟩
    · have htail : ∃ m ∈ names, ∃ v, f m = .error (.guard v) := by
        obtain ⟨m, hm, v, hv⟩ := hsome
        rcases List.mem_cons.1 hm with rfl | hm
        · rw [hc] at hv
          cases hv
        · exact ⟨m, hm, v, hv⟩
      obtain ⟨v, hv⟩ := ih hrest htail
      exact ⟨v, by rw [List.mapM_cons, hc, hv]; rfl⟩
    · exact ⟨v, by rw [List.mapM_cons, hv]; rfl⟩

/-! The layer's columns. -/

theorem columnOf_expr (hnodup : (layer.map LayerExpr.outName).Nodup) {e : LayerExpr C D S}
    (he : e ∈ layer) : columnOf E base layer e.outName = e.cpuValue E base := by
  have hfind : layer.find? (fun e' => e'.outName = e.outName) = some e := by
    induction layer with
    | nil => cases he
    | cons e' layer ih =>
      obtain ⟨hhead, htail⟩ := List.nodup_cons.1 hnodup
      rcases List.mem_cons.1 he with rfl | he
      · rw [List.find?_cons_of_pos (by simp)]
      · have hne : e'.outName ≠ e.outName := fun h => hhead (h ▸ List.mem_map_of_mem he)
        rw [List.find?_cons_of_neg (by simpa using hne)]
        exact ih htail he
  unfold columnOf
  rw [hfind]

theorem columnOf_base {n : String} (hn : n ∉ layer.map LayerExpr.outName) {c : C}
    (hc : base.lookup n = some c) : columnOf E base layer n = .ok c := by
  have hfind : layer.find? (fun e => e.outName = n) = none := by
    rw [List.find?_eq_none]
    intro e he h
    exact hn (List.mem_map.2 ⟨e, he, by simpa using h⟩)
  unfold columnOf
  rw [hfind, hc]

theorem cpuValue_sentinel {v : Verb} (hv : v.sentinel = true) (b : Binding S) :
    (LayerExpr.verb v b : LayerExpr C D S).cpuValue E base = .error (.guard v) := if_pos hv

theorem cpuValue_native {v : Verb} (hv : v.sentinel = false) {b : Binding S} {c : C}
    (hc : base.lookup b.column = some c) :
    (LayerExpr.verb v b : LayerExpr C D S).cpuValue E base = .ok (E.polars v b.spec c) := by
  unfold LayerExpr.cpuValue
  simp only [hv, hc, Bool.false_eq_true, if_false]

theorem mem_layerNames {n : String} :
    n ∈ layerNames base layer ↔ n ∈ tableNames base ∨ n ∈ layer.map LayerExpr.outName := by
  unfold layerNames
  rw [List.mem_append, List.mem_filter]
  by_cases h : n ∈ tableNames base <;> simp [h]

/-! The dispatch. -/

theorem collectStitchBase_ok {outNames srcCols : List String}
    (hrest : ∀ n ∈ layerNames base layer, n ∉ outNames → ∃ c, columnOf E base layer n = .ok c)
    (hsrc : ∀ c ∈ srcCols, c ∈ layerNames base layer ∧ c ∉ outNames) :
    ∃ df, collectStitchBase E base layer outNames srcCols = .ok df ∧
      ∀ n ∈ layerNames base layer, n ∉ outNames → ∀ c, columnOf E base layer n = .ok c →
        df.lookup n = some c := by
  obtain ⟨df, hdf, hnames, hlookup⟩ := @gather_ok _ (columnOf E base layer)
    ((layerNames base layer).filter (· ∉ outNames))
    (fun n hn => hrest n (List.mem_filter.1 hn).1 (by simpa using (List.mem_filter.1 hn).2))
  have hmissing : ((srcCols.filter (· ≠ "")).eraseDups.filter (· ∉ tableNames df)) = [] := by
    rw [List.filter_eq_nil_iff]
    intro c hc
    obtain ⟨hin, hout⟩ := hsrc c (List.mem_filter.1 (List.mem_eraseDups.1 hc)).1
    have hmem : c ∈ tableNames df := by
      rw [hnames]
      exact List.mem_filter.2 ⟨hin, by simpa using hout⟩
    simpa using hmem
  refine ⟨df, ?_, fun n hn hout c hc => ?_⟩
  · unfold collectStitchBase collectRest
    rw [hdf]
    change (if ((srcCols.filter (· ≠ "")).eraseDups.filter (· ∉ tableNames df)).isEmpty then _ else _) = _
    rw [hmissing]
    rfl
  · exact hlookup n (List.mem_filter.2 ⟨hn, by simpa using hout⟩) c hc

/-- The kernels over a frame that has their source columns. -/
theorem runBindings_ok {v : Verb} {df : Table C} {bs : List (Binding S)}
    (h : ∀ b ∈ bs, ∃ c k, df.lookup b.column = some c ∧ E.kernel v b.spec c = .ok k) :
    ∃ outs, bs.mapM (fun b => do
        let src ← getColumn df b.column
        let out ← E.kernel v b.spec src
        return (b.outName, out)) = .ok outs ∧
      tableNames outs = bs.map Binding.outName ∧
      ∀ b ∈ bs, ∀ c k, df.lookup b.column = some c → E.kernel v b.spec c = .ok k →
        (b.outName, k) ∈ outs := by
  induction bs with
  | nil => exact ⟨[], rfl, rfl, fun _ hb => (nomatch hb)⟩
  | cons b bs ih =>
    obtain ⟨⟨c, k, hc, hk⟩, hrest⟩ := List.forall_mem_cons.1 h
    obtain ⟨outs, houts, hnames, hmem⟩ := ih hrest
    refine ⟨(b.outName, k) :: outs, ?_, congrArg (b.outName :: ·) hnames, ?_⟩
    · have hget : getColumn df b.column = .ok c := by
        unfold getColumn
        rw [hc]
      rw [List.mapM_cons, houts, hget]
      change (do
        let r ← E.kernel v b.spec c >>= fun out => pure (b.outName, out)
        pure (r :: outs) : Except CollectError (Table C)) = _
      rw [hk]
      rfl
    · intro b' hb' c' k' hc' hk'
      rcases List.mem_cons.1 hb' with rfl | hb'
      · rw [hc] at hc'
        cases hc'
        rw [hk] at hk'
        cases hk'
        exact List.mem_cons_self
      · exact List.mem_cons_of_mem _ (hmem b' hb' c' k' hc' hk')

theorem applyVerb_ok {v : Verb} {bs : List (Binding S)}
    (hnodup : (bs.map Binding.outName).Nodup)
    (hrest : ∀ n ∈ layerNames base layer, n ∉ bs.map Binding.outName →
      ∃ c, columnOf E base layer n = .ok c)
    (hsrc : ∀ b ∈ bs, b.column ∈ layerNames base layer ∧ b.column ∉ bs.map Binding.outName)
    (hkernel : ∀ b ∈ bs, ∃ c k, columnOf E base layer b.column = .ok c ∧
      E.kernel v b.spec c = .ok k) :
    ∃ out, applyVerb E base layer v bs = .ok out ∧ tableNames out = layerNames base layer ∧
      (∀ b ∈ bs, b.outName ∈ layerNames base layer → ∀ c k,
        columnOf E base layer b.column = .ok c → E.kernel v b.spec c = .ok k →
          out.lookup b.outName = some k) ∧
      ∀ n ∈ layerNames base layer, n ∉ bs.map Binding.outName → ∀ c,
        columnOf E base layer n = .ok c → out.lookup n = some c := by
  have hsrcCols : ∀ c ∈ bs.map Binding.column,
      c ∈ layerNames base layer ∧ c ∉ bs.map Binding.outName := by
    intro c hc
    obtain ⟨b, hb, rfl⟩ := List.mem_map.1 hc
    exact hsrc b hb
  obtain ⟨df, hdf, hcols⟩ := collectStitchBase_ok hrest hsrcCols
  have hread : ∀ b ∈ bs, ∀ c, columnOf E base layer b.column = .ok c → df.lookup b.column = some c :=
    fun b hb c hc => hcols b.column (hsrc b hb).1 (hsrc b hb).2 c hc
  have hrun : ∀ b ∈ bs, ∃ c k, df.lookup b.column = some c ∧ E.kernel v b.spec c = .ok k := by
    intro b hb
    obtain ⟨c, k, hc, hk⟩ := hkernel b hb
    exact ⟨c, k, hread b hb c hc, hk⟩
  obtain ⟨outs, houts, hnames, hmem⟩ := runBindings_ok hrun
  have hnames' : tableNames outs.reverse = (bs.map Binding.outName).reverse := by
    rw [← hnames]
    exact List.map_reverse
  -- what the stitched columns hold
  have hout : ∀ b ∈ bs, ∀ c k, columnOf E base layer b.column = .ok c → E.kernel v b.spec c = .ok k →
      (outs.reverse ++ df).lookup b.outName = some k := by
    intro b hb c k hc hk
    refine lookup_append_of_some (lookup_of_mem ?_ ?_)
    · rw [hnames', List.nodup_reverse]
      exact hnodup
    · exact List.mem_reverse.2 (hmem b hb c k (hread b hb c hc) hk)
  have hkept : ∀ n ∈ layerNames base layer, n ∉ bs.map Binding.outName → ∀ c,
      columnOf E base layer n = .ok c → (outs.reverse ++ df).lookup n = some c := by
    intro n hn hnb c hc
    rw [lookup_append_of_not_mem (by rwa [hnames', List.mem_reverse])]
    exact hcols n hn hnb c hc
  have hget : ∀ n c, (outs.reverse ++ df).lookup n = some c →
      getColumn (outs.reverse ++ df) n = .ok c := by
    intro n c h
    unfold getColumn
    rw [h]
  obtain ⟨out, hrun, honames, holookup⟩ := @gather_ok _ (getColumn (outs.reverse ++ df))
    (layerNames base layer) (fun n hn => by
      by_cases hnb : n ∈ bs.map Binding.outName
      · obtain ⟨b, hb, rfl⟩ := List.mem_map.1 hnb
        obtain ⟨c, k, hc, hk⟩ := hkernel b hb
        exact ⟨k, hget _ _ (hout b hb c k hc hk)⟩
      · obtain ⟨c, hc⟩ := hrest n hn hnb
        exact ⟨c, hget _ _ (hkept n hn hnb c hc)⟩)
  refine ⟨out, ?_, honames, fun b hb hin c k hc hk => ?_, fun n hn hnb c hc => ?_⟩
  · unfold applyVerb
    rw [hdf]
    change (bs.mapM (fun b => do
        let src ← getColumn df b.column
        let out ← E.kernel v b.spec src
        return (b.outName, out)) >>= _) = _
    rw [houts]
    exact hrun
  · exact holookup _ hin k (hget _ _ (hout b hb c k hc hk))
  · exact holookup n hn c (hget _ _ (hkept n hn hnb c hc))

/-! What is dispatched. -/

theorem parseNode_verb (v w : Verb) (b : Binding S) :
    parseNode E base layer v (.verb w b) =
      if w ≠ v then none
      else if v.sentinel then if b.outName ≠ "" ∧ b.column ≠ "" then some b else none
      else
        match schemaDtype E base layer b.column with
        | some d => if E.accepts v b.spec d ∧ b.outName ≠ b.column then some b else none
        | none => none :=
  rfl

theorem parseNode_eq_some {v : Verb} {e : LayerExpr C D S} {b : Binding S}
    (h : parseNode E base layer v e = some b) : e = .verb v b := by
  cases e with
  | ordinary name d value => cases h
  | verb w b' =>
    rw [parseNode_verb] at h
    by_cases hw : w = v
    · subst hw
      simp only [ne_eq, not_true_eq_false, if_false] at h
      split_ifs at h
      · cases h
        rfl
      · split at h
        · split_ifs at h
          cases h
          rfl
        · cases h
    · rw [if_pos hw] at h
      cases h

theorem mem_of_mem_findBindings {v : Verb} {b : Binding S}
    (h : b ∈ findBindings E base layer v) : .verb v b ∈ layer := by
  have hmem : b ∈ layer.filterMap (parseNode E base layer v) := by
    unfold findBindings at h
    simp only at h
    split_ifs at h
    · cases h
    · exact h
  obtain ⟨e, he, hparse⟩ := List.mem_filterMap.1 hmem
  exact parseNode_eq_some hparse ▸ he

theorem findBindings_sentinel {v : Verb} (hv : v.sentinel = true) :
    findBindings E base layer v = layer.filterMap (parseNode E base layer v) := by
  unfold findBindings
  rw [hv]
  rfl

/-- A sentinel's parse does not depend on the layer. -/
theorem parseNode_sentinel {v : Verb} (hv : v.sentinel = true) (b : Binding S) :
    parseNode E base layer v (.verb v b) =
      if b.outName ≠ "" ∧ b.column ≠ "" then some b else none := by
  rw [parseNode_verb, if_neg (not_not.2 rfl), if_pos hv]

theorem dispatched_eq_some {v : Verb} {bs : List (Binding S)}
    (h : dispatched E base layer = some (v, bs)) :
    bs = findBindings E base layer v ∧ ∀ b ∈ bs, .verb v b ∈ layer := by
  obtain ⟨w, -, hw⟩ := List.exists_of_findSome?_eq_some h
  simp only at hw
  split_ifs at hw
  cases hw
  exact ⟨rfl, fun b hb => mem_of_mem_findBindings hb⟩

theorem findBindings_of_dispatched_none (h : dispatched E base layer = none) (v : Verb) :
    findBindings E base layer v = [] := by
  unfold dispatched at h
  rw [List.findSome?_eq_none_iff] at h
  have hv := h v (by cases v <;> decide)
  simp only at hv
  split_ifs at hv with hempty
  exact List.isEmpty_iff.1 hempty

theorem outNames_sublist (v : Verb) :
    ((findBindings E base layer v).map Binding.outName).Sublist (layer.map LayerExpr.outName) := by
  have hall : ∀ l : List (LayerExpr C D S),
      ((l.filterMap (parseNode E base layer v)).map Binding.outName).Sublist
        (l.map LayerExpr.outName) := by
    intro l
    induction l with
    | nil => exact List.Sublist.refl _
    | cons e l ih =>
      rcases hp : parseNode E base layer v e with _ | b
      · rw [List.filterMap_cons_none hp]
        exact ih.cons _
      · rw [List.filterMap_cons_some hp, parseNode_eq_some hp]
        exact ih.cons_cons _
  unfold findBindings
  simp only
  split_ifs
  · exact List.nil_sublist _
  · exact hall layer

/-! One verb alone. -/

/-- The detector takes the binding when the layer holds nothing else. -/
def Accepted (E : Engine C D S) (base : Table C) (v : Verb) (b : Binding S) : Prop :=
  findBindings E base [.verb v b] v = [b]

theorem Accepted.parse {v : Verb} {b : Binding S} (h : Accepted E base v b) :
    parseNode E base [.verb v b] v (.verb v b) = some b := by
  have hmem : b ∈ [LayerExpr.verb v b].filterMap (parseNode E base [.verb v b] v) := by
    unfold Accepted findBindings at h
    simp only at h
    split_ifs at h
    rw [h]
    exact List.mem_singleton_self b
  obtain ⟨e, he, hparse⟩ := List.mem_filterMap.1 hmem
  rw [List.mem_singleton.1 he] at hparse
  exact hparse

theorem Accepted.names {v : Verb} {b : Binding S} (hv : v.sentinel = true)
    (h : Accepted E base v b) : b.outName ≠ "" ∧ b.column ≠ "" := by
  have hparse := h.parse
  rw [parseNode_sentinel hv] at hparse
  split_ifs at hparse with hnames
  exact hnames

theorem Accepted.native {v : Verb} {b : Binding S} (hv : v.sentinel = false)
    (h : Accepted E base v b) : b.outName ≠ b.column := by
  have hparse := h.parse
  rw [parseNode_verb, if_neg (not_not.2 rfl), if_neg (by simp [hv])] at hparse
  split at hparse
  · split_ifs at hparse with hnames
    exact hnames.2
  · cases hparse

theorem Accepted.dispatched {v : Verb} {b : Binding S} (h : Accepted E base v b) :
    dispatched E base [.verb v b] = some (v, [b]) := by
  have hother : ∀ w, w ≠ v → findBindings E base [.verb v b] w = [] := by
    intro w hw
    rw [List.eq_nil_iff_forall_not_mem]
    intro b' hb'
    have he := List.mem_singleton.1 (mem_of_mem_findBindings hb')
    cases he
    exact hw rfl
  unfold Verbs.dispatched stitchVerbs
  unfold Accepted at h
  cases v <;> simp [h, hother]

/-- A verb that collects alone reads its column from the input. -/
theorem collect_alone {v : Verb} {b : Binding S} {out : Table C} (hacc : Accepted E base v b)
    (hsrc : b.column ∈ tableNames base) (h : collect E base [.verb v b] = .ok out) :
    ∃ c k, base.lookup b.column = some c ∧ E.kernel v b.spec c = .ok k ∧
      out.lookup b.outName = some k := by
  obtain ⟨c, hc⟩ := lookup_isSome_iff.2 hsrc
  have hrun : applyVerb E base [.verb v b] v [b] = .ok out := by
    unfold collect at h
    rwa [hacc.dispatched] at h
  have hrest : ∀ n ∈ layerNames base [LayerExpr.verb (C := C) (D := D) v b],
      n ∉ [b].map Binding.outName → ∃ c, columnOf E base [.verb v b] n = .ok c := by
    intro n hn hnb
    rcases mem_layerNames.1 hn with hn | hn
    · obtain ⟨d, hd⟩ := lookup_isSome_iff.2 hn
      exact ⟨d, columnOf_base hnb hd⟩
    · exact absurd hn hnb
  have hself : b.column ≠ b.outName := by
    intro hself
    rcases hv : v.sentinel with _ | _
    · exact hacc.native hv hself.symm
    · -- the source would have to come from the guarded expression itself
      obtain ⟨df, hdf, -⟩ := bind_eq_ok.1 hrun
      obtain ⟨df', hdf', hdf⟩ := bind_eq_ok.1 hdf
      have hnames := gather_names hdf'
      have hmissing : (([b].map Binding.column).filter (· ≠ "")).eraseDups.filter
          (· ∉ tableNames df') = [b.column] := by
        have hnot : b.column ∉ tableNames df' := by
          rw [hnames, hself]
          simp
        have hne : ([b].map Binding.column).filter (· ≠ "") = [b.column] :=
          List.filter_eq_self.2 (by simpa using (hacc.names hv).2)
        rw [hne]
        exact List.filter_eq_self.2 (by simpa using hnot)
      rw [hmissing] at hdf
      obtain ⟨df'', hdf'', -⟩ := bind_eq_ok.1 hdf
      have hguard : columnOf E base [.verb v b] b.column = .error (.guard v) := by
        rw [hself]
        have he : columnOf E base [.verb v b] (LayerExpr.verb v b : LayerExpr C D S).outName = _ :=
          @columnOf_expr _ _ _ _ _ [.verb v b] (List.nodup_singleton _) _ (List.mem_singleton_self _)
        exact he.trans (cpuValue_sentinel hv b)
      obtain ⟨k, hk⟩ := gather_column hdf'' (List.mem_singleton_self _)
      rw [hguard] at hk
      cases hk
  have hcol : columnOf E base [.verb v b] b.column = .ok c :=
    columnOf_base (fun hmem => hself (List.mem_singleton.1 hmem)) hc
  obtain ⟨k, hk⟩ : ∃ k, E.kernel v b.spec c = .ok k := by
    obtain ⟨df, hdf, hrest'⟩ := bind_eq_ok.1 hrun
    have hsrcCols : ∀ c ∈ [b].map Binding.column,
        c ∈ layerNames base [(LayerExpr.verb v b : LayerExpr C D S)] ∧ c ∉ [b].map Binding.outName := by
      intro c' hc'
      obtain rfl : c' = b.column := List.mem_singleton.1 hc'
      exact ⟨mem_layerNames.2 (Or.inl hsrc), fun h => hself (List.mem_singleton.1 h)⟩
    obtain ⟨df', hdf', hcols⟩ := collectStitchBase_ok hrest hsrcCols
    rw [hdf'] at hdf
    cases hdf
    obtain ⟨outs, houts, -⟩ := bind_eq_ok.1 hrest'
    rcases forall₂_of_mapM houts with _ | ⟨hb, -⟩
    obtain ⟨src, hsrc', hb⟩ := bind_eq_ok.1 hb
    obtain ⟨k, hk, -⟩ := bind_eq_ok.1 hb
    have hlookup := hcols b.column (mem_layerNames.2 (Or.inl hsrc)) (by simpa using hself) c hcol
    unfold getColumn at hsrc'
    rw [hlookup] at hsrc'
    cases hsrc'
    exact ⟨k, hk⟩
  have hnodup : ([b].map Binding.outName).Nodup := List.nodup_singleton _
  obtain ⟨out', hout', -, hlookup, -⟩ := applyVerb_ok (E := E) (v := v) hnodup hrest
    (by simpa [mem_layerNames, hsrc] using hself) (by simpa using ⟨c, hcol, k, hk⟩)
  rw [hrun] at hout'
  cases hout'
  exact ⟨c, k, hc, hk, hlookup b (List.mem_singleton_self b)
    (mem_layerNames.2 (Or.inr (List.mem_singleton_self _))) c k hcol hk⟩

/-! A layer of verbs. -/

/-- A layer Polars accepts, whose verbs each collect alone. -/
structure Composed (E : Engine C D S) (base : Table C) (layer : List (LayerExpr C D S)) : Prop where
  names : (layer.map LayerExpr.outName).Nodup
  sources : ∀ v b, .verb v b ∈ layer → b.column ∈ tableNames base
  accepted : ∀ v b, .verb v b ∈ layer → Accepted E base v b
  alone : ∀ v b, .verb v b ∈ layer → ∃ out, collect E base [.verb v b] = .ok out

/-- Every sentinel of the layer is of the verb that is dispatched. -/
def OneSentinelVerb (E : Engine C D S) (base : Table C) (layer : List (LayerExpr C D S)) : Prop :=
  ∀ v b, .verb v b ∈ layer → v.sentinel = true → ∃ bs, dispatched E base layer = some (v, bs)

theorem sentinel_mem_findBindings (hlayer : Composed E base layer) {v : Verb}
    (hv : v.sentinel = true) {b : Binding S} (hb : .verb v b ∈ layer) :
    b ∈ findBindings E base layer v := by
  rw [findBindings_sentinel hv]
  refine List.mem_filterMap.2 ⟨_, hb, ?_⟩
  rw [parseNode_sentinel hv, if_pos ((hlayer.accepted v b hb).names hv)]

/-- On the CPU an expression of the layer has a value, or its guard raises. -/
theorem columnOf_total (hlayer : Composed E base layer) {n : String}
    (hn : n ∈ layerNames base layer) : (∃ c, columnOf E base layer n = .ok c) ∨
      ∃ v b, .verb v b ∈ layer ∧ v.sentinel = true ∧ n = b.outName ∧
        columnOf E base layer n = .error (.guard v) := by
  by_cases hin : n ∈ layer.map LayerExpr.outName
  · obtain ⟨e, he, rfl⟩ := List.mem_map.1 hin
    rw [columnOf_expr hlayer.names he]
    cases e with
    | ordinary name d value => exact Or.inl ⟨_, rfl⟩
    | verb v b =>
      rcases hv : v.sentinel with _ | _
      · obtain ⟨c, hc⟩ := lookup_isSome_iff.2 (hlayer.sources v b he)
        exact Or.inl ⟨_, cpuValue_native hv hc⟩
      · exact Or.inr ⟨v, b, he, hv, rfl, cpuValue_sentinel hv b⟩
  · obtain ⟨c, hc⟩ := lookup_isSome_iff.2 ((mem_layerNames.1 hn).resolve_right hin)
    exact Or.inl ⟨c, columnOf_base hin hc⟩

/-- What a column of the collected layer holds. -/
structure Stitched (E : Engine C D S) (base : Table C) (layer : List (LayerExpr C D S))
    (out : Table C) : Prop where
  names : tableNames out = layerNames base layer
  kept : ∀ n ∈ tableNames base, n ∉ layer.map LayerExpr.outName → out.lookup n = base.lookup n
  ordinary : ∀ name d value, .ordinary name d value ∈ layer → out.lookup name = some (value base)
  stitched : ∀ v bs, dispatched E base layer = some (v, bs) → ∀ b ∈ bs,
    ∀ alone, collect E base [.verb v b] = .ok alone → out.lookup b.outName = alone.lookup b.outName
  native : ∀ v b, .verb v b ∈ layer → (∀ bs, dispatched E base layer = some (v, bs) → b ∉ bs) →
    ∀ c, base.lookup b.column = some c → out.lookup b.outName = some (E.polars v b.spec c)

theorem columnOf_native (hlayer : Composed E base layer) {v : Verb} {b : Binding S}
    (hb : .verb v b ∈ layer) (hv : v.sentinel = false) {c : C} (hc : base.lookup b.column = some c) :
    columnOf E base layer b.outName = .ok (E.polars v b.spec c) :=
  (columnOf_expr hlayer.names hb).trans (cpuValue_native hv hc)

theorem outName_mem_layerNames {e : LayerExpr C D S} (he : e ∈ layer) :
    e.outName ∈ layerNames base layer :=
  mem_layerNames.2 (Or.inr (List.mem_map_of_mem he))

/-- With nothing to dispatch and no sentinel the layer is collected as it is. -/
theorem collect_undispatched (hlayer : Composed E base layer) (hd : dispatched E base layer = none)
    (hnative : ∀ v b, .verb v b ∈ layer → v.sentinel = false) :
    ∃ out, collect E base layer = .ok out ∧ Stitched E base layer out := by
  obtain ⟨out, hout, hnames, hlookup⟩ := @gather_ok _ (columnOf E base layer)
    (layerNames base layer) (fun n hn => by
      rcases columnOf_total hlayer hn with h | ⟨v, b, hb, hv, -, -⟩
      · exact h
      · rw [hnative v b hb] at hv
        cases hv)
  refine ⟨out, ?_, hnames, fun n hn hnl => ?_, fun name d value he => ?_, fun v bs h => ?_,
    fun v b hb _ c hc => ?_⟩
  · unfold collect
    rw [hd]
    exact hout
  · obtain ⟨c, hc⟩ := lookup_isSome_iff.2 hn
    rw [hc]
    exact hlookup n (mem_layerNames.2 (Or.inl hn)) c (columnOf_base hnl hc)
  · exact hlookup _ (outName_mem_layerNames he) _ (columnOf_expr hlayer.names he)
  · rw [hd] at h
    cases h
  · exact hlookup _ (outName_mem_layerNames hb) _ (columnOf_native hlayer hb (hnative v b hb) hc)

/-- A dispatched verb is stitched onto the rest, where the rest collects. -/
theorem collect_dispatched (hlayer : Composed E base layer) {v : Verb} {bs : List (Binding S)}
    (hd : dispatched E base layer = some (v, bs))
    (hkept : ∀ b ∈ bs, b.column ∉ layer.map LayerExpr.outName)
    (hone : ∀ w b, .verb w b ∈ layer → w.sentinel = true → w = v) :
    ∃ out, collect E base layer = .ok out ∧ Stitched E base layer out := by
  obtain ⟨hbs, hmem⟩ := dispatched_eq_some hd
  have hnodup : (bs.map Binding.outName).Nodup := by
    rw [hbs]
    exact (outNames_sublist v).nodup hlayer.names
  -- an expression under a dispatched name is a dispatched binding
  have hsame : ∀ e ∈ layer, e.outName ∈ bs.map Binding.outName → ∃ b ∈ bs, e = .verb v b := by
    intro e he hin
    obtain ⟨b, hb, hname⟩ := List.mem_map.1 hin
    exact ⟨b, hb, List.inj_on_of_nodup_map hlayer.names he (hmem b hb) hname.symm⟩
  have hsub : ∀ n, n ∉ layer.map LayerExpr.outName → n ∉ bs.map Binding.outName := by
    intro n hn hin
    obtain ⟨b, hb, hname⟩ := List.mem_map.1 hin
    exact hn (List.mem_map.2 ⟨_, hmem b hb, hname⟩)
  have hrest : ∀ n ∈ layerNames base layer, n ∉ bs.map Binding.outName →
      ∃ c, columnOf E base layer n = .ok c := by
    intro n hn hnb
    rcases columnOf_total hlayer hn with h | ⟨w, b, hb, hw, rfl, -⟩
    · exact h
    · refine absurd (List.mem_map_of_mem ?_) hnb
      rw [hbs, ← hone w b hb hw]
      exact sentinel_mem_findBindings hlayer hw hb
  have hbase : ∀ b ∈ bs, ∀ c, base.lookup b.column = some c →
      columnOf E base layer b.column = .ok c := fun b hb c hc => columnOf_base (hkept b hb) hc
  have halone : ∀ b ∈ bs, ∀ alone, collect E base [.verb v b] = .ok alone → ∃ c k,
      base.lookup b.column = some c ∧ E.kernel v b.spec c = .ok k ∧
        alone.lookup b.outName = some k := fun b hb alone h =>
    collect_alone (hlayer.accepted v b (hmem b hb)) (hlayer.sources v b (hmem b hb)) h
  obtain ⟨out, hout, hnames, hstitched, hcpu⟩ := applyVerb_ok (E := E) (v := v) hnodup hrest
    (fun b hb => ⟨mem_layerNames.2 (Or.inl (hlayer.sources v b (hmem b hb))), hsub _ (hkept b hb)⟩)
    (fun b hb => by
      obtain ⟨alone, h⟩ := hlayer.alone v b (hmem b hb)
      obtain ⟨c, k, hc, hk, -⟩ := halone b hb alone h
      exact ⟨c, k, hbase b hb c hc, hk⟩)
  refine ⟨out, ?_, hnames, fun n hn hnl => ?_, fun name d value he => ?_,
    fun v' bs' h b hb alone ha => ?_, fun w b hb hleft c hc => ?_⟩
  · unfold collect
    rw [hd]
    exact hout
  · obtain ⟨c, hc⟩ := lookup_isSome_iff.2 hn
    rw [hc]
    exact hcpu n (mem_layerNames.2 (Or.inl hn)) (hsub n hnl) c (columnOf_base hnl hc)
  · refine hcpu name (outName_mem_layerNames he) (fun hin => ?_) _ (columnOf_expr hlayer.names he)
    obtain ⟨b, -, h⟩ := hsame _ he hin
    cases h
  · rw [hd] at h
    cases h
    obtain ⟨c, k, hc, hk, hval⟩ := halone b hb alone ha
    rw [hval]
    exact hstitched b hb (outName_mem_layerNames (hmem b hb)) c k (hbase b hb c hc) hk
  · have hnb : b.outName ∉ bs.map Binding.outName := by
      intro hin
      obtain ⟨b', hb', h⟩ := hsame _ hb hin
      cases h
      exact hleft bs hd hb'
    refine hcpu _ (outName_mem_layerNames hb) hnb _ (columnOf_native hlayer hb ?_ hc)
    rcases hw : w.sentinel with _ | _
    · rfl
    · have hguard : columnOf E base layer b.outName = .error (.guard w) :=
        (columnOf_expr hlayer.names hb).trans (cpuValue_sentinel hw b)
      obtain ⟨d, hd'⟩ := hrest _ (outName_mem_layerNames hb) hnb
      exact nomatch hguard.symm.trans hd'

/-- A sentinel of another verb raises its guard. -/
theorem collect_guard (hlayer : Composed E base layer) (hone : ¬ OneSentinelVerb E base layer) :
    ∃ v, collect E base layer = .error (.guard v) := by
  unfold OneSentinelVerb at hone
  push Not at hone
  obtain ⟨w, b, hb, hw, hother⟩ := hone
  rcases hd : dispatched E base layer with _ | ⟨v, bs⟩
  · have hmem := sentinel_mem_findBindings hlayer hw hb
    rw [findBindings_of_dispatched_none hd] at hmem
    cases hmem
  · obtain ⟨hbs, hmem⟩ := dispatched_eq_some hd
    have hnb : b.outName ∉ bs.map Binding.outName := by
      intro hin
      obtain ⟨b', hb', hname⟩ := List.mem_map.1 hin
      have he := List.inj_on_of_nodup_map hlayer.names hb (hmem b' hb') hname.symm
      cases he
      exact hother bs hd
    obtain ⟨u, hu⟩ := @gather_guard _ (columnOf E base layer)
      ((layerNames base layer).filter (· ∉ bs.map Binding.outName))
      (fun n hn => by
        rcases columnOf_total hlayer (List.mem_filter.1 hn).1 with h | ⟨w', b', -, -, -, h⟩
        · exact Or.inl h
        · exact Or.inr ⟨w', h⟩)
      ⟨b.outName, List.mem_filter.2 ⟨mem_layerNames.2 (Or.inr (List.mem_map_of_mem hb)),
        by simpa using hnb⟩, w, (columnOf_expr hlayer.names hb).trans (cpuValue_sentinel hw b)⟩
    refine ⟨u, ?_⟩
    unfold collect applyVerb collectStitchBase collectRest
    rw [hd]
    simp only
    rw [hu]
    rfl

/-- A layer of verbs each accepted on its own, none of whose dispatched sources it overwrites: where
its sentinels are all of the dispatched verb, every column is the one its verb has alone, or Polars'
own for a native verb left over, and no guard is evaluated; otherwise a guard raises. -/
theorem verbs_in_one_layer (hlayer : Composed E base layer)
    (hkept : ∀ v bs, dispatched E base layer = some (v, bs) → ∀ b ∈ bs,
      b.column ∉ layer.map LayerExpr.outName) :
    (OneSentinelVerb E base layer →
        ∃ out, collect E base layer = .ok out ∧ Stitched E base layer out) ∧
      (¬ OneSentinelVerb E base layer → ∃ v, collect E base layer = .error (.guard v)) := by
  refine ⟨fun hone => ?_, collect_guard hlayer⟩
  rcases hd : dispatched E base layer with _ | ⟨v, bs⟩
  · refine collect_undispatched hlayer hd (fun v b hb => ?_)
    rcases hv : v.sentinel with _ | _
    · rfl
    · obtain ⟨bs, hbs⟩ := hone v b hb hv
      rw [hd] at hbs
      cases hbs
  · refine collect_dispatched hlayer hd (hkept v bs hd) (fun w b hb hw => ?_)
    obtain ⟨bs', hbs'⟩ := hone w b hb hw
    rw [hd] at hbs'
    cases hbs'
    rfl

/-- One row: a signal, a sequence of one point and the day 0. -/
def oneRow : Table (List (ℤ × ℤ)) := [("s", [(5, 0)]), ("q", [(5, 0)]), ("d", [(0, 0)])]

/-- The verbs on one row: the transform of one point and its distance from 0 are the point, and the
day 0 is in 1970. -/
def oneRowEngine : Engine (List (ℤ × ℤ)) Unit Unit where
  dtypeOf _ := ()
  outDtype _ _ := ()
  accepts _ _ _ := true
  polars v _ c := if v = .dt then [(1970, 0)] else c
  kernel v _ c := .ok (if v = .dt then [(1970, 0)] else c)

def spectrum : LayerExpr (List (ℤ × ℤ)) Unit Unit := .verb .fft ⟨(), "s", "spectrum"⟩

def year : LayerExpr (List (ℤ × ℤ)) Unit Unit := .verb .dt ⟨(), "d", "year"⟩

def distance : LayerExpr (List (ℤ × ℤ)) Unit Unit := .verb .dtw ⟨(), "q", "distance"⟩

theorem composed_of_each {layer : List (LayerExpr (List (ℤ × ℤ)) Unit Unit)}
    (hnames : (layer.map LayerExpr.outName).Nodup) (heach : ∀ e ∈ layer, ∀ v b, e = .verb v b →
      b.column ∈ tableNames oneRow ∧ Accepted oneRowEngine oneRow v b ∧
        ∃ out, collect oneRowEngine oneRow [.verb v b] = .ok out) :
    Composed oneRowEngine oneRow layer where
  names := hnames
  sources v b hb := (heach _ hb v b rfl).1
  accepted v b hb := (heach _ hb v b rfl).2.1
  alone v b hb := (heach _ hb v b rfl).2.2

theorem spectrum_and_year_composed : Composed oneRowEngine oneRow [spectrum, year] := by
  refine composed_of_each (by decide) (fun e he v b h => ?_)
  simp only [List.mem_cons, List.not_mem_nil, or_false] at he
  rcases he with rfl | rfl <;> cases h
  · exact ⟨by decide, rfl, _, rfl⟩
  · exact ⟨by decide, rfl, _, rfl⟩

theorem spectrum_and_distance_composed : Composed oneRowEngine oneRow [spectrum, distance] := by
  refine composed_of_each (by decide) (fun e he v b h => ?_)
  simp only [List.mem_cons, List.not_mem_nil, or_false] at he
  rcases he with rfl | rfl <;> cases h
  · exact ⟨by decide, rfl, _, rfl⟩
  · exact ⟨by decide, rfl, _, rfl⟩

theorem verbs_in_one_layer_sample :
    (OneSentinelVerb oneRowEngine oneRow [spectrum, year] →
        ∃ out, collect oneRowEngine oneRow [spectrum, year] = .ok out ∧
          Stitched oneRowEngine oneRow [spectrum, year] out) ∧
      (¬ OneSentinelVerb oneRowEngine oneRow [spectrum, year] →
        ∃ v, collect oneRowEngine oneRow [spectrum, year] = .error (.guard v)) :=
  verbs_in_one_layer spectrum_and_year_composed (by
    intro v bs h
    cases h
    decide)

/-- A transform and a distance each collect alone; together the distance's guard raises. -/
theorem two_sentinels_do_not_compose :
    Composed oneRowEngine oneRow [spectrum, distance] ∧
      collect oneRowEngine oneRow [spectrum, distance] = .error (.guard .dtw) :=
  ⟨spectrum_and_distance_composed, rfl⟩

end PolarsMetal.Verbs
