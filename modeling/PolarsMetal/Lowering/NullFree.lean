import PolarsMetal.Lowering.Sort

/-! The null-freeness check. Before a fused kernel skips its null mask the walker looks the input
columns up in the scan at the bottom of the plan; the nodes in between may have given a name a new
column. -/

namespace PolarsMetal.Lowering

variable {V : Type}

/-- What a node computes for one of its columns, from its input frame. -/
abbrev ColumnExpr (V : Type) := Frame V → List (Option V)

/-- A lowered plan. Filters, sorts and group-bys are given by the input rows they return: the rows
kept, the rows in order, one row of each group. A group-by's keys are pairs of an input column and
an output name. -/
inductive PlanNode (V : Type) where
  | scan (df : Frame V) (projection : Option (List String))
  | project (input : PlanNode V) (columns : List String)
  | filter (input : PlanNode V) (kept : Frame V → List ℕ)
  | hstack (input : PlanNode V) (exprs : List (String × ColumnExpr V))
  | groupBy (input : PlanNode V) (keys : List (String × String)) (groups : Frame V → List ℕ)
      (aggs : List (String × ColumnExpr V))
  | sort (input : PlanNode V) (order : Frame V → List ℕ)
  | join (left right : PlanNode V) (result : Frame V → Frame V → Frame V)

/-! The check. -/

def PlanNode.findScanDf : PlanNode V → Option (Frame V)
  | .scan df _ => some df
  | .project input _ | .filter input _ | .hstack input _ | .groupBy input _ _ _
  | .sort input _ => input.findScanDf
  | .join .. => none

def fusedInputsNullFree (plan : PlanNode V) (cols : List String) : Bool :=
  match plan.findScanDf with
  | none => false
  | some df => cols.all (fun name => decide (name ∈ df.columns) && !(df.getColumn name).any Option.isNone)

/-! Evaluation. -/

/-- An output column: an input column passed on, or a new one. -/
inductive OutColumn (V : Type) where
  | copy (source : String)
  | computed (f : ColumnExpr V)

/-- The cell of output row `i`, which comes from the input row `row`. -/
def OutColumn.cell (df : Frame V) (i : ℕ) (row : List (Option V)) : OutColumn V → Option V
  | .copy source => cellOf df.columns row source
  | .computed f => (f df).getD i none

def pick {α : Type} (xs : List α) (is : List ℕ) : List α := is.filterMap (fun i => xs[i]?)

/-- The frame of some input rows under new columns. -/
def Frame.derive (df : Frame V) (is : List ℕ) (outs : List (String × OutColumn V)) : Frame V where
  columns := outs.map Prod.fst
  rows := (pick df.rows is).mapIdx (fun i row => outs.map (fun o => o.2.cell df i row))

def copies (columns : List String) : List (String × OutColumn V) :=
  columns.map (fun c => (c, .copy c))

def allRows (df : Frame V) : List ℕ := List.range df.rows.length

/-- `with_columns`: new columns take the place of old ones of their name or go to the end. -/
def hstackOuts (columns : List String) (exprs : List (String × ColumnExpr V)) :
    List (String × OutColumn V) :=
  columns.map (fun c =>
    match exprs.find? (fun e => e.1 = c) with
    | some e => (c, .computed e.2)
    | none => (c, .copy c)) ++
  (exprs.filter (fun e => e.1 ∉ columns)).map (fun e => (e.1, .computed e.2))

def groupOuts (keys : List (String × String)) (aggs : List (String × ColumnExpr V)) :
    List (String × OutColumn V) :=
  keys.map (fun k => (k.2, .copy k.1)) ++ aggs.map (fun a => (a.1, .computed a.2))

namespace PlanNode

def eval : PlanNode V → Frame V
  | .scan df none => df
  | .scan df (some columns) => df.derive (allRows df) (copies columns)
  | .project input columns => input.eval.derive (allRows input.eval) (copies columns)
  | .filter input kept => input.eval.derive (kept input.eval) (copies input.eval.columns)
  | .hstack input exprs =>
    input.eval.derive (allRows input.eval) (hstackOuts input.eval.columns exprs)
  | .groupBy input keys groups aggs => input.eval.derive (groups input.eval) (groupOuts keys aggs)
  | .sort input order => input.eval.derive (order input.eval) (copies input.eval.columns)
  | .join left right result => result left.eval right.eval

end PlanNode

/-! Columns that no longer are the scan's. -/

/-- What reaches the output of a node under a name that some node has given a new column: `before`
says what reaches its input. -/
def redefinedBy (df : Frame V) (is : List ℕ) (outs : List (String × OutColumn V))
    (before : String → Option (List (Option V))) (c : String) : Option (List (Option V)) :=
  match outs.find? (fun o => o.1 = c) with
  | none => none
  | some (_, .computed f) =>
    some ((List.range (pick df.rows is).length).map (fun i => (f df).getD i none))
  | some (_, .copy source) =>
    if source = c then (before c).map (fun cells => pick cells is)
    else some (pick (df.getColumn source) is)

namespace PlanNode

/-- The cells of a redefined column where they reach the top of the plan; `none` for a column that
still is the scan's. -/
def redefined : PlanNode V → String → Option (List (Option V))
  | .scan .. => fun _ => none
  | .project input columns =>
    redefinedBy input.eval (allRows input.eval) (copies columns) input.redefined
  | .filter input kept =>
    redefinedBy input.eval (kept input.eval) (copies input.eval.columns) input.redefined
  | .hstack input exprs =>
    redefinedBy input.eval (allRows input.eval) (hstackOuts input.eval.columns exprs) input.redefined
  | .groupBy input keys groups aggs =>
    redefinedBy input.eval (groups input.eval) (groupOuts keys aggs) input.redefined
  | .sort input order =>
    redefinedBy input.eval (order input.eval) (copies input.eval.columns) input.redefined
  | .join left right result => fun c => some ((result left.eval right.eval).getColumn c)

/-- Every column a node passes on is one of its input's. -/
def Resolved : PlanNode V → Prop
  | .scan df projection => ∀ columns, projection = some columns → columns ⊆ df.columns
  | .project input columns => input.Resolved ∧ columns ⊆ input.eval.columns
  | .filter input _ | .hstack input _ | .sort input _ => input.Resolved
  | .groupBy input keys _ _ => input.Resolved ∧ keys.map Prod.fst ⊆ input.eval.columns
  | .join left right _ => left.Resolved ∧ right.Resolved

end PlanNode

/-! One node. -/

theorem cellOf_map {α : Type} (outs : List (String × α)) (h : String × α → Option V) (c : String) :
    cellOf (outs.map Prod.fst) (outs.map h) c =
      ((outs.find? (fun o => o.1 = c)).map h).getD none := by
  unfold cellOf
  induction outs with
  | nil => rfl
  | cons o outs ih =>
    rw [List.map_cons, List.map_cons, List.idxOf_cons]
    by_cases hc : o.1 = c
    · rw [List.find?_cons_of_pos (by simpa using hc)]
      simp [hc]
    · rw [List.find?_cons_of_neg (by simpa using hc), ← ih]
      have hbeq : (o.1 == c) = false := by simpa using hc
      rw [hbeq]
      rfl

theorem pick_map {α β : Type} (f : α → β) (xs : List α) (is : List ℕ) :
    pick (xs.map f) is = (pick xs is).map f := by
  unfold pick
  rw [List.map_filterMap]
  refine List.filterMap_congr (fun i _ => ?_)
  rw [List.getElem?_map]

theorem getColumn_derive (df : Frame V) (is : List ℕ) (outs : List (String × OutColumn V))
    {c name : String} {col : OutColumn V}
    (hfind : outs.find? (fun o => o.1 = c) = some (name, col)) :
    (df.derive is outs).getColumn c = (pick df.rows is).mapIdx (fun i row => col.cell df i row) := by
  unfold Frame.getColumn Frame.derive
  refine List.ext_getElem (by simp) (fun i hi hi' => ?_)
  rw [List.getElem_map, List.getElem_mapIdx, List.getElem_mapIdx,
    cellOf_map outs (fun o => o.2.cell df i _), hfind]
  rfl

theorem getColumn_derive_copy (df : Frame V) (is : List ℕ) (outs : List (String × OutColumn V))
    {c name source : String} (hfind : outs.find? (fun o => o.1 = c) = some (name, .copy source)) :
    (df.derive is outs).getColumn c = pick (df.getColumn source) is := by
  rw [getColumn_derive df is outs hfind]
  unfold Frame.getColumn
  rw [pick_map]
  refine List.ext_getElem (by simp) (fun i hi hi' => ?_)
  rw [List.getElem_mapIdx, List.getElem_map]
  rfl

theorem getColumn_derive_computed (df : Frame V) (is : List ℕ) (outs : List (String × OutColumn V))
    {c name : String} {f : ColumnExpr V}
    (hfind : outs.find? (fun o => o.1 = c) = some (name, .computed f)) :
    (df.derive is outs).getColumn c =
      (List.range (pick df.rows is).length).map (fun i => (f df).getD i none) := by
  rw [getColumn_derive df is outs hfind]
  refine List.ext_getElem (by simp) (fun i hi hi' => ?_)
  rw [List.getElem_mapIdx, List.getElem_map, List.getElem_range]
  rfl

/-- Looking a name up in a list of columns built from names. -/
theorem find?_map_named {β : Type} {g : String → String × β} (hg : ∀ d, (g d).1 = d)
    (columns : List String) (c : String) :
    (columns.map g).find? (fun o => o.1 = c) = if c ∈ columns then some (g c) else none := by
  induction columns with
  | nil => rfl
  | cons d columns ih =>
    rw [List.map_cons]
    by_cases hd : d = c
    · subst hd
      rw [List.find?_cons_of_pos (by simpa using hg d), if_pos List.mem_cons_self]
    · rw [List.find?_cons_of_neg (by simpa [hg d] using hd), ih]
      simp [Ne.symm hd]

theorem find?_copies (columns : List String) {c : String} (hc : c ∈ columns) :
    (copies columns : List (String × OutColumn V)).find? (fun o => o.1 = c) = some (c, .copy c) := by
  unfold copies
  rw [find?_map_named (fun _ => rfl), if_pos hc]

/-- A column of the plan's frame either is a redefined one or has its cells from the scan. -/
structure Traced (plan : PlanNode V) (c : String) : Prop where
  redefined : ∀ cells, plan.redefined c = some cells → plan.eval.getColumn c = cells
  scanned : plan.redefined c = none → ∃ df, plan.findScanDf = some df ∧ c ∈ df.columns ∧
    ∀ x ∈ plan.eval.getColumn c, x ∈ df.getColumn c

theorem mem_of_mem_pick {α : Type} {xs : List α} {is : List ℕ} {x : α} (h : x ∈ pick xs is) :
    x ∈ xs := by
  obtain ⟨i, -, hi⟩ := List.mem_filterMap.1 h
  exact List.mem_of_getElem? hi

/-- One node over a traced input. -/
theorem traced_derive {plan input : PlanNode V} {is : List ℕ} {outs : List (String × OutColumn V)}
    {c : String} (heval : plan.eval = input.eval.derive is outs)
    (hredef : plan.redefined = redefinedBy input.eval is outs input.redefined)
    (hscan : plan.findScanDf = input.findScanDf)
    (hsource : ∀ o ∈ outs, ∀ source, o.2 = .copy source → source ∈ input.eval.columns)
    (hinput : ∀ c ∈ input.eval.columns, Traced input c) (hc : c ∈ plan.eval.columns) :
    Traced plan c := by
  rw [heval] at hc
  obtain ⟨⟨name, o⟩, ho⟩ : ∃ o, outs.find? (fun o => o.1 = c) = some o := by
    rw [← Option.isSome_iff_exists, List.find?_isSome]
    obtain ⟨o, ho, rfl⟩ := List.mem_map.1 hc
    exact ⟨o, ho, by simp⟩
  have hmem := List.mem_of_find?_eq_some ho
  cases o with
  | computed f =>
    have hcolumn := getColumn_derive_computed input.eval is outs ho
    rw [← heval] at hcolumn
    have hr : plan.redefined c =
        some ((List.range (pick input.eval.rows is).length).map (fun i => (f input.eval).getD i none)) := by
      rw [hredef, redefinedBy, ho]
    refine ⟨fun cells h => ?_, fun h => ?_⟩
    · rw [hr] at h
      rw [hcolumn, ← Option.some.inj h]
    · rw [hr] at h
      cases h
  | copy source =>
    have hcolumn := getColumn_derive_copy input.eval is outs ho
    rw [← heval] at hcolumn
    by_cases hs : source = c
    · subst hs
      obtain ⟨hold, hscanned⟩ := hinput source (hsource _ hmem source rfl)
      have hr : plan.redefined source =
          (input.redefined source).map (fun cells => pick cells is) := by
        rw [hredef, redefinedBy, ho]
        exact if_pos rfl
      refine ⟨fun cells h => ?_, fun h => ?_⟩
      · rw [hr] at h
        obtain ⟨old, hsome, rfl⟩ := Option.map_eq_some_iff.1 h
        rw [hcolumn, hold old hsome]
      · rw [hr, Option.map_eq_none_iff] at h
        obtain ⟨df, hdf, hin, hcells⟩ := hscanned h
        refine ⟨df, hscan.trans hdf, hin, fun x hx => hcells x ?_⟩
        rw [hcolumn] at hx
        exact mem_of_mem_pick hx
    · have hr : plan.redefined c = some (pick (input.eval.getColumn source) is) := by
        rw [hredef, redefinedBy, ho]
        exact if_neg hs
      refine ⟨fun cells h => ?_, fun h => ?_⟩
      · rw [hr] at h
        rw [hcolumn, ← Option.some.inj h]
      · rw [hr] at h
        cases h

theorem source_of_copies {columns sources : List String} (h : columns ⊆ sources) :
    ∀ o ∈ (copies columns : List (String × OutColumn V)), ∀ source, o.2 = .copy source →
      source ∈ sources := by
  intro o ho source hs
  obtain ⟨c, hc, rfl⟩ := List.mem_map.1 ho
  cases hs
  exact h hc

/-- Every column of a resolved plan is traced. -/
theorem traced {plan : PlanNode V} (hres : plan.Resolved) : ∀ c ∈ plan.eval.columns, Traced plan c := by
  induction plan with
  | scan df projection =>
    intro c hc
    refine ⟨fun _ h => (nomatch h), fun _ => ⟨df, rfl, ?_⟩⟩
    cases projection with
    | none => exact ⟨hc, fun _ hx => hx⟩
    | some columns =>
      have hcols : c ∈ columns := by
        obtain ⟨o, ho, rfl⟩ := List.mem_map.1 hc
        obtain ⟨d, hd, rfl⟩ := List.mem_map.1 ho
        exact hd
      refine ⟨hres columns rfl hcols, fun x hx => ?_⟩
      have hcolumn := getColumn_derive_copy df (allRows df) (copies columns)
        (find?_copies columns hcols)
      change x ∈ (df.derive (allRows df) (copies columns)).getColumn c at hx
      rw [hcolumn] at hx
      exact mem_of_mem_pick hx
  | project input columns ih =>
    exact fun c hc => traced_derive rfl rfl rfl (source_of_copies hres.2) (ih hres.1) hc
  | filter input kept ih =>
    exact fun c hc => traced_derive rfl rfl rfl (source_of_copies (List.Subset.refl _)) (ih hres) hc
  | hstack input exprs ih =>
    intro c hc
    refine traced_derive rfl rfl rfl (fun o ho source hs => ?_) (ih hres) hc
    rcases List.mem_append.1 ho with ho | ho
    · obtain ⟨d, hd, rfl⟩ := List.mem_map.1 ho
      split at hs
      · cases hs
      · cases hs
        exact hd
    · obtain ⟨e, -, rfl⟩ := List.mem_map.1 ho
      cases hs
  | groupBy input keys groups aggs ih =>
    intro c hc
    refine traced_derive rfl rfl rfl (fun o ho source hs => ?_) (ih hres.1) hc
    rcases List.mem_append.1 ho with ho | ho
    · obtain ⟨k, hk, rfl⟩ := List.mem_map.1 ho
      cases hs
      exact hres.2 (List.mem_map_of_mem hk)
    · obtain ⟨a, -, rfl⟩ := List.mem_map.1 ho
      cases hs
  | sort input order ih =>
    exact fun c hc => traced_derive rfl rfl rfl (source_of_copies (List.Subset.refl _)) (ih hres) hc
  | join left right result =>
    intro c _
    exact ⟨fun cells h => Option.some.inj h, fun h => (nomatch h)⟩

/-- The check looks every name up in the scan. -/
theorem fusedInputsNullFree_iff {plan : PlanNode V} {cols : List String} :
    fusedInputsNullFree plan cols = true ↔
      ∃ df, plan.findScanDf = some df ∧ ∀ c ∈ cols, c ∈ df.columns ∧ none ∉ df.getColumn c := by
  unfold fusedInputsNullFree
  rcases plan.findScanDf with _ | df
  · simp
  · simp only [List.all_eq_true, Bool.and_eq_true, decide_eq_true_eq, Bool.not_eq_true',
      List.any_eq_false, Option.some.injEq, exists_eq_left']
    refine forall₂_congr (fun c _ => and_congr_right (fun _ => ?_))
    refine ⟨fun h hnone => h none hnone rfl, fun h x hx hnone => h ?_⟩
    rwa [Option.isNone_iff_eq_none.1 hnone] at hx

/-- A positive answer means that the plan's columns are free of nulls exactly when a named column
is missing from the scan or null there, or no named column is redefined on the way from the scan by
one that brings a null. -/
theorem null_free_check_sound_iff {plan : PlanNode V} {cols : List String} (hres : plan.Resolved)
    (hcols : cols ⊆ plan.eval.columns) :
    (fusedInputsNullFree plan cols = true → ∀ c ∈ cols, none ∉ plan.eval.getColumn c) ↔
      (∀ df, plan.findScanDf = some df → ∃ c ∈ cols, c ∉ df.columns ∨ none ∈ df.getColumn c) ∨
        ∀ c ∈ cols, ∀ cells, plan.redefined c = some cells → none ∉ cells := by
  have htraced := fun c (hc : c ∈ cols) => traced hres c (hcols hc)
  refine ⟨fun h => ?_, fun h hcheck c hc => ?_⟩
  · by_cases hcheck : fusedInputsNullFree plan cols = true
    · refine Or.inr (fun c hc cells hr => ?_)
      rw [← (htraced c hc).redefined cells hr]
      exact h hcheck c hc
    · refine Or.inl (fun df hdf => ?_)
      rw [fusedInputsNullFree_iff] at hcheck
      by_contra hclean
      push Not at hclean
      exact hcheck ⟨df, hdf, hclean⟩
  · obtain ⟨df, hdf, hclean⟩ := fusedInputsNullFree_iff.1 hcheck
    rcases h with h | h
    · obtain ⟨d, hd, hbad⟩ := h df hdf
      obtain ⟨hin, hnone⟩ := hclean d hd
      rcases hbad with hbad | hbad
      · exact absurd hin hbad
      · exact absurd hbad hnone
    · rcases hr : plan.redefined c with _ | cells
      · obtain ⟨df', hdf', -, hcells⟩ := (htraced c hc).scanned hr
        rw [hdf] at hdf'
        cases hdf'
        exact fun hnone => (hclean c hc).2 (hcells none hnone)
      · rw [(htraced c hc).redefined cells hr]
        exact h c hc cells hr

/-- A shift by one row gives `x` a null the scan does not have. -/
def shiftedScan : PlanNode ℕ :=
  .hstack (.scan ⟨["x"], [[some 1], [some 2]]⟩ none)
    [("x", fun df => none :: (df.getColumn "x").dropLast)]

theorem shiftedScan_resolved : shiftedScan.Resolved := fun _ h => (nomatch h)

/-- The check looks at the scan and answers that `x` has no null. -/
theorem shifted_column_has_null :
    shiftedScan.Resolved ∧ ["x"] ⊆ shiftedScan.eval.columns ∧
      fusedInputsNullFree shiftedScan ["x"] = true ∧
      shiftedScan.eval.getColumn "x" = [none, some 1] := by
  refine ⟨shiftedScan_resolved, by decide, by decide, by decide⟩

/-- Under a filter of its rows the shifted plan's other column still is the scan's. -/
def filteredScan : PlanNode ℕ :=
  .filter (.hstack (.scan ⟨["x", "y"], [[some 1, some 5], [some 2, some 6]]⟩ none)
    [("x", fun df => none :: (df.getColumn "x").dropLast)]) (fun _ => [1])

theorem null_free_check_sound_iff_sample :
    (fusedInputsNullFree filteredScan ["y"] = true →
        ∀ c ∈ ["y"], none ∉ filteredScan.eval.getColumn c) ↔
      (∀ df, filteredScan.findScanDf = some df →
          ∃ c ∈ ["y"], c ∉ df.columns ∨ none ∈ df.getColumn c) ∨
        ∀ c ∈ ["y"], ∀ cells, filteredScan.redefined c = some cells → none ∉ cells :=
  null_free_check_sound_iff (fun _ h => (nomatch h)) (by decide)

end PolarsMetal.Lowering
