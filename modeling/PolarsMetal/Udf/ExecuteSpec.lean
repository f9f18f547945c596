import PolarsMetal.Lib.Fallible
import PolarsMetal.Lowering.SortSpec
import PolarsMetal.Udf.Execute

/-! Which plans the dispatchers can run. A UDF whose plan has one of their shapes returns the plan's
frame unless a kernel raises; of any other plan either no UDF is built or the UDF raises at every call,
before it touches the frame. -/

namespace PolarsMetal.Udf
open PolarsMetal.Filter GroupBy Lowering

variable {F C S R J E : Type}

/-! The shapes. -/

namespace Plan

/-- Scans and projections, every scanned column with a tag: what the native executor runs. -/
def Readable : Plan F S R J → Prop
  | scan _ columns _ => ∀ c ∈ columns, c.2.isSome
  | project input _ => input.Readable
  | filter .. | hstack .. | groupBy .. | sort .. | join .. => False

/-- What may stand under a filter. -/
def Filterable : Plan F S R J → Prop
  | scan _ _ none => True
  | plan => plan.Readable

/-- What `_dispatch` runs. -/
def Streamed : Plan F S R J → Prop
  | filter input _ | project (filter input _) _ => input.Filterable
  | hstack input exprs | project (hstack input exprs) _ => allFused exprs ∧ input.Streamed
  | plan => plan.Filterable

/-- What may stand under a group-by, or under the `HStack` below it. -/
def Groupable : Plan F S R J → Prop
  | filter input _ | project (filter input _) _ => input.Filterable
  | plan => plan.Filterable

/-- What may stand under a group-by. -/
def Peelable : Plan F S R J → Prop
  | hstack input _ => input.Groupable
  | plan => plan.Groupable

def Executable : Plan F S R J → Prop
  | groupBy input keys _ fusedAggs =>
    if keys.isEmpty && !fusedAggs.isEmpty then input.Streamed else input.Peelable
  | sort input .. => input.Executable
  | plan => plan.Streamed

end Plan

/-! The frame of a plan. -/

variable (P : Polars F C J E) (K : Kernels F C S R J E)

def nodeColumns (upstream : F) (exprs : List (Binding S)) : Except (Failure E) (List (String × C)) :=
  exprs.mapM fun b => (lift (P.evalNode b.exprNode upstream)).map (fun column => (b.name, column))

def appendColumns (exprs : List (Binding S)) (df : F) : Except (Failure E) F :=
  if exprs.isEmpty then .ok df
  else do
    let columns ← nodeColumns P df exprs
    lift (P.withColumns columns df)

/-- Without the nulls that a filter taken out would drop, by the query's keys, and sliced. -/
def sortFrame (byColumns : List String) (descending nullsLast : List Bool)
    (fusedSort : Option FusedSort) (df : F) : Except (Failure E) F := do
  let df := match fusedSort with
    | some f => if f.dropNulls then P.dropNulls f.column df else df
    | none => df
  let df ← if byColumns.isEmpty then .ok df
    else lift (P.sort (sortKeys byColumns descending nullsLast) df)
  return match fusedSort.bind FusedSort.slice with
    | some (off, length) => P.slice off length df
    | none => df

def reduceFrame (fusedAggs : List (FusedAgg R)) (df : F) : Except E F :=
  P.reduceNodes (fusedAggs.map fun a => (a.name, a.exprNode)) df

/-- The operations of Polars node by node, each on the frame of its input. -/
def Plan.value : Plan F S R J → Except (Failure E) F
  | scan df _ none => .ok df
  | scan df _ (some columns) => lift (P.select columns df)
  | project input columns => do
    let df ← input.value
    lift (P.select columns df)
  | filter input predicate => do
    let df ← input.value
    lift (P.filter predicate df)
  | hstack input exprs => do
    let df ← input.value
    appendColumns P exprs df
  | groupBy input keys aggs fusedAggs => do
    let df ← input.value
    if keys.isEmpty && !fusedAggs.isEmpty then lift (reduceFrame P fusedAggs df)
    else lift (P.groupBy keys aggs df)
  | sort input byColumns descending nullsLast fusedSort => do
    let df ← input.value
    sortFrame P byColumns descending nullsLast fusedSort df
  | join node _ => lift (P.join node)

/-- What a kernel returns is what the operation of Polars it stands for returns. -/
structure Kernels.Meets : Prop where
  compact : ∀ predicate df r, K.compact predicate df = .ok r → P.filter predicate df = .ok r
  filterViaPolars : ∀ predicate df r, K.filterViaPolars predicate df = .ok r →
    P.filter predicate df = .ok r
  groupBy : ∀ keys aggs df r, K.groupBy keys aggs df = .ok r → P.groupBy keys aggs df = .ok r

/-- The scope of a binding computes the binding's expression. -/
def Binding.Fused (b : Binding S) : Prop :=
  ∀ scope, b.fusedScope = some scope → ∀ df c, K.fusedColumn scope df = .ok c →
    P.evalNode b.exprNode df = .ok c

/-- So does its wire form, which for a fused binding names a column only. -/
def Binding.Wired (b : Binding S) : Prop := ∀ df, P.evalWire b.expr df = P.evalNode b.exprNode df

/-- Every scope and, under a group-by, every wire form stands for what the query has in its place. -/
def Plan.Lowered : Plan F S R J → Prop
  | scan .. | join .. => True
  | project input _ | filter input _ => input.Lowered
  | sort input byColumns descending nullsLast fusedSort =>
    input.Lowered ∧ ∀ f, fusedSort = some f → ∀ df r, K.sort f byColumns df = .ok r →
      sortFrame P byColumns descending nullsLast fusedSort df = (.ok r : Except (Failure E) F)
  | hstack input exprs => input.Lowered ∧ ∀ b ∈ exprs, b.Fused P K
  | groupBy input _ _ fusedAggs =>
    input.Lowered ∧ (∀ df r, K.reduce fusedAggs df = .ok r → reduceFrame P fusedAggs df = .ok r) ∧
      ∀ inner exprs, input = .hstack inner exprs → ∀ b ∈ exprs, b.Wired P

/-- A slice that asks for all rows and more takes all, and reductions give one row. -/
structure Polars.Lawful : Prop where
  slice_whole : ∀ n df, P.height df ≤ n → P.slice 0 n df = df
  reduce_height : ∀ nodes df r, P.reduceNodes nodes df = .ok r → P.height r = 1

/-! Runs. -/

variable {P K}

/-- `x` is `value` unless a kernel raises. -/
def Follows {α : Type} (x value : Except (Failure E) α) : Prop := x = value ∨ ∃ e, x = .error (.kernel e)

namespace Follows

variable {α β : Type} {x value : Except (Failure E) α} {f g : α → Except (Failure E) β}

theorem refl (x : Except (Failure E) α) : Follows x x := Or.inl rfl

theorem bind (h : Follows x value) (hfg : ∀ a, Follows (f a) (g a)) :
    Follows (x >>= f) (value >>= g) := by
  rcases h with rfl | ⟨e, rfl⟩
  · cases x with
    | error e => exact refl _
    | ok a => exact hfg a
  · exact Or.inr ⟨e, rfl⟩

theorem map (h : Follows x value) (f : α → β) : Follows (x.map f) (value.map f) := by
  rcases h with rfl | ⟨e, rfl⟩
  · exact refl _
  · exact Or.inr ⟨e, rfl⟩

/-- A kernel beside the operation it stands for. -/
theorem launch {k : Except E α} {p : Except (Failure E) α} (h : ∀ r, k = .ok r → p = .ok r) :
    Follows (launch k) p := by
  cases k with
  | error e => exact Or.inr ⟨e, rfl⟩
  | ok r => exact Or.inl (h r rfl).symm

theorem mapM {γ : Type} {f g : γ → Except (Failure E) α} {xs : List γ}
    (h : ∀ a ∈ xs, Follows (f a) (g a)) : Follows (xs.mapM f) (xs.mapM g) := by
  induction xs with
  | nil => exact refl _
  | cons a xs ih =>
    obtain ⟨ha, hxs⟩ := List.forall_mem_cons.1 h
    rw [List.mapM_cons, List.mapM_cons]
    exact ha.bind fun _ => (ih hxs).bind fun _ => refl _

end Follows

/-- `x` follows `value` where the plan runs, and is an error of the dispatchers elsewhere. -/
structure Agrees {α : Type} (runs : Prop) (value x : Except (Failure E) α) : Prop where
  returns : runs → Follows x value
  raises : ¬ runs → ∃ e, x = .error (.shape e)

theorem Agrees.bind {α β : Type} {runs : Prop} {value x : Except (Failure E) α}
    {f g : α → Except (Failure E) β} (h : Agrees runs value x) (hfg : ∀ a, Follows (f a) (g a)) :
    Agrees runs (value >>= g) (x >>= f) := by
  refine ⟨fun hr => (h.returns hr).bind hfg, fun hr => ?_⟩
  obtain ⟨e, rfl⟩ := h.raises hr
  exact ⟨e, rfl⟩

theorem Agrees.bind_same {α β : Type} {runs : Prop} {value x : Except (Failure E) α}
    (h : Agrees runs value x) (f : α → Except (Failure E) β) : Agrees runs (value >>= f) (x >>= f) :=
  h.bind fun a => .refl (f a)

theorem Agrees.of_shape {α : Type} {runs : Prop} {value x : Except (Failure E) α} {e : ShapeError}
    (hr : ¬ runs) (hx : x = .error (.shape e)) : Agrees runs value x :=
  ⟨fun h => absurd h hr, fun _ => ⟨e, hx⟩⟩

theorem Agrees.of_ok {α : Type} {runs : Prop} {value x : Except (Failure E) α} (hr : runs)
    (hx : x = value) : Agrees runs value x :=
  ⟨fun _ => Or.inl hx, fun h => absurd hr h⟩

/-- `rewrite` took `df` out of `plan` and left `wire`. -/
def Rewrites (P : Polars F C J E) (plan : Plan F S R J) (df : F) (wire : WirePlan S) : Prop :=
  (rewrite P.height plan : Except (Failure E) _) = .ok ([df], wire)

section Rewriting

variable {df : F} {wire : WirePlan S} {input : Plan F S R J}

theorem Rewrites.project {columns : List String} (h : Rewrites P (.project input columns) df wire) :
    ∃ w, Rewrites P input df w ∧ wire = .project w columns := by
  obtain ⟨⟨captured, w⟩, hinput, hpure⟩ := Fallible.bind_eq_ok.1 h
  cases hpure
  exact ⟨w, hinput, rfl⟩

theorem Rewrites.filter {predicate : PredicateAst} (h : Rewrites P (.filter input predicate) df wire) :
    ∃ w, Rewrites P input df w ∧ wire = .filter w predicate := by
  obtain ⟨⟨captured, w⟩, hinput, hpure⟩ := Fallible.bind_eq_ok.1 h
  cases hpure
  exact ⟨w, hinput, rfl⟩

theorem Rewrites.hstack {exprs : List (Binding S)} (h : Rewrites P (.hstack input exprs) df wire) :
    ∃ w, Rewrites P input df w ∧ wire = .hstack w exprs := by
  obtain ⟨⟨captured, w⟩, hinput, hpure⟩ := Fallible.bind_eq_ok.1 h
  cases hpure
  exact ⟨w, hinput, rfl⟩

theorem Rewrites.groupBy {keys : List (String × PlanDtype)} {aggs : List AggSpec}
    {fusedAggs : List (FusedAgg R)} (h : Rewrites P (.groupBy input keys aggs fusedAggs) df wire) :
    ∃ w, Rewrites P input df w ∧ wire = .groupBy w keys aggs := by
  obtain ⟨⟨captured, w⟩, hinput, hpure⟩ := Fallible.bind_eq_ok.1 h
  cases hpure
  exact ⟨w, hinput, rfl⟩

end Rewriting

theorem rewritten_bind {x : Except (Failure E) (List F × WirePlan S)} (g : WirePlan S → WirePlan S)
    (h : (∃ df wire, x = .ok ([df], wire)) ∨ ∃ e, x = .error (.shape e)) :
    (∃ df wire, (x >>= fun p => pure (p.1, g p.2)) = .ok ([df], wire)) ∨
      ∃ e, (x >>= fun p => pure (p.1, g p.2)) = .error (.shape e) := by
  rcases h with ⟨df, wire, rfl⟩ | ⟨e, rfl⟩
  · exact Or.inl ⟨df, g wire, rfl⟩
  · exact Or.inr ⟨e, rfl⟩

theorem extract_cases (P : Polars F C J E) (plan : Plan F S R J) :
    (∃ df wire, Rewrites P plan df wire ∧
      (extractScanDfAndWirePlan P.height plan : Except (Failure E) _) = .ok (df, wire)) ∨
    ∃ e, (rewrite P.height plan : Except (Failure E) _) = .error (.shape e) ∧
      (extractScanDfAndWirePlan P.height plan : Except (Failure E) _) = .error (.shape e) := by
  have hrewrite : (∃ df wire, Rewrites P plan df wire) ∨
      ∃ e, (rewrite P.height plan : Except (Failure E) _) = .error (.shape e) := by
    induction plan with
    | scan df columns projection =>
      cases projection with
      | none => exact Or.inl ⟨df, _, rfl⟩
      | some names => exact Or.inl ⟨df, _, rfl⟩
    | project input columns ih => exact rewritten_bind (.project · columns) ih
    | filter input predicate ih => exact rewritten_bind (.filter · predicate) ih
    | hstack input exprs ih => exact rewritten_bind (.hstack · exprs) ih
    | groupBy input keys aggs fusedAggs ih => exact rewritten_bind (.groupBy · keys aggs) ih
    | sort => exact Or.inr ⟨_, rfl⟩
    | join => exact Or.inr ⟨_, rfl⟩
  rcases hrewrite with ⟨df, wire, h⟩ | ⟨e, h⟩
  · refine Or.inl ⟨df, wire, h, ?_⟩
    unfold extractScanDfAndWirePlan
    rw [h]
    rfl
  · refine Or.inr ⟨e, h, ?_⟩
    unfold extractScanDfAndWirePlan
    rw [h]
    rfl

/-! The native executor. -/

theorem parseDtype_cases (dtype : Option PlanDtype) :
    (dtype.isSome ∧ ∃ d, (parseDtype dtype : Except (Failure E) _) = .ok d) ∨
      (¬ dtype.isSome ∧ ∃ e, (parseDtype dtype : Except (Failure E) _) = .error (.shape e)) := by
  cases dtype with
  | some d => exact Or.inl ⟨rfl, _, rfl⟩
  | none => exact Or.inr ⟨by simp, _, rfl⟩

theorem parseColumns_cases (columns : List (String × Option PlanDtype)) :
    ((∀ c ∈ columns, c.2.isSome) ∧ ∃ cs, columns.mapM (fun c =>
        (parseDtype c.2 : Except (Failure E) _).map (fun dtype => (c.1, dtype))) = .ok cs) ∨
      ((¬ ∀ c ∈ columns, c.2.isSome) ∧ ∃ e, columns.mapM (fun c =>
        (parseDtype c.2 : Except (Failure E) _).map (fun dtype => (c.1, dtype))) =
          .error (.shape e)) := by
  induction columns with
  | nil => exact Or.inl ⟨by simp, [], rfl⟩
  | cons c columns ih =>
    rw [List.mapM_cons]
    rcases @parseDtype_cases E c.2 with ⟨hc, d, hd⟩ | ⟨hc, e, he⟩
    · rw [hd]
      rcases ih with ⟨hall, cs, hcs⟩ | ⟨hall, e, he⟩
      · exact Or.inl ⟨List.forall_mem_cons.2 ⟨hc, hall⟩, (c.1, d) :: cs, by rw [hcs]; rfl⟩
      · exact Or.inr ⟨fun h => hall (List.forall_mem_cons.1 h).2, e, by rw [he]; rfl⟩
    · exact Or.inr ⟨fun h => hc (List.forall_mem_cons.1 h).1, e, by rw [he]; rfl⟩

theorem scan_agrees (df : F) (nRows : ℕ) (columns : List (String × Option PlanDtype)) :
    Agrees (∀ c ∈ columns, c.2.isSome) (.ok df)
      (executePlan P df (.scan nRows columns : WirePlan S)) := by
  rcases @parseColumns_cases E columns with ⟨hall, cs, hcs⟩ | ⟨hall, e, he⟩
  · exact Agrees.of_ok hall (by unfold executePlan deserializePlan; rw [hcs]; rfl)
  · exact Agrees.of_shape hall (by unfold executePlan deserializePlan; rw [he]; rfl)

theorem deserializePredicate_shape {predicate : PredicateAst} {f : Failure E}
    (h : deserializePredicate predicate = .error f) : ∃ e, f = .shape e := by
  induction predicate with
  | column => cases h
  | literalF64 => cases h
  | literalBool => cases h
  | literalI64 value =>
    unfold deserializePredicate at h
    split_ifs at h with hvalue
    exact ⟨_, (Except.error.inj h).symm⟩
  | compare op lhs rhs dtype ihl ihr =>
    unfold deserializePredicate at h
    rcases hl : (deserializePredicate lhs : Except (Failure E) Unit) with f' | ⟨⟩
    · rw [hl] at h
      obtain rfl := Except.error.inj h
      exact ihl hl
    · rw [hl] at h
      exact ihr h
  | logical op lhs rhs ihl ihr =>
    unfold deserializePredicate at h
    rcases hl : (deserializePredicate lhs : Except (Failure E) Unit) with f' | ⟨⟩
    · rw [hl] at h
      obtain rfl := Except.error.inj h
      exact ihl hl
    · rw [hl] at h
      exact ihr h

/-- Only dispatchers' errors come out of the deserialiser. -/
theorem deserializePlan_shape {wire : WirePlan S} {f : Failure E}
    (h : deserializePlan wire = .error f) : ∃ e, f = .shape e := by
  induction wire generalizing f with
  | scan nRows columns =>
    unfold deserializePlan at h
    rcases @parseColumns_cases E columns with ⟨-, cs, hcs⟩ | ⟨-, e, he⟩
    · rw [hcs] at h
      cases h
    · rw [he] at h
      exact ⟨e, (Except.error.inj h).symm⟩
  | project input columns ih =>
    unfold deserializePlan at h
    rcases hi : (deserializePlan input : Except (Failure E) _) with f' | node
    · rw [hi] at h
      obtain rfl := Except.error.inj h
      exact ih hi
    · rw [hi] at h
      cases h
  | filter input predicate ih =>
    unfold deserializePlan at h
    rcases hi : (deserializePlan input : Except (Failure E) _) with f' | node
    · rw [hi] at h
      obtain rfl := Except.error.inj h
      exact ih hi
    · rw [hi] at h
      rcases hp : (deserializePredicate predicate : Except (Failure E) Unit) with f' | ⟨⟩
      · obtain ⟨e, rfl⟩ := deserializePredicate_shape hp
        simp only [hp] at h
        exact ⟨e, (Except.error.inj h).symm⟩
      · simp only [hp] at h
        cases h
  | hstack input exprs => exact ⟨_, (Except.error.inj h).symm⟩
  | groupBy input keys aggs => exact ⟨_, (Except.error.inj h).symm⟩

theorem executePlan_project (df : F) (wire : WirePlan S) (columns : List String) :
    executePlan P df (.project wire columns) =
      (executePlan P df wire >>= fun upstream => lift (P.select columns upstream)) := by
  unfold executePlan
  rw [deserializePlan]
  rcases (deserializePlan wire : Except (Failure E) _) with f | node <;> rfl

theorem executePlan_filter (df : F) (wire : WirePlan S) (predicate : PredicateAst) :
    ∃ e, executePlan P df (.filter wire predicate) = .error (.shape e) := by
  unfold executePlan
  rcases hd : (deserializePlan (.filter wire predicate) : Except (Failure E) _) with f | node
  · obtain ⟨e, rfl⟩ := deserializePlan_shape hd
    exact ⟨e, rfl⟩
  · obtain ⟨input, -, hrest⟩ := Fallible.bind_eq_ok.1 hd
    obtain ⟨-, -, hpure⟩ := Fallible.bind_eq_ok.1 hrest
    cases hpure
    exact ⟨filterNotHere, rfl⟩

/-- The native executor runs the readable plans. -/
theorem executePlan_agrees {plan : Plan F S R J} {df : F} {wire : WirePlan S}
    (h : Rewrites P plan df wire) :
    Agrees plan.Readable (plan.value P) (executePlan P df wire) := by
  induction plan generalizing wire with
  | scan df' columns projection =>
    cases projection with
    | none =>
      cases h
      exact scan_agrees df _ columns
    | some names =>
      cases h
      rw [executePlan_project]
      exact (scan_agrees df _ columns).bind_same (fun df => lift (P.select names df))
  | project input columns ih =>
    obtain ⟨w, hw, rfl⟩ := h.project
    rw [executePlan_project]
    exact (ih hw).bind_same _
  | filter input predicate ih =>
    obtain ⟨w, hw, rfl⟩ := h.filter
    obtain ⟨e, he⟩ := executePlan_filter df w predicate
    exact Agrees.of_shape id he
  | hstack input exprs ih =>
    obtain ⟨w, hw, rfl⟩ := h.hstack
    exact Agrees.of_shape id rfl
  | groupBy input keys aggs fusedAggs ih =>
    obtain ⟨w, hw, rfl⟩ := h.groupBy
    exact Agrees.of_shape id rfl
  | sort => cases h
  | join => cases h

/-! The dispatchers. -/

theorem filterUpstream_agrees {plan : Plan F S R J} {df : F} {wire : WirePlan S}
    (h : Rewrites P plan df wire) :
    Agrees plan.Filterable (plan.value P) (filterUpstream P df wire) := by
  cases plan with
  | scan df' columns projection =>
    cases projection with
    | none =>
      cases h
      exact Agrees.of_ok trivial rfl
    | some names =>
      cases h
      exact @executePlan_agrees F C S R J E P (.scan df columns (some names)) df _ rfl
  | project input columns =>
    obtain ⟨w, hw, rfl⟩ := h.project
    exact @executePlan_agrees F C S R J E P (.project input columns) df _ h
  | filter input predicate =>
    obtain ⟨w, hw, rfl⟩ := h.filter
    exact @executePlan_agrees F C S R J E P (.filter input predicate) df _ h
  | hstack input exprs =>
    obtain ⟨w, hw, rfl⟩ := h.hstack
    exact @executePlan_agrees F C S R J E P (.hstack input exprs) df _ h
  | groupBy input keys aggs fusedAggs =>
    obtain ⟨w, hw, rfl⟩ := h.groupBy
    exact @executePlan_agrees F C S R J E P (.groupBy input keys aggs fusedAggs) df _ h
  | sort => cases h
  | join => cases h

theorem hstackFused_follows {exprs : List (Binding S)} (hfused : allFused exprs = true)
    (hexprs : ∀ b ∈ exprs, b.Fused P K) (upstream : F) :
    Follows (hstackFusedOverUpstream P K upstream exprs) (appendColumns P exprs upstream) := by
  unfold allFused at hfused
  obtain ⟨hne, hall⟩ := Bool.and_eq_true_iff.1 hfused
  have hcolumns : Follows (fusedColumns K upstream exprs) (nodeColumns P upstream exprs) := by
    apply Follows.mapM
    intro b hb
    obtain ⟨scope, hscope⟩ := Option.isSome_iff_exists.1 (List.all_eq_true.1 hall b hb)
    simp only [hscope]
    have hscoped : Follows (launch (K.fusedColumn scope upstream))
        (lift (P.evalNode b.exprNode upstream)) := by
      apply Follows.launch
      intro c hc
      rw [hexprs b hb scope hscope upstream c hc]
      rfl
    exact hscoped.map _
  unfold hstackFusedOverUpstream appendColumns
  rw [if_neg (by simpa using hne)]
  exact hcolumns.bind fun _ => .refl _

theorem wireColumns_eq {exprs : List (Binding S)} (hwired : ∀ b ∈ exprs, b.Wired P) (upstream : F) :
    (wireColumns P upstream exprs : Except (Failure E) _) = nodeColumns P upstream exprs := by
  unfold wireColumns nodeColumns
  induction exprs with
  | nil => rfl
  | cons b exprs ih =>
    obtain ⟨hb, hexprs⟩ := List.forall_mem_cons.1 hwired
    rw [List.mapM_cons, List.mapM_cons, hb upstream, ih hexprs]

theorem runSort_follows {byColumns : List String} {descending nullsLast : List Bool}
    {fusedSort : Option FusedSort}
    (hsort : ∀ f, fusedSort = some f → ∀ df r, K.sort f byColumns df = .ok r →
      sortFrame P byColumns descending nullsLast fusedSort df = (.ok r : Except (Failure E) F)) (df : F) :
    Follows (runSort P K byColumns descending nullsLast fusedSort df)
      (sortFrame P byColumns descending nullsLast fusedSort df) := by
  cases fusedSort with
  | some f => exact Follows.launch fun r hr => hsort f rfl df r hr
  | none =>
    apply Or.inl
    unfold runSort sortFrame
    simp only [keys_orFalse]
    split_ifs
    · rfl
    · exact (bind_pure _).symm

variable (hK : K.Meets P)

include hK

theorem dispatchFilter_agrees {plan : Plan F S R J} {df : F} {wire : WirePlan S}
    (h : Rewrites P plan df wire) (predicate : PredicateAst) :
    Agrees plan.Filterable ((plan.filter predicate).value P)
      (dispatchFilter P K df wire predicate) := by
  unfold dispatchFilter
  apply (filterUpstream_agrees h).bind
  intro upstream
  apply Follows.launch
  intro r hr
  rw [hK.compact predicate upstream r hr]
  rfl

theorem filterViaPolars_agrees {plan : Plan F S R J} {df : F} {wire : WirePlan S}
    (h : Rewrites P plan df wire) (predicate : PredicateAst) :
    Agrees plan.Filterable ((plan.filter predicate).value P)
      (filterViaPolars P K df wire predicate) := by
  unfold filterViaPolars
  apply (filterUpstream_agrees h).bind
  intro upstream
  apply Follows.launch
  intro r hr
  rw [hK.filterViaPolars predicate upstream r hr]
  rfl

/-- `_dispatch` runs the streamed plans. -/
theorem dispatch_agrees {plan : Plan F S R J} {df : F} {wire : WirePlan S}
    (h : Rewrites P plan df wire) (hlow : plan.Lowered P K) :
    Agrees plan.Streamed (plan.value P) (dispatch P K df wire) := by
  induction plan generalizing wire with
  | scan df' columns projection =>
    cases projection with
    | none =>
      cases h
      exact Agrees.of_ok trivial rfl
    | some names =>
      cases h
      exact @executePlan_agrees F C S R J E P (.scan df columns (some names)) df _ rfl
  | project input columns ih =>
    have hplan := @executePlan_agrees F C S R J E P _ df wire h
    obtain ⟨w, hw, rfl⟩ := h.project
    cases input with
    | scan df' cs projection =>
      cases projection with
      | none =>
        cases hw
        exact hplan
      | some names =>
        cases hw
        exact hplan
    | project input' cs =>
      obtain ⟨w', hw', rfl⟩ := hw.project
      exact hplan
    | filter input' predicate =>
      obtain ⟨w', hw', rfl⟩ := hw.filter
      exact (dispatchFilter_agrees hK hw' predicate).bind_same _
    | hstack input' exprs =>
      have hinner := ih hw hlow
      obtain ⟨w', hw', rfl⟩ := hw.hstack
      exact hinner.bind_same _
    | groupBy input' keys aggs fusedAggs =>
      obtain ⟨w', hw', rfl⟩ := hw.groupBy
      exact hplan
    | sort => cases hw
    | join => cases hw
  | filter input predicate ih =>
    obtain ⟨w, hw, rfl⟩ := h.filter
    exact dispatchFilter_agrees hK hw predicate
  | hstack input exprs ih =>
    obtain ⟨w, hw, rfl⟩ := h.hstack
    unfold dispatch
    by_cases hfused : allFused exprs = true
    · rw [if_pos hfused]
      have hinput := (ih hw hlow.1).bind (hstackFused_follows hfused hlow.2)
      exact ⟨fun hr => hinput.returns hr.2, fun hr => hinput.raises fun hs => hr ⟨hfused, hs⟩⟩
    · rw [if_neg hfused]
      exact Agrees.of_shape (fun hr => hfused hr.1) rfl
  | groupBy input keys aggs fusedAggs ih =>
    obtain ⟨w, hw, rfl⟩ := h.groupBy
    exact Agrees.of_shape id rfl
  | sort => cases h
  | join => cases h

theorem groupByUpstream_agrees {plan : Plan F S R J} {df : F} {wire : WirePlan S}
    (h : Rewrites P plan df wire) :
    Agrees plan.Groupable (plan.value P) (groupByUpstream P K df wire) := by
  have hplan := @executePlan_agrees F C S R J E P _ df wire h
  cases plan with
  | scan df' columns projection =>
    cases projection with
    | none =>
      cases h
      exact Agrees.of_ok trivial rfl
    | some names =>
      cases h
      exact hplan
  | project input columns =>
    obtain ⟨w, hw, rfl⟩ := h.project
    cases input with
    | scan df' cs projection =>
      cases projection with
      | none =>
        cases hw
        exact hplan
      | some names =>
        cases hw
        exact hplan
    | project input' cs =>
      obtain ⟨w', hw', rfl⟩ := hw.project
      exact hplan
    | filter input' predicate =>
      obtain ⟨w', hw', rfl⟩ := hw.filter
      exact (filterViaPolars_agrees hK hw' predicate).bind_same _
    | hstack input' exprs =>
      obtain ⟨w', hw', rfl⟩ := hw.hstack
      exact hplan
    | groupBy input' keys aggs fusedAggs =>
      obtain ⟨w', hw', rfl⟩ := hw.groupBy
      exact hplan
    | sort => cases hw
    | join => cases hw
  | filter input predicate =>
    obtain ⟨w, hw, rfl⟩ := h.filter
    exact filterViaPolars_agrees hK hw predicate
  | hstack input exprs =>
    obtain ⟨w, hw, rfl⟩ := h.hstack
    exact hplan
  | groupBy input keys aggs fusedAggs =>
    obtain ⟨w, hw, rfl⟩ := h.groupBy
    exact hplan
  | sort => cases h
  | join => cases h

/-- A group-by takes off an `HStack` and runs what is below. -/
theorem dispatchGroupby_agrees {input : Plan F S R J} {df : F} {wire : WirePlan S}
    (h : Rewrites P input df wire)
    (hlow : ∀ inner exprs, input = .hstack inner exprs → ∀ b ∈ exprs, b.Wired P)
    (keys : List (String × PlanDtype)) (aggs : List AggSpec) :
    Agrees input.Peelable (input.value P >>= fun df => lift (P.groupBy keys aggs df))
      (dispatchGroupby P K df wire keys aggs) := by
  have hgroup : ∀ df, Follows (launch (K.groupBy keys aggs df)) (lift (P.groupBy keys aggs df)) := by
    intro df
    apply Follows.launch
    intro r hr
    rw [hK.groupBy keys aggs df r hr]
    rfl
  have hplain := (groupByUpstream_agrees hK h).bind hgroup
  unfold dispatchGroupby
  cases input with
  | hstack inner exprs =>
    obtain ⟨w, hw, rfl⟩ := h.hstack
    have happend : ∀ upstream, Follows
        (if exprs.isEmpty then pure upstream >>= fun df => launch (K.groupBy keys aggs df)
          else wireColumns P upstream exprs >>= fun columns =>
            lift (P.withColumns columns upstream) >>= fun df => launch (K.groupBy keys aggs df))
        (appendColumns P exprs upstream >>= fun df => lift (P.groupBy keys aggs df)) := by
      intro upstream
      unfold appendColumns
      rw [wireColumns_eq (hlow inner exprs rfl)]
      split_ifs
      · exact hgroup upstream
      · rw [bind_assoc]
        exact (Follows.refl _).bind fun columns => (Follows.refl _).bind hgroup
    have hvalue : ((inner.hstack exprs).value P >>= fun df => lift (P.groupBy keys aggs df)) =
        (inner.value P >>= fun df =>
          appendColumns P exprs df >>= fun df => lift (P.groupBy keys aggs df)) :=
      bind_assoc _ _ _
    rw [hvalue]
    exact (groupByUpstream_agrees hK hw).bind happend
  | scan df' columns projection =>
    cases projection with
    | none =>
      cases h
      exact hplain
    | some names =>
      cases h
      exact hplain
  | project input columns =>
    obtain ⟨w, hw, rfl⟩ := h.project
    exact hplain
  | filter input predicate =>
    obtain ⟨w, hw, rfl⟩ := h.filter
    exact hplain
  | groupBy input keys aggs fusedAggs =>
    obtain ⟨w, hw, rfl⟩ := h.groupBy
    exact hplain
  | sort => cases h
  | join => cases h

/-! The UDF. -/

omit hK

/-- No node that `rewrite` refuses. -/
def Plan.OneScan : Plan F S R J → Prop
  | scan .. => True
  | project input _ | filter input _ | hstack input _ | groupBy input _ _ _ => input.OneScan
  | sort .. | join .. => False

theorem Plan.Readable.oneScan {plan : Plan F S R J} (h : plan.Readable) : plan.OneScan := by
  induction plan with
  | scan => trivial
  | project input columns ih => exact ih h
  | filter => exact h.elim
  | hstack => exact h.elim
  | groupBy => exact h.elim
  | sort => exact h.elim
  | join => exact h.elim

theorem Plan.Filterable.oneScan {plan : Plan F S R J} (h : plan.Filterable) : plan.OneScan := by
  cases plan with
  | scan => trivial
  | project => exact Plan.Readable.oneScan h
  | filter => exact Plan.Readable.oneScan h
  | hstack => exact Plan.Readable.oneScan h
  | groupBy => exact Plan.Readable.oneScan h
  | sort => exact Plan.Readable.oneScan h
  | join => exact Plan.Readable.oneScan h

theorem Plan.Streamed.oneScan {plan : Plan F S R J} (h : plan.Streamed) : plan.OneScan := by
  induction plan with
  | scan => trivial
  | project input columns ih =>
    cases input with
    | scan => trivial
    | filter input predicate =>
      have hinput : input.Filterable := h
      exact hinput.oneScan
    | hstack input exprs => exact ih h
    | project => exact Plan.Readable.oneScan h
    | groupBy => exact Plan.Readable.oneScan h
    | sort => exact Plan.Readable.oneScan h
    | join => exact Plan.Readable.oneScan h
  | filter input predicate ih =>
    have hinput : input.Filterable := h
    exact hinput.oneScan
  | hstack input exprs ih => exact ih h.2
  | groupBy => exact Plan.Readable.oneScan h
  | sort => exact Plan.Readable.oneScan h
  | join => exact Plan.Readable.oneScan h

theorem Plan.Groupable.oneScan {plan : Plan F S R J} (h : plan.Groupable) : plan.OneScan := by
  cases plan with
  | scan => trivial
  | project input columns =>
    cases input with
    | scan => trivial
    | filter input predicate =>
      have hinput : input.Filterable := h
      exact hinput.oneScan
    | hstack => exact Plan.Readable.oneScan h
    | project => exact Plan.Readable.oneScan h
    | groupBy => exact Plan.Readable.oneScan h
    | sort => exact Plan.Readable.oneScan h
    | join => exact Plan.Readable.oneScan h
  | filter input predicate =>
    have hinput : input.Filterable := h
    exact hinput.oneScan
  | hstack => exact Plan.Readable.oneScan h
  | groupBy => exact Plan.Readable.oneScan h
  | sort => exact Plan.Readable.oneScan h
  | join => exact Plan.Readable.oneScan h

theorem Plan.Peelable.oneScan {plan : Plan F S R J} (h : plan.Peelable) : plan.OneScan := by
  cases plan with
  | hstack input exprs =>
    have hinput : input.Groupable := h
    exact hinput.oneScan
  | scan => trivial
  | project => exact Plan.Groupable.oneScan h
  | filter => exact Plan.Groupable.oneScan h
  | groupBy => exact Plan.Groupable.oneScan h
  | sort => exact Plan.Groupable.oneScan h
  | join => exact Plan.Groupable.oneScan h

theorem error_of_bind {α β : Type} {x : Except (Failure E) α} {k : α → Except (Failure E) β}
    {f : Failure E} (hk : ∀ a, ∃ b, k a = .ok b) (h : (x >>= k) = .error f) : x = .error f := by
  cases x with
  | error f' => exact congrArg Except.error (Except.error.inj h)
  | ok a =>
    obtain ⟨b, hb⟩ := hk a
    exact absurd (hb.symm.trans h) (by simp)

theorem Plan.OneScan.rewrite_ne {plan : Plan F S R J} (h : plan.OneScan) (f : Failure E) :
    rewrite P.height plan ≠ .error f := by
  intro hf
  induction plan with
  | scan df columns projection => cases projection <;> cases hf
  | project input columns ih =>
    apply ih h
    exact error_of_bind (fun p => ⟨_, rfl⟩) hf
  | filter input predicate ih =>
    apply ih h
    exact error_of_bind (fun p => ⟨_, rfl⟩) hf
  | hstack input exprs ih =>
    apply ih h
    exact error_of_bind (fun p => ⟨_, rfl⟩) hf
  | groupBy input keys aggs fusedAggs ih =>
    apply ih h
    exact error_of_bind (fun p => ⟨_, rfl⟩) hf
  | sort => exact h
  | join => exact h

/-- The row limits a UDF slices by as Polars does: that of fused reductions returns its row whole. -/
def Plan.Limits : Plan F S R J → Option ℕ → Prop
  | groupBy _ keys _ fusedAggs, nRows => (keys.isEmpty && !fusedAggs.isEmpty) → nRows ≠ some 0
  | _, _ => True

/-- What `build_udf` gives for a plan. -/
structure Built (P : Polars F C J E) (runs : Prop) (limits : Option ℕ → Prop)
    (value : Except (Failure E) F) (x : Except (Failure E) (RunUdf F E)) : Prop where
  returns : runs → ∃ udf, x = .ok udf ∧
    ∀ nRows, limits nRows → Follows (udf nRows) (value.map (sliceRows P nRows))
  raises : ¬ runs → (∃ e, x = .error (.shape e)) ∨
    ∃ udf e, x = .ok udf ∧ ∀ nRows, udf nRows = .error (.shape e)

/-- A builder that takes the scanned frame out of its plan. -/
theorem built_of_agrees {plan : Plan F S R J} {runs : Prop} {limits : Option ℕ → Prop}
    {value : Except (Failure E) F} (ran : F → WirePlan S → Except (Failure E) F)
    (finish : Option ℕ → F → F)
    (hfinish : ∀ nRows, limits nRows → value.map (finish nRows) = value.map (sliceRows P nRows))
    (hone : runs → plan.OneScan)
    (hran : ∀ df wire, Rewrites P plan df wire → Agrees runs value (ran df wire)) :
    Built P runs limits value (extractScanDfAndWirePlan P.height plan >>= fun p =>
      return fun nRows => (ran p.1 p.2).map (finish nRows)) := by
  rcases extract_cases P plan with ⟨df, wire, hrewrite, hextract⟩ | ⟨e, hrewrite, hextract⟩
  · rw [hextract]
    have hagrees := hran df wire hrewrite
    refine ⟨fun hr => ⟨_, rfl, fun nRows hlimit => ?_⟩, fun hr => ?_⟩
    · rw [← hfinish nRows hlimit]
      exact (hagrees.returns hr).map _
    · obtain ⟨e, he⟩ := hagrees.raises hr
      exact Or.inr ⟨_, e, rfl, fun nRows => by rw [he]; rfl⟩
  · rw [hextract]
    refine ⟨fun hr => ?_, fun _ => Or.inl ⟨e, rfl⟩⟩
    exact absurd hrewrite ((hone hr).rewrite_ne _)

/-- The row of the reductions is within every limit but zero. -/
theorem reduceFrame_sliced (hP : P.Lawful) {fusedAggs : List (FusedAgg R)} {nRows : Option ℕ}
    (hlimit : nRows ≠ some 0) (upstream : Except (Failure E) F) :
    (upstream >>= fun df => lift (reduceFrame P fusedAggs df)).map id =
      (upstream >>= fun df => lift (reduceFrame P fusedAggs df)).map (sliceRows P nRows) := by
  rcases upstream with e | df
  · rfl
  · change (lift (reduceFrame P fusedAggs df)).map id =
      (lift (reduceFrame P fusedAggs df)).map (sliceRows P nRows)
    rcases hr : reduceFrame P fusedAggs df with e | r
    · rfl
    · refine congrArg Except.ok ?_
      cases nRows with
      | none => rfl
      | some n =>
        have hheight := hP.reduce_height _ _ _ hr
        exact (hP.slice_whole n r (by rw [hheight]; exact Nat.pos_of_ne_zero fun h => hlimit (h ▸ rfl))).symm

theorem buildGroupby_built (hK : K.Meets P) (hP : P.Lawful) {input : Plan F S R J}
    {keys : List (String × PlanDtype)} {aggs : List AggSpec} {fusedAggs : List (FusedAgg R)}
    (hlow : (Plan.groupBy input keys aggs fusedAggs).Lowered P K) :
    Built P (Plan.groupBy input keys aggs fusedAggs).Executable
      (Plan.groupBy input keys aggs fusedAggs).Limits
      ((Plan.groupBy input keys aggs fusedAggs).value P)
      (buildGroupby P K input keys aggs fusedAggs) := by
  obtain ⟨hinput, hreduce, hwired⟩ := hlow
  unfold buildGroupby Plan.Executable Plan.value Plan.Limits
  by_cases hfused : (keys.isEmpty && !fusedAggs.isEmpty) = true
  · simp only [hfused, if_true, true_imp_iff]
    have hkernel : ∀ df, Follows (launch (K.reduce fusedAggs df))
        (lift (reduceFrame P fusedAggs df)) := by
      intro df
      apply Follows.launch
      intro r hr
      rw [hreduce df r hr]
      rfl
    have hbuilt := @built_of_agrees F C S R J E P input input.Streamed (· ≠ some 0)
      (input.value P >>= fun df => lift (reduceFrame P fusedAggs df))
      (fun df wire => dispatch P K df wire >>= fun upstream => launch (K.reduce fusedAggs upstream))
      (fun _ => id) (fun _ hlimit => reduceFrame_sliced hP hlimit _) (fun h => h.oneScan)
      (fun df wire hw => (dispatch_agrees hK hw hinput).bind hkernel)
    have hid : ∀ x : Except (Failure E) F, x.map id = x := fun x => by cases x <;> rfl
    simp only [hid] at hbuilt
    exact hbuilt
  · simp only [hfused]
    exact built_of_agrees (fun df wire => dispatchGroupby P K df wire keys aggs) (sliceRows P)
      (fun _ _ => rfl) (fun h => h.oneScan)
      (fun df wire hw => dispatchGroupby_agrees hK hw hwired keys aggs)

theorem map_none (x : Except (Failure E) F) : x.map (sliceRows P none) = x := by
  cases x <;> rfl

/-- The inner UDF of a sort has no row limit. -/
theorem Plan.limits_none (plan : Plan F S R J) : plan.Limits none := by
  cases plan with
  | groupBy => exact fun _ => by simp
  | _ => trivial

/-- `build_udf` of a plan over one scan: a plan of the shapes gets a UDF that returns the plan's frame,
to the row limit asked for, or the exception of a kernel; any other plan an exception of the
dispatchers, from the builder or from every call of the UDF. -/
theorem buildUdf_built (hK : K.Meets P) (hP : P.Lawful) (plan : Plan F S R J)
    (hjoin : plan.hasJoin = false) (hlow : plan.Lowered P K) :
    Built P plan.Executable plan.Limits (plan.value P) (buildUdf P K plan) := by
  induction plan with
  | sort input byColumns descending nullsLast fusedSort ih =>
    have h := ih hjoin hlow.1
    unfold buildUdf
    refine ⟨fun hr => ?_, fun hr => ?_⟩
    · obtain ⟨udf, hudf, hvalue⟩ := h.returns hr
      refine ⟨_, by rw [hudf]; rfl, fun nRows _ => ?_⟩
      have hinner : Follows (udf none) (input.value P) := by
        have hnone := hvalue none input.limits_none
        rwa [map_none] at hnone
      have hsorted := (hinner.bind (runSort_follows hlow.2)).map (sliceRows P nRows)
      have hcall : (udf none >>= fun df => runSort P K byColumns descending nullsLast fusedSort df >>=
          fun df => pure (sliceRows P nRows df)) =
          (udf none >>= fun df => runSort P K byColumns descending nullsLast fusedSort df).map
            (sliceRows P nRows) := by
        rcases udf none with e | df
        · rfl
        · change (runSort P K byColumns descending nullsLast fusedSort df >>= _) =
            (runSort P K byColumns descending nullsLast fusedSort df).map _
          rcases runSort P K byColumns descending nullsLast fusedSort df with e | out <;> rfl
      exact hcall ▸ hsorted
    · rcases h.raises hr with ⟨e, he⟩ | ⟨udf, e, hudf, he⟩
      · exact Or.inl ⟨e, by rw [he]; rfl⟩
      · refine Or.inr ⟨_, e, by rw [hudf]; rfl, fun nRows => ?_⟩
        rw [he none]
        rfl
  | groupBy input keys aggs fusedAggs => exact buildGroupby_built hK hP hlow
  | join => cases hjoin
  | scan df columns projection =>
    exact built_of_agrees (dispatch P K) (sliceRows P) (fun _ _ => rfl) (fun h => h.oneScan)
      (fun df wire hw => dispatch_agrees hK hw hlow)
  | project input columns =>
    exact built_of_agrees (dispatch P K) (sliceRows P) (fun _ _ => rfl) (fun h => h.oneScan)
      (fun df wire hw => dispatch_agrees hK hw hlow)
  | filter input predicate =>
    exact built_of_agrees (dispatch P K) (sliceRows P) (fun _ _ => rfl) (fun h => h.oneScan)
      (fun df wire hw => dispatch_agrees hK hw hlow)
  | hstack input exprs =>
    exact built_of_agrees (dispatch P K) (sliceRows P) (fun _ _ => rfl) (fun h => h.oneScan)
      (fun df wire hw => dispatch_agrees hK hw hlow)

/-! Frames with a column `x`, and expressions that add a number to it; group-bys have no aggregates, and
the compaction raises for a column `i`. -/

def sortedRows (keys : List SortKey) (df : Frame ℕ) : Frame ℕ :=
  ⟨df.columns, df.rows.insertionSort (fun a b => rowLe df.columns keys a b)⟩

def samplePolars : Polars (Frame ℕ) (List (Option ℕ)) Unit String where
  height df := df.rows.length
  select columns df :=
    if columns.all (fun c => c ∈ df.columns) then
      .ok ⟨columns, df.rows.map (fun row => columns.map (cellOf df.columns row))⟩
    else .error "ColumnNotFoundError"
  withColumns columns df := .ok ⟨df.columns ++ columns.map Prod.fst,
    df.rows.mapIdx (fun i row => row ++ columns.map (fun c => c.2.getD i none))⟩
  slice offset length df := df.slice offset length
  dropNulls c df := df.dropNulls c
  sort keys df := .ok (sortedRows keys df)
  join _ := .error "join"
  evalWire expr df :=
    match expr with
    | .column name => .ok (df.getColumn name)
    | _ => .error "expression"
  evalNode k df := .ok ((df.getColumn "x").map (Option.map (fun v => v + k)))
  reduceNodes nodes df := .ok ⟨nodes.map Prod.fst, [nodes.map (fun node =>
    some (((df.getColumn "x").reduceOption.map (fun v => v + node.2)).sum))]⟩
  filter predicate df :=
    match predicate with
    | .literalBool keep => .ok (if keep then df else ⟨df.columns, []⟩)
    | _ => .error "predicate"
  groupBy keys aggs df :=
    if aggs.isEmpty then .ok ⟨keys.map Prod.fst,
      (df.rows.map (fun row => keys.map (fun k => cellOf df.columns row k.1))).eraseDups⟩
    else .error "aggregates"

def sampleKernels : Kernels (Frame ℕ) (List (Option ℕ)) ℕ Unit Unit String where
  compact predicate df := if "i" ∈ df.columns then .error "dtype" else samplePolars.filter predicate df
  filterViaPolars := samplePolars.filter
  fusedColumn k df := samplePolars.evalNode k df
  reduce fusedAggs df := reduceFrame samplePolars fusedAggs df
  groupBy := samplePolars.groupBy
  sort f byColumns df :=
    let df := if f.dropNulls then df.dropNulls f.column else df
    let df := sortedRows (sortKeys byColumns [f.descending] [f.nullsLast]) df
    .ok (match f.slice with
      | some (off, length) => df.slice off length
      | none => df)
  gather _ _ := none

abbrev SamplePlan := Plan (Frame ℕ) ℕ Unit Unit

/-- `y = x + 1`, with the wire form the walker gives a fused binding. -/
def addedOne : SamplePlan :=
  .hstack (.scan ⟨["x"], [[some 1], [some 2]]⟩ [("x", some .f32)] none) [⟨"y", .column "x", 1, some 1⟩]

/-- The greatest `y`. -/
def topAdded : SamplePlan :=
  .sort (.project addedOne ["y"]) ["y"] [true] [false] (some ⟨"y", true, false, some (0, 1), false⟩)

theorem sampleKernels_meets : sampleKernels.Meets samplePolars := by
  refine ⟨fun predicate df r h => ?_, fun _ _ _ h => h, fun _ _ _ _ h => h⟩
  unfold sampleKernels at h
  simp only at h
  split_ifs at h
  exact h

theorem samplePolars_lawful : samplePolars.Lawful := by
  refine ⟨fun n df h => ?_, fun nodes df r h => ?_⟩
  · exact congrArg (Frame.mk df.columns) (Window.slice_of_length_le h)
  · obtain rfl := Except.ok.inj h
    rfl

theorem topAdded_lowered : topAdded.Lowered samplePolars sampleKernels := by
  refine ⟨⟨trivial, fun b hb => ?_⟩, ?_⟩
  · obtain rfl := List.mem_singleton.1 hb
    rintro scope ⟨⟩ df c h
    exact h
  · rintro f ⟨⟩ df r h
    obtain rfl := Except.ok.inj h
    rfl

theorem buildUdf_built_sample :
    Built samplePolars topAdded.Executable topAdded.Limits (topAdded.value samplePolars)
        (buildUdf samplePolars sampleKernels topAdded) ∧
      topAdded.Executable ∧ topAdded.value samplePolars = .ok ⟨["y"], [[some 3]]⟩ :=
  ⟨buildUdf_built sampleKernels_meets samplePolars_lawful _ rfl topAdded_lowered, ⟨rfl, trivial⟩,
    by decide +kernel⟩

/-- `with_columns(..).filter(..)`: the native executor is handed the `HStack`. -/
example : (buildUdf samplePolars sampleKernels (.filter addedOne (.literalBool true))).toOption.map
    (fun udf => udf none) =
      some (.error (.shape (.valueError "polars_metal: unknown plan kind \"HStack\""))) := by
  decide +kernel

/-- Under a group-by the placeholder is what is evaluated: `y` comes out as `x`. -/
example : (buildUdf samplePolars sampleKernels (.groupBy addedOne [("y", .f32)] [] [])).toOption.map
    (fun udf => udf none) = some (.ok ⟨["y"], [[some 1], [some 2]]⟩) := by
  decide +kernel

end PolarsMetal.Udf
