import PolarsMetal.Lowering.SortSpec

/-! The filter a top-k sort sits on. When the traverser cannot view a filter's predicate the walker
takes it for the optimizer's own null drop, sorts the filter's input instead and drops the nulls
in the UDF. -/

namespace PolarsMetal.Lowering
open Fusion Window

variable {V : Type}

/-- A filter below the sort: whether its predicate can be viewed, the rows it keeps of a frame, the
lowering of the filter when it can be viewed, and that of its input. -/
structure FilterNode (V P : Type) where
  viewable : Bool
  keep : Frame V → ℕ → Bool
  lowered : Option P
  input : Option P

namespace FilterNode

variable {P : Type}

def apply (f : FilterNode V P) (df : Frame V) : Frame V :=
  { df with rows := (df.rows.zipIdx.filter (fun (_, i) => f.keep df i)).map Prod.fst }

/-- The walk of the filter: a predicate that cannot be viewed falls back. -/
def walk (f : FilterNode V P) : Option P := if f.viewable then f.lowered else none

/-- `_bypass_dynamic_null_filter`. -/
def bypassDynamicNullFilter (f : FilterNode V P) : Option P :=
  if f.viewable then none else f.input

/-- The predicate keeps exactly the rows whose cell of the column is not null. -/
def IsNullTest (f : FilterNode V P) (c : String) (schema : List (String × PolarsDtype)) : Prop :=
  ∀ df : Frame V, df.Fits schema → ∀ i (h : i < df.rows.length),
    f.keep df i = (cellOf df.columns df.rows[i] c).isSome

end FilterNode

/-- The sort of a column over a filter, lowered. -/
def walkSortOverFilter {P : Type} (node : SortNode) (f : FilterNode V P) :
    Except SortFallBack (SortPlan P) :=
  walkSort node f.walk f.bypassDynamicNullFilter

/-- The same plan had the filter stayed. -/
def SortPlan.keepingFilter {P : Type} (plan : SortPlan P) : SortPlan P :=
  { plan with fusedSort := plan.fusedSort.map (fun s => { s with dropNulls := false }) }

/-! When the filter goes. -/

theorem mapM_id_eq_some {α : Type} {xs : List (Option α)} {ys : List α} :
    xs.mapM id = some ys ↔ xs = ys.map some := by
  induction xs generalizing ys with
  | nil => cases ys <;> simp
  | cons x xs ih =>
    rw [List.mapM_cons]
    rcases x with _ | x
    · cases ys <;> simp
    · rcases hxs : xs.mapM id with _ | zs
      · have hne : ∀ zs : List α, xs ≠ zs.map some := by
          intro zs h
          rw [ih.2 h] at hxs
          cases hxs
        cases ys with
        | nil => simp
        | cons y ys => simpa using fun _ => hne ys
      · have hzs := ih.1 hxs
        cases ys with
        | nil => simp
        | cons y ys => simp [hzs, List.map_inj_right]

/-- A filter goes exactly when its predicate cannot be viewed, its input lowers, and the sort is a
slice of one `Float32` column. -/
theorem walkSortOverFilter_bypassed_iff {P : Type} {node : SortNode} {f : FilterNode V P}
    {plan : SortPlan P} {s : FusedSort} :
    (walkSortOverFilter node f = .ok plan ∧ plan.fusedSort = some s ∧ s.dropNulls = true) ↔
      ∃ p, f.viewable = false ∧ f.input = some p ∧ node.byColumns = [some s.column] ∧
        node.inSchema = [(s.column, .float32)] ∧ node.slice ≠ none ∧
        s = ⟨s.column, node.descending.headD false, node.nullsLast.headD false, node.slice, true⟩ ∧
        plan = ⟨p, [s.column], node.descending, node.nullsLast, some s⟩ := by
  unfold walkSortOverFilter walkSort
  refine ⟨?_, ?_⟩
  · intro ⟨hrun, hs, hdrop⟩
    rcases hnames : node.names with _ | byColumns
    · rw [hnames] at hrun
      cases hrun
    rw [hnames] at hrun
    simp only at hrun
    split_ifs at hrun with hslice
    have hby := mapM_id_eq_some.1 hnames
    rcases hwalk : f.walk with _ | p
    · rw [hwalk] at hrun
      simp only at hrun
      rcases hfused : fusedSortFor node byColumns with _ | s₀
      · rw [hfused] at hrun
        cases hrun
      rcases hbyp : f.bypassDynamicNullFilter with _ | p
      · rw [hfused, hbyp] at hrun
        cases hrun
      rw [hfused, hbyp] at hrun
      simp only at hrun
      split_ifs at hrun with hnone
      cases hrun
      simp only [Option.some.injEq] at hs
      obtain ⟨hcols, hschema, hs₀⟩ := fusedSortFor_eq_some hfused
      subst hs
      unfold FilterNode.bypassDynamicNullFilter at hbyp
      split_ifs at hbyp with hview
      refine ⟨p, by simpa using hview, hbyp, ?_, hschema, ?_, ?_, ?_⟩
      · rw [hby, hcols]
        rfl
      · rwa [hs₀] at hnone
      · rw [hs₀]
      · rw [hcols]
    · -- the filter itself was lowered, and nothing is dropped
      rw [hwalk] at hrun
      cases hrun
      obtain ⟨-, -, hseq⟩ := fusedSortFor_eq_some hs
      rw [hseq] at hdrop
      cases hdrop
  · intro ⟨p, hview, hinput, hby, hschema, hslice, hs, hplan⟩
    have hnames : node.names = some [s.column] := mapM_id_eq_some.2 (by rw [hby]; rfl)
    have hfused : fusedSortFor node [s.column] = some { s with dropNulls := false } := by
      unfold fusedSortFor
      rw [hschema]
      simp only [and_self, if_true]
      rw [hs]
    have hwalk : f.walk = none := by
      unfold FilterNode.walk
      rw [hview]
      rfl
    have hbyp : f.bypassDynamicNullFilter = some p := by
      unfold FilterNode.bypassDynamicNullFilter
      rw [hview]
      exact hinput
    have hslice' : s.slice ≠ none := by
      rw [hs]
      exact hslice
    have hdrop : s.dropNulls = true := by rw [hs]
    rw [hnames]
    simp only [hfused, hwalk, hbyp, reduceCtorEq, false_and, if_false, if_neg hslice']
    refine ⟨?_, ?_, hdrop⟩
    · rw [hplan]
      obtain ⟨c, d, n, sl, dn⟩ := s
      simp only at hdrop
      rw [hdrop]
    · rw [hplan]

/-! What the dropped filter kept. -/

theorem picked_sublist {α : Type} (xs : List α) (n : ℕ) (keep : ℕ → Bool) :
    (((xs.zipIdx n).filter (fun (_, i) => keep i)).map Prod.fst).Sublist xs := by
  have h := (List.filter_sublist (l := xs.zipIdx n) (p := fun (_, i) => keep i)).map Prod.fst
  rwa [List.zipIdx_map_fst] at h

/-- Picking by position gives the entries of a property only if it picks their positions. -/
theorem picked_eq_filter_iff {α : Type} (xs : List α) (n : ℕ) (keep : ℕ → Bool) (p : α → Bool) :
    ((xs.zipIdx n).filter (fun (_, i) => keep i)).map Prod.fst = xs.filter p ↔
      ∀ i (h : i < xs.length), keep (n + i) = p xs[i] := by
  induction xs generalizing n with
  | nil => simp
  | cons x xs ih =>
    have hsplit : (∀ i (h : i < (x :: xs).length), keep (n + i) = p (x :: xs)[i]) ↔
        keep n = p x ∧ ∀ i (h : i < xs.length), keep (n + 1 + i) = p xs[i] := by
      refine ⟨fun h => ⟨h 0 (by simp), fun i hi => ?_⟩, fun h i hi => ?_⟩
      · have := h (i + 1) (by simpa using hi)
        rwa [show n + (i + 1) = n + 1 + i by omega] at this
      · rcases i with _ | i
        · exact h.1
        · have := h.2 i (by simpa using hi)
          rwa [show n + 1 + i = n + (i + 1) by omega] at this
    rw [hsplit, ← ih (n + 1), List.zipIdx_cons]
    set picked := ((xs.zipIdx (n + 1)).filter (fun (_, i) => keep i)).map Prod.fst with hpicked
    have hsub : picked.Sublist xs := picked_sublist xs (n + 1) keep
    rcases hk : keep n with _ | _ <;> rcases hp : p x with _ | _
    · rw [List.filter_cons_of_neg (by simp [hk]), List.filter_cons_of_neg (by simp [hp])]
      simp [hpicked]
    · -- an entry with the property was left out, so the picked ones are too few
      rw [List.filter_cons_of_neg (by simp [hk]), List.filter_cons_of_pos hp]
      simp only [Bool.false_eq_true, false_and, iff_false]
      intro h
      have hall : picked.filter p = picked := by
        rw [List.filter_eq_self]
        intro y hy
        have hy : y ∈ x :: xs.filter p := h ▸ hy
        rcases List.mem_cons.1 hy with rfl | hy
        · exact hp
        · exact (List.mem_filter.1 hy).2
      have hlen := (hsub.filter p).length_le
      rw [hall, hpicked, h, List.length_cons] at hlen
      omega
    · rw [List.filter_cons_of_pos (by simp [hk]), List.filter_cons_of_neg (by simp [hp])]
      simp only [List.map_cons, Bool.true_eq_false, false_and, iff_false]
      intro h
      have hx : x ∈ xs.filter p := h ▸ List.mem_cons_self
      rw [(List.mem_filter.1 hx).2] at hp
      cases hp
    · rw [List.filter_cons_of_pos (by simp [hk]), List.filter_cons_of_pos hp]
      simp [hpicked]

theorem apply_eq_dropNulls_iff {P : Type} (f : FilterNode V P) (df : Frame V) (c : String) :
    f.apply df = df.dropNulls c ↔
      ∀ i (h : i < df.rows.length), f.keep df i = (cellOf df.columns df.rows[i] c).isSome := by
  have h := picked_eq_filter_iff df.rows 0 (f.keep df) (fun row => (cellOf df.columns row c).isSome)
  simp only [Nat.zero_add] at h
  rw [← h]
  unfold FilterNode.apply Frame.dropNulls
  simp only [Frame.mk.injEq, true_and]

/-- Dropping the nulls in the UDF is sorting the frame without them. -/
theorem buildSort_dropNulls {P : Type} (S : Sorts V) (dtypeOf : String → PolarsDtype)
    {plan : SortPlan P} {s : FusedSort} (hs : plan.fusedSort = some s) (hdrop : s.dropNulls = true)
    (nRows : Option ℕ) (df : Frame V) :
    buildSort S dtypeOf plan nRows df =
      buildSort S dtypeOf plan.keepingFilter nRows (df.dropNulls s.column) := by
  unfold buildSort SortPlan.keepingFilter
  simp only [hs, Option.map_some]
  unfold udfSortFused
  simp only [hdrop, if_true, Bool.false_eq_true, if_false]

/-- Whenever the walker takes a filter out, the filter kept exactly the rows that are not null, and
the UDF on the filter's input returns what it would on the filter's output: so exactly when the
predicate can be viewed, the filter's input does not lower, the sort is no slice of one `Float32`
column, or the predicate is the null test. -/
theorem bypass_sound_iff {P : Type} {node : SortNode} {f : FilterNode V P} :
    (∀ plan s, walkSortOverFilter node f = .ok plan → plan.fusedSort = some s →
        s.dropNulls = true → ∀ df : Frame V, df.Fits node.inSchema →
          f.apply df = df.dropNulls s.column ∧
          ∀ S dtypeOf nRows, buildSort S dtypeOf plan nRows df =
            buildSort S dtypeOf plan.keepingFilter nRows (f.apply df)) ↔
      f.viewable = true ∨ f.input = none ∨ node.slice = none ∨
        ∀ c, node.byColumns = [some c] → node.inSchema = [(c, .float32)] →
          f.IsNullTest c node.inSchema := by
  refine ⟨fun h => ?_, fun h plan s hrun hs hdrop df hdf => ?_⟩
  · by_cases hview : f.viewable = true
    · exact Or.inl hview
    rcases hinput : f.input with _ | p
    · exact Or.inr (Or.inl rfl)
    by_cases hslice : node.slice = none
    · exact Or.inr (Or.inr (Or.inl hslice))
    refine Or.inr (Or.inr (Or.inr (fun c hby hschema df hdf => ?_)))
    set s : FusedSort :=
      ⟨c, node.descending.headD false, node.nullsLast.headD false, node.slice, true⟩ with hs
    obtain ⟨hrun, hfused, hdrop⟩ := (walkSortOverFilter_bypassed_iff (f := f) (s := s)).2
      ⟨p, by simpa using hview, hinput, hby, hschema, hslice, rfl, rfl⟩
    exact (apply_eq_dropNulls_iff f df c).1 (h _ s hrun hfused hdrop df hdf).1
  · obtain ⟨p, hview, hinput, hby, hschema, hslice, -⟩ :=
      walkSortOverFilter_bypassed_iff.1 ⟨hrun, hs, hdrop⟩
    have happly : f.apply df = df.dropNulls s.column := by
      rcases h with h | h | h | h
      · rw [hview] at h
        cases h
      · rw [hinput] at h
        cases h
      · exact absurd h hslice
      · exact (apply_eq_dropNulls_iff f df s.column).2 (h s.column hby hschema df hdf)
    refine ⟨happly, fun S dtypeOf nRows => ?_⟩
    rw [happly]
    exact buildSort_dropNulls S dtypeOf hs hdrop nRows df

/-- The two largest of a column, over a filter that keeps the values above 2 by a function the
traverser cannot view. -/
def aboveTwo : FilterNode ℕ Unit where
  viewable := false
  keep df i := match (df.getColumn "x").getD i none with
    | some v => decide (2 < v)
    | none => false
  lowered := none
  input := some ()

/-- The plan the walker makes, and the one it would make with the filter in place. -/
def topTwoPlan (dropNulls : Bool) : SortPlan Unit :=
  ⟨(), ["x"], [true], [false], some ⟨"x", true, false, some (0, 2), dropNulls⟩⟩

/-- The filter goes, and a row it removed is returned. -/
theorem opaque_filter_is_lost :
    walkSortOverFilter (descendingNode 0 2) aboveTwo = .ok (topTwoPlan true) ∧
      threeValues.Fits (descendingNode 0 2).inSchema ∧
      aboveTwo.apply threeValues ≠ threeValues.dropNulls "x" ∧
      ∀ S : Sorts ℕ, S.Lawful →
        buildSort S (fun _ => .float32) (topTwoPlan true) none threeValues =
            oneColumn "x" [some 3, some 2] ∧
          buildSort S (fun _ => .float32) (topTwoPlan false) none (aboveTwo.apply threeValues) =
            oneColumn "x" [some 3] := by
  refine ⟨rfl, threeValues_fits 0 2, by decide, fun S hS => ?_⟩
  have hmlx : ∀ xs : List ℕ, xs.Pairwise (· ≤ ·) → S.mlx xs = xs := fun xs hxs =>
    List.Perm.eq_of_pairwise (fun _ _ _ _ => le_antisymm) (hS.mlx_sorted xs) hxs (hS.mlx_perm xs)
  have hthree : S.mlx [1, 2, 3] = [1, 2, 3] := hmlx _ (by decide)
  have hone : S.mlx [3] = [3] := hmlx _ (by decide)
  refine ⟨?_, ?_⟩
  · change Frame.mk ["x"] ((takeSorted true (some (0, 2)) (S.mlx [1, 2, 3])).map (fun v => [some v])) = _
    rw [hthree]
    rfl
  · change Frame.mk ["x"] ((takeSorted true (some (0, 2)) (S.mlx [3])).map (fun v => [some v])) = _
    rw [hone]
    rfl

end PolarsMetal.Lowering
