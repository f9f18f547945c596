import PolarsMetal.Fusion.Faithful
import PolarsMetal.Lowering.SelectReduction

/-! A chain on arrays beside the same chain on series. Where no shift moves a row, the array of the
rows that are staged holds the series' values of these rows, node by node. -/

namespace PolarsMetal.Lowering
open Fusion

/-! Series and arrays. -/

section Operands

variable {K : Type}

/-- An array beside a series: where `rows i j` holds, row `i` of the series is row `j` of the array
and is not null. -/
inductive Agrees (rows : ℕ → ℕ → Prop) : Operand (Option K) → Operand K → Prop where
  | scalar (literal : Option PyFloat) (value : K) :
      Agrees rows (.scalar literal (some value)) (.scalar literal value)
  | column {s : ℕ → Option K} {d : ℕ → K} (cells : ∀ i j, rows i j → s i = some (d j)) :
      Agrees rows (.column s) (.column d)

variable {rows : ℕ → ℕ → Prop}

theorem Agrees.isColumn {s : Operand (Option K)} {d : Operand K} (h : Agrees rows s d) :
    s.isColumn = d.isColumn := by
  cases h <;> rfl

theorem Agrees.cell {s : Operand (Option K)} {d : Operand K} (h : Agrees rows s d) {i j : ℕ}
    (hij : rows i j) : s.cell i = some (d.cell j) := by
  cases h with
  | scalar _ _ => rfl
  | column cells => exact cells i j hij

theorem agrees_any {ss : List (Operand (Option K))} {ds : List (Operand K)}
    (h : List.Forall₂ (Agrees rows) ss ds) :
    ss.any Operand.isColumn = ds.any Operand.isColumn := by
  induction h with
  | nil => rfl
  | cons hh _ ih => rw [List.any_cons, List.any_cons, hh.isColumn, ih]

theorem agrees_cells {ss : List (Operand (Option K))} {ds : List (Operand K)}
    (h : List.Forall₂ (Agrees rows) ss ds) {i j : ℕ} (hij : rows i j) :
    ss.map (fun s => s.cell i) = (ds.map (fun d => d.cell j)).map some := by
  induction h with
  | nil => rfl
  | cons hh _ ih => rw [List.map_cons, List.map_cons, List.map_cons, hh.cell hij, ih]

theorem agrees_values {ss : List (Operand (Option K))} {ds : List (Operand K)}
    (h : List.Forall₂ (Agrees rows) ss ds) (hcol : ds.any Operand.isColumn = false) :
    ss.map (fun s => s.cell 0) = (ds.map (fun d => d.cell 0)).map some := by
  induction h with
  | nil => rfl
  | cons hh _ ih =>
    rw [List.any_cons, Bool.or_eq_false_iff] at hcol
    rw [List.map_cons, List.map_cons, List.map_cons, ih hcol.2]
    cases hh with
    | scalar _ _ => rfl
    | column _ => exact (Bool.noConfusion hcol.1)

theorem agrees_headD {ss : List (Operand (Option K))} {ds : List (Operand K)}
    (h : List.Forall₂ (Agrees rows) ss ds) (x : K) :
    Agrees rows (ss.headD (.scalar none (some x))) (ds.headD (.scalar none x)) := by
  cases h with
  | nil => exact .scalar none x
  | cons hh _ => exact hh

/-- A node that is no null where its operands are none. -/
theorem agrees_rowwise {f : List (Option K) → Option K} {g : List K → K}
    {ss : List (Operand (Option K))} {ds : List (Operand K)}
    (hfg : ∀ xs, xs.length = ds.length → f (xs.map some) = some (g xs))
    (h : List.Forall₂ (Agrees rows) ss ds) : Agrees rows (.rowwise f ss) (.rowwise g ds) := by
  unfold Operand.rowwise
  rw [agrees_any h]
  by_cases hcol : ds.any Operand.isColumn = true
  · rw [if_pos hcol, if_pos hcol]
    refine .column (fun i j hij => ?_)
    rw [agrees_cells h hij, hfg _ (List.length_map _)]
  · rw [if_neg hcol, if_neg hcol, agrees_values h (Bool.not_eq_true _ ▸ hcol),
      hfg _ (List.length_map _)]
    exact .scalar _ _

theorem mapM_id_some (xs : List K) : (xs.map some).mapM id = some xs := by
  induction xs with
  | nil => rfl
  | cons x xs ih =>
    rw [List.map_cons, List.mapM_cons, ih]
    rfl

theorem liftRow_some (f : List K → K) (xs : List K) : liftRow f (xs.map some) = some (f xs) := by
  rw [liftRow, mapM_id_some]
  rfl

theorem liftRow_none {f : List K → K} {cells : List (Option K)} (h : none ∈ cells) :
    liftRow f cells = none := by
  unfold liftRow
  induction cells with
  | nil => cases h
  | cons c cells ih =>
    rw [List.mapM_cons]
    rcases List.mem_cons.1 h with h | h
    · rw [← h]
      rfl
    · have hrest := ih h
      rw [Option.map_eq_none_iff] at hrest ⊢
      cases c with
      | none => rfl
      | some x => rw [hrest]; rfl

/-- Operands that are columns make a row-wise node one. -/
theorem rowwise_column {C : Type} {f : List C → C} {args : List (Operand C)} {cell : ℕ → C}
    (h : .column cell ∈ args) :
    Operand.rowwise f args = .column (fun i => f (args.map (fun a => a.cell i))) :=
  if_pos (List.any_eq_true.2 ⟨_, h, rfl⟩)

end Operands

/-! The chain on arrays. -/

section Dense

variable {K : Type} [Field K] [LinearOrder K] (S : RowOps K) (R : Root K) (n : ℕ)

/-- The nodes of a chain on arrays of `n` rows, each by its meaning. -/
def denseInterp : Interp (Operand K) where
  op := denseOp S R n
  lit := fun x => .scalar (some x) (S.lit x)
  object := fun v => .scalar none (S.object v)
  binary := fun op a b => .rowwise (fun xs => S.binary op (xs.headD S.nan) (xs.getD 1 S.nan)) [a, b]
  cast := fun dtype a => .rowwise (fun xs => S.cast dtype (xs.headD S.nan)) [a]
  function := fun data args =>
    match data with
    | .shift =>
      match args with
      | [a, .scalar (some (.finite w)) _] => .along n (fun _ => shiftBy 0 w.num.toNat) S.nan [a]
      | _ => .scalar none S.nan
    | .cumulative c _ => .along n (denseScan S c) S.nan args
    | data => .rowwise (S.function data) args
  agg := fun _ _ => .scalar none S.nan
  ternary := fun p t f => .rowwise (denseWhere S) [p, t, f]
  hidden := .scalar none S.nan

theorem rowwise_congr {C : Type} {f g : List C → C} {args : List (Operand C)}
    (h : ∀ xs, xs.length = args.length → f xs = g xs) :
    Operand.rowwise f args = Operand.rowwise g args := by
  unfold Operand.rowwise
  simp only [h _ (List.length_map _)]

theorem denseOp_plainMap (f : PlainFunction) (args : List (Operand K)) :
    denseOp S R n (plainMap f) none args = .rowwise (S.op (plainMap f) none) args := by
  cases f <;> rfl

theorem denseOp_binopMap {op : Operator} {opId : OpId} (h : binopMap op = some opId)
    (args : List (Operand K)) : denseOp S R n opId none args = .rowwise (S.op opId none) args := by
  cases op <;> cases h <;> rfl

theorem denseOp_exactLogOp {base : PyFloat} {opId : OpId} (h : exactLogOp base = some opId)
    (args : List (Operand K)) : denseOp S R n opId none args = .rowwise (S.op opId none) args := by
  unfold exactLogOp at h
  split_ifs at h <;> cases h <;> rfl

/-- The ops of the scope mean on arrays what the nodes mean, if they do so on numbers. -/
theorem denseInterp_coherent (hS : S.toInterp.Coherent) : (denseInterp S R n).Coherent where
  binary p h a b := by
    simp only [denseInterp, denseOp_binopMap S R n (mem_binaryMeanings.1 h)]
    refine rowwise_congr (fun xs hxs => ?_)
    obtain ⟨x, y, rfl⟩ := List.length_eq_two.1 hxs
    exact hS.binary p h x y
  castF32 a := by
    simp only [denseInterp, denseOp]
    refine rowwise_congr (fun xs hxs => ?_)
    obtain ⟨x, rfl⟩ := List.length_eq_one_iff.1 hxs
    exact hS.castF32 x
  plain p h args := by
    refine Eq.trans (rowwise_congr (fun xs _ => hS.plain p h xs)) ?_
    rw [← mem_plainMeanings.1 h]
    exact (denseOp_plainMap S R n p.1 args).symm
  round args := rowwise_congr (fun xs _ => hS.round xs)
  cumulative p h args := by
    obtain ⟨c, opId⟩ := p
    obtain rfl := mem_cumulativeMeanings.1 h
    cases c <;> rfl
  pow args := rowwise_congr (fun xs _ => hS.pow xs)
  log a base opId h := by
    refine Eq.trans ?_ (denseOp_exactLogOp S R n h [a]).symm
    cases a with
    | scalar literal x => exact congrArg (Operand.scalar none) (hS.log x base opId h)
    | column cell => exact congrArg Operand.column (funext (fun i => hS.log (cell i) base opId h))
  shift a w := by
    simp only [denseInterp, denseOp, Rat.num_natCast, Option.getD_some]
  ternary p t f := rfl

end Dense

/-! The chain, node by node. -/

mutual

/-- No shift of the tree moves a row. -/
def Unshifted (nt : NodeTraverser) : IRExpr → Prop
  | .leaf _ => True
  | .binary _ left right => Unshifted nt left ∧ Unshifted nt right
  | .cast _ e => Unshifted nt e
  | .function .shift input => shiftOffset nt input = .ok 0 ∧ UnshiftedAll nt input
  | .function _ input => UnshiftedAll nt input
  | .agg _ arguments => UnshiftedAll nt arguments
  | .ternary p t f => Unshifted nt p ∧ Unshifted nt t ∧ Unshifted nt f
  | .hidden => True

def UnshiftedAll (nt : NodeTraverser) : List IRExpr → Prop
  | [] => True
  | e :: es => Unshifted nt e ∧ UnshiftedAll nt es

end

mutual

/-- The tree as the traverser shows it: the names of aggregates are lower case. -/
def Traversed : IRExpr → Prop
  | .leaf _ => True
  | .binary _ left right => Traversed left ∧ Traversed right
  | .cast _ e => Traversed e
  | .function _ input => TraversedAll input
  | .agg name arguments => name.toLower = name ∧ TraversedAll arguments
  | .ternary p t f => Traversed p ∧ Traversed t ∧ Traversed f
  | .hidden => True

def TraversedAll : List IRExpr → Prop
  | [] => True
  | e :: es => Traversed e ∧ TraversedAll es

end

/-- The analyzer's table of aggregates has capitals. -/
theorem aggMap_of_lower {name : String} (h : name.toLower = name) : aggMap name = none := by
  unfold aggMap
  split <;> first | exact absurd h (by decide +kernel) | rfl

theorem unshifted_function {data : IRFunction} (h : data ≠ .shift) {nt : NodeTraverser}
    {input : List IRExpr} : Unshifted nt (.function data input) ↔ UnshiftedAll nt input := by
  cases data <;> first
    | exact absurd rfl h
    | exact Iff.rfl

theorem faithful_input {data : IRFunction} (h₁ : data ≠ .shift) (h₂ : data ≠ .log)
    {nt : NodeTraverser} {lits : List PyFloat} {input : List IRExpr}
    (h : Faithful nt lits (.function data input)) : FaithfulAll nt lits input := by
  cases data with
  | round _ _ => exact h.2
  | log => exact absurd rfl h₂
  | shift => exact absurd rfl h₁
  | plain _ => exact h
  | cumulative _ _ => exact h
  | pow => exact h
  | other _ => exact h

theorem admitted_input {data : IRFunction} (h₁ : data ≠ .shift) (h₂ : data ≠ .log)
    {nt : NodeTraverser} {input : List IRExpr} (h : Admitted nt (.function data input)) :
    isReverseCumulative data = false ∧ AdmittedAll nt input := by
  by_cases hpow : data = .pow
  · subst hpow
    exact ⟨rfl, h⟩
  · rw [admitted_function h₁ h₂ hpow] at h
    exact ⟨h.1.2, h.2⟩

theorem classifyNullIr_binary {nt : NodeTraverser} {op : Operator} {left right : IRExpr}
    (h : classifyNullIr nt (.binary op left right) = some false) :
    (op ≠ .and ∧ op ≠ .or) ∧ classifyNullIr nt left = some false ∧
      classifyNullIr nt right = some false := by
  rw [classifyNullIr] at h
  split at h
  · cases h
  · cases h
  · cases h
  · rename_i h₁ h₂ h₃
    refine ⟨⟨fun hop => h₂ (by rw [hop]; rfl), fun hop => h₃ (by rw [hop]; rfl)⟩, ?_⟩
    rcases hl : classifyNullIr nt left with _ | l <;> rcases hr : classifyNullIr nt right with _ | r <;>
      simp [hl, hr] at h
    simp [h]

theorem classifyNullIr_cast {nt : NodeTraverser} {dtype : PolarsDtype} {e : IRExpr}
    (h : classifyNullIr nt (.cast dtype e) = some false) : classifyNullIr nt e = some false := by
  rw [classifyNullIr] at h
  split_ifs at h
  exact h

theorem classifyNullIr_shift {nt : NodeTraverser} {input : List IRExpr} :
    classifyNullIr nt (.function .shift input) ≠ some false := by
  intro h
  rw [classifyNullIr] at h
  split at h
  · rcases hf : classifyNullFirst nt input with _ | b <;> simp [hf] at h
  · cases h

theorem classifyNullIr_ternary {nt : NodeTraverser} {p t f : IRExpr} :
    classifyNullIr nt (.ternary p t f) ≠ some false := by
  intro h
  rw [classifyNullIr] at h
  split_ifs at h
  rcases ht : classifyNullIr nt t with _ | b <;> rcases hf : classifyNullIr nt f with _ | c <;>
    simp [ht, hf] at h

theorem classifyNullIr_function {nt : NodeTraverser} {data : IRFunction} {input : List IRExpr}
    (h : classifyNullIr nt (.function data input) = some false) :
    classifyNullAll nt input = some false := by
  by_cases hshift : data = .shift
  · subst hshift
    exact absurd h classifyNullIr_shift
  cases data with
  | plain f => exact h
  | round _ _ => exact h
  | cumulative _ _ => cases h
  | pow => exact h
  | log => exact h
  | shift => exact absurd rfl hshift
  | other _ => cases h

theorem classifyNullAll_cons {nt : NodeTraverser} {e : IRExpr} {es : List IRExpr}
    (h : classifyNullAll nt (e :: es) = some false) :
    classifyNullIr nt e = some false ∧ classifyNullAll nt es = some false := by
  rw [classifyNullAll] at h
  rcases he : classifyNullIr nt e with _ | b <;> rcases hes : classifyNullAll nt es with _ | c <;>
    simp [he, hes] at h
  simp [h]

section Cells

variable {K : Type} {S : RowOps K}

theorem seriesBinary_some (op : Operator) (xs : List K) :
    seriesBinary S op (xs.map some) = some (S.binary op (xs.headD S.nan) (xs.getD 1 S.nan)) := by
  have hnone : none ∉ xs.map some := by simp
  unfold seriesBinary
  split
  · rename_i hcells
    exact absurd (hcells ▸ by simp) hnone
  · rename_i hcells
    exact absurd (hcells ▸ by simp) hnone
  · rename_i hcells
    exact absurd (hcells ▸ by simp) hnone
  · rename_i hcells
    exact absurd (hcells ▸ by simp) hnone
  · exact liftRow_some _ xs

theorem seriesBinary_none {op : Operator} (h : op ≠ .and ∧ op ≠ .or) {cells : List (Option K)}
    (hnone : none ∈ cells) : seriesBinary S op cells = none := by
  unfold seriesBinary
  split
  · exact absurd rfl h.1
  · exact absurd rfl h.1
  · exact absurd rfl h.2
  · exact absurd rfl h.2
  · exact liftRow_none hnone

theorem seriesWhere_some {xs : List K} (h : xs.length = 3) :
    seriesWhere S (xs.map some) = some (denseWhere S xs) := by
  obtain ⟨p, t, f, rfl⟩ := List.length_eq_three.1 h
  simp only [seriesWhere, denseWhere, List.map_cons, List.map_nil]
  split_ifs <;> rfl

end Cells

section Chain

variable {K : Type} [Field K] [LinearOrder K] {S : RowOps K} {R : Root K}

theorem scanLast_range (c : Cumulative) (i : ℕ) (cell : ℕ → K) :
    (scanLast c ((List.range (i + 1)).map cell)).isSome := by
  rw [List.range_succ_eq_map]
  rfl

/-- The rows of a frame without nulls, staged whole. -/
def AllRows (n : ℕ) (rows : ℕ → ℕ → Prop) : Prop := ∀ i j, rows i j ↔ i = j ∧ i < n

omit [Field K] [LinearOrder K] in
/-- A function of a column that is right on the rows staged. -/
theorem agrees_along {n m : ℕ} {f : ℕ → (ℕ → Option K) → ℕ → Option K} {g : ℕ → (ℕ → K) → ℕ → K}
    {rows : ℕ → ℕ → Prop} {ss : List (Operand (Option K))} {ds : List (Operand K)} (fill : K)
    (hcolumn : ∀ s d, (∀ i j, rows i j → s i = some (d j)) →
      ∀ i j, rows i j → f n s i = some (g m d j))
    (hscalar : ∀ s d, (∀ i, s i = some (d i)) → f 1 s 0 = some (g 1 d 0))
    (h : List.Forall₂ (Agrees rows) ss ds) :
    Agrees rows (.along n f (some fill) ss) (.along m g fill ds) := by
  have hhead := agrees_headD h fill
  unfold Operand.along
  simp only [agrees_any h]
  by_cases hcol : ds.any Operand.isColumn = true
  · rw [if_pos hcol, if_pos hcol]
    exact .column (hcolumn _ _ (fun i j hij => hhead.cell hij))
  · rw [if_neg hcol, if_neg hcol]
    have hfirst : ∀ i, (ss.headD (.scalar none (some fill))).cell i =
        some ((ds.headD (.scalar none fill)).cell i) := by
      cases h with
      | nil => exact fun _ => rfl
      | cons hh _ =>
        rw [List.any_cons, Bool.or_eq_true, not_or] at hcol
        cases hh with
        | scalar _ _ => exact fun _ => rfl
        | column _ => exact absurd rfl hcol.1
    rw [hscalar _ _ hfirst]
    exact .scalar none _

theorem seriesScan_some {c : Cumulative} {m : ℕ} {s : ℕ → Option K} {d : ℕ → K} {i : ℕ} (n : ℕ)
    (h : ∀ k ≤ i, s k = some (d k)) : seriesScan c false n s i = some (denseScan S c m d i) := by
  have hprefix : (List.range (i + 1)).filterMap s = (List.range (i + 1)).map d := by
    rw [← List.filterMap_eq_map]
    refine List.filterMap_congr (fun k hk => ?_)
    exact h k (Nat.lt_succ_iff.1 (List.mem_range.1 hk))
  obtain ⟨last, hlast⟩ := Option.isSome_iff_exists.1 (scanLast_range c i d)
  simp only [seriesScan, h i le_rfl, denseScan, hprefix, hlast, Bool.false_eq_true, if_false,
    Option.getD_some]

theorem agrees_scan {n m : ℕ} {rows : ℕ → ℕ → Prop} (hrows : AllRows n rows) (c : Cumulative)
    {ss : List (Operand (Option K))} {ds : List (Operand K)} (h : List.Forall₂ (Agrees rows) ss ds) :
    Agrees rows (.along n (seriesScan c false) (some S.nan) ss)
      (.along m (denseScan S c) S.nan ds) := by
  refine agrees_along S.nan (fun s d hsd i j hij => ?_)
    (fun s d hsd => seriesScan_some 1 (fun k _ => hsd k)) h
  obtain ⟨rfl, hi⟩ := (hrows i j).1 hij
  exact seriesScan_some n (fun k hk => hsd k k ((hrows k k).2 ⟨rfl, by omega⟩))

theorem seriesInterp_shift {n : ℕ} (a : Operand (Option K)) (w : ℕ) :
    (seriesInterp S R n).function .shift [a, (seriesInterp S R n).literal (.int w)] =
      .along n (fun _ => shiftBy none w) (some S.nan) [a] := by
  simp [seriesInterp, Interp.literal, LitValue.exact]

theorem denseInterp_shift {n : ℕ} (a : Operand K) (w : ℕ) :
    (denseInterp S R n).function .shift [a, (denseInterp S R n).literal (.int w)] =
      .along n (fun _ => shiftBy 0 w) S.nan [a] := by
  simp [denseInterp, Interp.literal, LitValue.exact]

theorem seriesInterp_function {data : IRFunction} (h : data ≠ .shift) (hcum : isCumulative data = false)
    {n : ℕ} (args : List (Operand (Option K))) :
    (seriesInterp S R n).function data args = .rowwise (liftRow (S.function data)) args := by
  cases data <;> first
    | exact absurd rfl h
    | exact Bool.noConfusion hcum
    | rfl

theorem denseInterp_function {data : IRFunction} (h : data ≠ .shift) (hcum : isCumulative data = false)
    {n : ℕ} (args : List (Operand K)) :
    (denseInterp S R n).function data args = .rowwise (S.function data) args := by
  cases data <;> first
    | exact absurd rfl h
    | exact Bool.noConfusion hcum
    | rfl

variable {n m : ℕ} {rows : ℕ → ℕ → Prop} {senv : String → Operand (Option K)}
  {denv : String → Operand K} {nt : NodeTraverser} {lits : List PyFloat}

/-- The columns of some leaves agree. -/
def EnvAgrees (rows : ℕ → ℕ → Prop) (senv : String → Operand (Option K)) (denv : String → Operand K)
    (nt : NodeTraverser) (ids : List ℕ) : Prop :=
  ∀ id ∈ ids, ∀ c, nt id = .column c → Agrees rows (senv c) (denv c)

theorem literal_agrees (v : LitValue) :
    Agrees rows ((seriesInterp S R n).literal v) ((denseInterp S R m).literal v) := by
  unfold Interp.literal
  rcases v.exact with _ | x
  · exact .scalar none _
  · exact .scalar (some x) _

mutual

/-- Node by node the arrays agree with the series: a scan needs all rows, the other nodes are
row-wise. -/
theorem tree_agrees (e : IRExpr) (ha : Admitted nt e) (hf : Faithful nt lits e) (hu : Unshifted nt e)
    (hmode : AllRows n rows ∨ classifyNullIr nt e = some false)
    (henv : EnvAgrees rows senv denv nt (leafIds e)) :
    Agrees rows (evalTree (seriesInterp S R n) senv nt e) (evalTree (denseInterp S R m) denv nt e) := by
  match e with
  | .leaf id =>
    rw [evalTree, evalTree]
    rcases hid : nt id with c | v
    · exact henv id (by simp [leafIds]) c hid
    · exact literal_agrees v
  | .binary op left right =>
    rw [leafIds] at henv
    have hl := tree_agrees left ha.2.1 hf.1 hu.1
      (hmode.imp_right (fun h => (classifyNullIr_binary h).2.1))
      (fun id hid => henv id (List.mem_append_left _ hid))
    have hr := tree_agrees right ha.2.2 hf.2 hu.2
      (hmode.imp_right (fun h => (classifyNullIr_binary h).2.2))
      (fun id hid => henv id (List.mem_append_right _ hid))
    rw [evalTree, evalTree]
    exact agrees_rowwise (fun xs _ => seriesBinary_some op xs) (.cons hl (.cons hr .nil))
  | .cast dtype e =>
    have he := tree_agrees e ha.2 hf hu (hmode.imp_right classifyNullIr_cast) henv
    rw [evalTree, evalTree]
    exact agrees_rowwise (fun xs _ => liftRow_some _ xs) (.cons he .nil)
  | .function data input =>
    by_cases hshift : data = .shift
    · subst hshift
      obtain ⟨s, d, hs, hd, hfirst⟩ := first_agrees input ha.2 hf hu.2
        (Or.inl (hmode.resolve_right classifyNullIr_shift)) henv
      obtain ⟨e, id, rfl, hid⟩ := exists_of_shiftOffset hu.1
      obtain rfl := Option.some.inj hs
      obtain rfl := Option.some.inj hd
      simp only [evalTree, evalTrees, evalLeaf, hid, seriesInterp_shift, denseInterp_shift]
      exact agrees_along S.nan (fun s d hsd => hsd) (fun s d hsd => hsd 0) (.cons hfirst .nil)
    rw [leafIds_function hshift] at henv
    by_cases hlog : data = .log
    · subst hlog
      obtain ⟨⟨opId, hop⟩, ha⟩ := ha
      obtain ⟨s, d, hs, hd, hfirst⟩ := first_agrees input ha hf.2 hu
        (hmode.imp_right classifyNullIr_function)
        (fun id hid => henv id (firstLeafIds_subset input hid))
      obtain ⟨e, id, v, rfl, hid, -⟩ := exists_of_logOp hop
      obtain rfl := Option.some.inj hs
      obtain rfl := Option.some.inj hd
      simp only [evalTree, evalTrees, evalLeaf, hid]
      rw [seriesInterp_function (by decide) rfl, denseInterp_function (by decide) rfl]
      exact agrees_rowwise (fun xs _ => liftRow_some _ xs)
        (.cons hfirst (.cons (literal_agrees v) .nil))
    obtain ⟨hrev, ha⟩ := admitted_input hshift hlog ha
    rw [unshifted_function hshift] at hu
    have htrees := trees_agree input ha (faithful_input hshift hlog hf) hu
      (hmode.imp_right classifyNullIr_function) henv
    rw [evalTree, evalTree]
    by_cases hcum : isCumulative data = true
    · cases data with
      | cumulative c reverse =>
        obtain rfl : reverse = false := hrev
        have hrows := hmode.resolve_right (fun h => (nomatch h))
        exact agrees_scan hrows c htrees
      | _ => cases hcum
    · have hcum := Bool.not_eq_true _ ▸ hcum
      rw [seriesInterp_function hshift hcum, denseInterp_function hshift hcum]
      exact agrees_rowwise (fun xs _ => liftRow_some _ xs) htrees
  | .agg _ _ => exact hf.elim
  | .ternary p t f =>
    rw [leafIds] at henv
    have hrows := Or.inl (b := False) (hmode.resolve_right classifyNullIr_ternary)
    have hp := tree_agrees p ha.1 hf.1 hu.1 (hrows.imp_right False.elim)
      (fun id hid => henv id (List.mem_append_left _ hid))
    have ht := tree_agrees t ha.2.1 hf.2.1 hu.2.1 (hrows.imp_right False.elim)
      (fun id hid => henv id (List.mem_append_right _ (List.mem_append_left _ hid)))
    have hf := tree_agrees f ha.2.2 hf.2.2 hu.2.2 (hrows.imp_right False.elim)
      (fun id hid => henv id (List.mem_append_right _ (List.mem_append_right _ hid)))
    rw [evalTree, evalTree]
    exact agrees_rowwise (fun xs hxs => seriesWhere_some hxs) (.cons hp (.cons ht (.cons hf .nil)))
  | .hidden => exact hf.elim

theorem first_agrees (es : List IRExpr) (ha : AdmittedFirst nt es) (hf : FaithfulFirst nt lits es)
    (hu : UnshiftedAll nt es) (hmode : AllRows n rows ∨ classifyNullAll nt es = some false)
    (henv : EnvAgrees rows senv denv nt (firstLeafIds es)) :
    ∃ s d, (evalTrees (seriesInterp S R n) senv nt es).head? = some s ∧
      (evalTrees (denseInterp S R m) denv nt es).head? = some d ∧ Agrees rows s d := by
  match es with
  | [] => exact ha.elim
  | e :: _ =>
    exact ⟨_, _, rfl, rfl,
      tree_agrees e ha hf hu.1 (hmode.imp_right (fun h => (classifyNullAll_cons h).1)) henv⟩

theorem trees_agree (es : List IRExpr) (ha : AdmittedAll nt es) (hf : FaithfulAll nt lits es)
    (hu : UnshiftedAll nt es) (hmode : AllRows n rows ∨ classifyNullAll nt es = some false)
    (henv : EnvAgrees rows senv denv nt (allLeafIds es)) :
    List.Forall₂ (Agrees rows) (evalTrees (seriesInterp S R n) senv nt es)
      (evalTrees (denseInterp S R m) denv nt es) := by
  match es with
  | [] => exact .nil
  | e :: es =>
    rw [allLeafIds] at henv
    exact .cons
      (tree_agrees e ha.1 hf.1 hu.1 (hmode.imp_right (fun h => (classifyNullAll_cons h).1))
        (fun id hid => henv id (List.mem_append_left _ hid)))
      (trees_agree es ha.2 hf.2 hu.2 (hmode.imp_right (fun h => (classifyNullAll_cons h).2))
        (fun id hid => henv id (List.mem_append_right _ hid)))

end

/-- A chain that reads a column is one, and null where it is, if the chain is row-wise. -/
def ReadsInto (cells : ℕ → Option K) (elementwise : Prop) (s : Operand (Option K)) : Prop :=
  ∃ t, s = .column t ∧ (elementwise → ∀ i, cells i = none → t i = none)

/-- The leaves name the column. -/
def NamesColumn (nt : NodeTraverser) (c : String) (ids : List ℕ) : Prop := ∃ id ∈ ids, nt id = .column c

theorem namesColumn_append {c : String} {xs ys : List ℕ} :
    NamesColumn nt c (xs ++ ys) ↔ NamesColumn nt c xs ∨ NamesColumn nt c ys := by
  simp only [NamesColumn, List.mem_append, or_and_right, exists_or]

omit [Field K] [LinearOrder K] in
theorem ReadsInto.rowwise {cells : ℕ → Option K} {P Q : Prop} {s : Operand (Option K)}
    {args : List (Operand (Option K))} {f : List (Option K) → Option K} (hs : ReadsInto cells P s)
    (hmem : s ∈ args) (hQ : Q → P) (hf : Q → ∀ xs, none ∈ xs → f xs = none) :
    ReadsInto cells Q (.rowwise f args) := by
  obtain ⟨t, rfl, ht⟩ := hs
  refine ⟨_, rowwise_column hmem, fun q i hi => hf q _ ?_⟩
  exact List.mem_map.2 ⟨_, hmem, ht (hQ q) i hi⟩

omit [Field K] [LinearOrder K] in
theorem ReadsInto.along {cells : ℕ → Option K} {P Q : Prop} {s : Operand (Option K)}
    {args : List (Operand (Option K))} (hs : ReadsInto cells P s) (hmem : s ∈ args) (hQ : ¬Q)
    (f : ℕ → (ℕ → Option K) → ℕ → Option K) (fill : Option K) :
    ReadsInto cells Q (.along n f fill args) := by
  obtain ⟨t, rfl, -⟩ := hs
  exact ⟨_, if_pos (List.any_eq_true.2 ⟨_, hmem, rfl⟩), fun q => absurd q hQ⟩

mutual

theorem tree_reads {c : String} {cells : ℕ → Option K} (hc : senv c = .column cells) (e : IRExpr)
    (ha : Admitted nt e) (ht : Traversed e) (hread : NamesColumn nt c (leafIds e)) :
    ReadsInto cells (classifyNullIr nt e = some false)
      (evalTree (seriesInterp S R n) senv nt e) := by
  match e with
  | .leaf id =>
    obtain ⟨id', hid', hcol⟩ := hread
    rw [leafIds, List.mem_singleton] at hid'
    subst hid'
    rw [evalTree, hcol]
    exact ⟨cells, hc, fun _ i hi => hi⟩
  | .binary op left right =>
    rw [leafIds, namesColumn_append] at hread
    rw [evalTree]
    rcases hread with hread | hread
    · exact (tree_reads hc left ha.2.1 ht.1 hread).rowwise (by simp)
        (fun h => (classifyNullIr_binary h).2.1)
        (fun h xs hxs => seriesBinary_none (classifyNullIr_binary h).1 hxs)
    · exact (tree_reads hc right ha.2.2 ht.2 hread).rowwise (by simp)
        (fun h => (classifyNullIr_binary h).2.2)
        (fun h xs hxs => seriesBinary_none (classifyNullIr_binary h).1 hxs)
  | .cast dtype e =>
    rw [evalTree]
    exact (tree_reads hc e ha.2 ht hread).rowwise (by simp) classifyNullIr_cast
      (fun _ xs hxs => liftRow_none hxs)
  | .function data input =>
    by_cases hshift : data = .shift
    · subst hshift
      obtain ⟨⟨w, hw⟩, ha⟩ := ha
      obtain ⟨s, hs, hfirst⟩ := first_reads hc input ha ht hread
      obtain ⟨e, id, rfl, hid⟩ := exists_of_shiftOffset hw
      obtain rfl := Option.some.inj hs
      simp only [evalTree, evalTrees, evalLeaf, hid, seriesInterp_shift]
      exact hfirst.along List.mem_cons_self classifyNullIr_shift _ _
    rw [leafIds_function hshift] at hread
    by_cases hlog : data = .log
    · subst hlog
      obtain ⟨⟨opId, hop⟩, ha⟩ := ha
      obtain ⟨e, id, v, hinput, hid, -⟩ := exists_of_logOp hop
      -- the base is a literal
      have hfirst : NamesColumn nt c (firstLeafIds input) := by
        obtain ⟨id', hid', hcol⟩ := hread
        subst hinput
        simp only [allLeafIds, leafIds, List.mem_append, List.mem_singleton, List.not_mem_nil,
          or_false] at hid'
        rcases hid' with hid' | rfl
        · exact ⟨id', hid', hcol⟩
        · rw [hid] at hcol
          cases hcol
      obtain ⟨s, hs, hfirst⟩ := first_reads hc input ha ht hfirst
      rw [evalTree, seriesInterp_function (by decide) rfl]
      exact hfirst.rowwise (List.mem_of_mem_head? hs) classifyNullIr_function
        (fun _ xs hxs => liftRow_none hxs)
    obtain ⟨-, ha⟩ := admitted_input hshift hlog ha
    obtain ⟨s, hs, hread⟩ := trees_read hc input ha ht hread
    rw [evalTree]
    by_cases hcum : isCumulative data = true
    · cases data with
      | cumulative c reverse =>
        exact hread.along hs (fun h => (nomatch h)) _ _
      | _ => cases hcum
    · rw [seriesInterp_function hshift (Bool.not_eq_true _ ▸ hcum)]
      exact hread.rowwise hs classifyNullIr_function (fun _ xs hxs => liftRow_none hxs)
  | .agg name _ =>
    have hnone := aggMap_of_lower ht.1
    exact absurd ha.1 (by simp [hnone])
  | .ternary p t f =>
    rw [leafIds, namesColumn_append, namesColumn_append] at hread
    rw [evalTree]
    rcases hread with hread | hread | hread
    · exact (tree_reads hc p ha.1 ht.1 hread).rowwise (by simp)
        (fun h => absurd h classifyNullIr_ternary) (fun h => absurd h classifyNullIr_ternary)
    · exact (tree_reads hc t ha.2.1 ht.2.1 hread).rowwise (by simp)
        (fun h => absurd h classifyNullIr_ternary) (fun h => absurd h classifyNullIr_ternary)
    · exact (tree_reads hc f ha.2.2 ht.2.2 hread).rowwise (by simp)
        (fun h => absurd h classifyNullIr_ternary) (fun h => absurd h classifyNullIr_ternary)
  | .hidden => exact ha.elim

theorem first_reads {c : String} {cells : ℕ → Option K} (hc : senv c = .column cells)
    (es : List IRExpr) (ha : AdmittedFirst nt es) (ht : TraversedAll es)
    (hread : NamesColumn nt c (firstLeafIds es)) :
    ∃ s, (evalTrees (seriesInterp S R n) senv nt es).head? = some s ∧
      ReadsInto cells (classifyNullAll nt es = some false) s := by
  match es with
  | [] => exact ha.elim
  | e :: _ =>
    obtain ⟨t, hs, hnull⟩ := tree_reads hc e ha ht.1 hread
    exact ⟨_, rfl, t, hs, fun h => hnull (classifyNullAll_cons h).1⟩

theorem trees_read {c : String} {cells : ℕ → Option K} (hc : senv c = .column cells)
    (es : List IRExpr) (ha : AdmittedAll nt es) (ht : TraversedAll es)
    (hread : NamesColumn nt c (allLeafIds es)) :
    ∃ s, s ∈ evalTrees (seriesInterp S R n) senv nt es ∧
      ReadsInto cells (classifyNullAll nt es = some false) s := by
  match es with
  | [] =>
    obtain ⟨_, hid, -⟩ := hread
    cases hid
  | e :: es =>
    rw [allLeafIds, namesColumn_append] at hread
    rcases hread with hread | hread
    · obtain ⟨t, hs, hnull⟩ := tree_reads hc e ha.1 ht.1 hread
      exact ⟨_, List.mem_cons_self, t, hs, fun h => hnull (classifyNullAll_cons h).1⟩
    · obtain ⟨s, hmem, t, hs, hnull⟩ := trees_read hc es ha.2 ht.2 hread
      exact ⟨s, List.mem_cons_of_mem _ hmem, t, hs, fun h => hnull (classifyNullAll_cons h).2⟩

end

end Chain

end PolarsMetal.Lowering
