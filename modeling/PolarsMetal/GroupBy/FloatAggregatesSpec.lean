import PolarsMetal.GroupBy.FloatAggregates
import PolarsMetal.Lib.ExactSum
import PolarsMetal.Lib.Ieee

/-! What the single-precision kernels gather. Every valid row of a group enters its cell once, on
either kernel, however the lanes are brought together and the swaps fall; a minimum, a maximum and an
exact sum do not depend on how. -/

namespace PolarsMetal.GroupBy
open Bitmap CasLoop ExactSum Reduce Reads

/-- The kernel may have brought these words together to this one, each of them once. -/
inductive Gathered (k : F32Kernel) : List Word → Word → Prop
  | seed : Gathered k [] k.initBits
  | value (v : Word) : Gathered k [v] v
  | combine {xs ys : List Word} {a b : Word} (ha : Gathered k xs a) (hb : Gathered k ys b) :
    Gathered k (xs ++ ys) (k.combine a b)
  | swap {xs ys : List Word} {a b : Word} (ha : Gathered k xs a) (hb : Gathered k ys b) :
    Gathered k (xs ++ ys) ((k.swapIn b a).getD a)
  | skip {xs ys : List Word} {a b : Word} (ha : Gathered k xs a) (hb : Gathered k ys b)
    (hskip : k.skips b = true) : Gathered k (xs ++ ys) a
  | perm {xs ys : List Word} {a : Word} (h : xs.Perm ys) (ha : Gathered k xs a) : Gathered k ys a

/-- The words of a group's valid rows, of these rows. -/
def gather (inp : AggInput) (g : ℕ) (rows : List ℕ) : List Word :=
  (rows.filter fun row => bitAt inp.valid row ≠ 0 ∧ inp.rowToGroup.getD row 0 = g).map
    (inp.values.getD · 0)

section Gather

variable {k : F32Kernel} {inp : AggInput} {g : ℕ}

theorem gather_append (rows rows' : List ℕ) :
    gather inp g (rows ++ rows') = gather inp g rows ++ gather inp g rows' := by
  unfold gather
  rw [List.filter_append, List.map_append]

theorem gather_flatMap {β : Type*} (parts : List β) (f : β → List ℕ) :
    gather inp g (parts.flatMap f) = parts.flatMap fun p => gather inp g (f p) := by
  induction parts with
  | nil => rfl
  | cons p parts ih => rw [List.flatMap_cons, gather_append, ih, List.flatMap_cons]

theorem gather_perm {rows rows' : List ℕ} (h : rows.Perm rows') :
    (gather inp g rows).Perm (gather inp g rows') := (h.filter _).map _

theorem gather_single {row : ℕ} : gather inp g [row] =
    if bitAt inp.valid row ≠ 0 ∧ inp.rowToGroup.getD row 0 = g then [inp.values.getD row 0]
    else [] := by
  unfold gather
  by_cases h : bitAt inp.valid row ≠ 0 ∧ inp.rowToGroup.getD row 0 = g
  · rw [if_pos h, List.filter_cons_of_pos (by simpa using h)]
    rfl
  · rw [if_neg h, List.filter_cons_of_neg (by simpa using h)]
    rfl

/-! Swaps. -/

/-- An update that swaps a gathered word into a cell. -/
def Swaps (k : F32Kernel) (u : Update Word) (tag : ℕ × List Word) : Prop :=
  u.cell = tag.1 ∧ ∃ b, u.next = k.swapIn b ∧ Gathered k tag.2 b

theorem foldl_gathered {trace : List (Update Word)} {tags : List (ℕ × List Word)}
    (h : List.Forall₂ (Swaps k) trace tags) {mem : ℕ → Word} {xs : List Word}
    (hmem : Gathered k xs (mem g)) :
    Gathered k (xs ++ (valuesAt g tags).flatten) (trace.foldl Update.apply mem g) := by
  induction h generalizing mem xs with
  | nil =>
    rw [show valuesAt g ([] : List (ℕ × List Word)) = [] from rfl, List.flatten_nil,
      List.append_nil]
    exact hmem
  | @cons u tag trace tags hswap _ ih =>
    obtain ⟨hcell, b, hnext, hb⟩ := hswap
    rw [List.foldl_cons, valuesAt_cons]
    split_ifs with hg
    · rw [List.flatten_cons, ← List.append_assoc]
      refine ih ?_
      have hself : u.cell = g := hcell.trans hg
      rw [← hself, Update.apply_self, hnext, hself]
      exact hmem.swap hb
    · refine ih ?_
      rwa [Update.apply_of_ne mem (by omega : g ≠ u.cell)]

/-- What a finished run of such updates leaves in a cell. -/
theorem exec_gathered {ops : ℕ → List (Update Word)} {n : ℕ} {mem : ℕ → Word} {turns : List Turn}
    (hidle : ∀ t, n ≤ t → ops t = []) (hdone : Done ops n (exec ops mem turns))
    {tags : ℕ → List (ℕ × List Word)} (htags : ∀ t < n, List.Forall₂ (Swaps k) (ops t) (tags t))
    (hmem : mem g = k.initBits) :
    Gathered k ((List.range n).flatMap fun t => (valuesAt g (tags t)).flatten)
      ((exec ops mem turns).mem g) := by
  obtain ⟨trace, hfinal, hperm⟩ := exec_eq_foldl hidle hdone
  have hall : List.Forall₂ (Swaps k) ((List.range n).flatMap ops) ((List.range n).flatMap tags) := by
    refine List.rel_flatMap (R := fun t u => t = u ∧ t < n)
      (List.forall₂_same.2 fun t ht => ⟨rfl, List.mem_range.1 ht⟩) fun t u htu => ?_
    obtain ⟨rfl, ht⟩ := htu
    exact htags t ht
  obtain ⟨tags', htrace, hperm'⟩ := List.perm_comp_forall₂ hperm hall
  have hgather := foldl_gathered htrace (hmem ▸ Gathered.seed : Gathered k [] (mem g))
  rw [List.nil_append, ← hfinal] at hgather
  refine hgather.perm (((valuesAt_perm hperm' g).flatten).trans (List.Perm.of_eq ?_))
  rw [valuesAt_flatMap, List.flatten_eq_flatMap, List.flatMap_assoc]
  exact List.flatMap_congr fun t _ => List.flatten_eq_flatMap.symm

/-! The kernel of a thread for each row. -/

theorem perRow_gathered {turns : List Turn}
    (hdone : Done (k.perRow inp) inp.nRows (exec (k.perRow inp) (fun _ => k.initBits) turns)) :
    Gathered k (gather inp g (List.range inp.nRows))
      ((exec (k.perRow inp) (fun _ => k.initBits) turns).mem g) := by
  let tags : ℕ → List (ℕ × List Word) := fun gid =>
    if bitAt inp.valid gid = 0 then [] else [(inp.rowToGroup.getD gid 0, [inp.values.getD gid 0])]
  have htags : ∀ gid < inp.nRows, List.Forall₂ (Swaps k) (k.perRow inp gid) (tags gid) := by
    intro gid hgid
    unfold F32Kernel.perRow
    rw [if_neg (Nat.not_le.2 hgid)]
    show List.Forall₂ (Swaps k) _ (if _ then _ else _)
    split_ifs with hvalid
    · exact .nil
    · exact .cons ⟨rfl, _, rfl, .value _⟩ .nil
  have hgather := exec_gathered (g := g) (fun gid hgid => if_pos hgid) hdone htags rfl
  refine hgather.perm (List.Perm.of_eq ?_)
  rw [← List.flatMap_singleton' (List.range inp.nRows), gather_flatMap, List.flatMap_singleton']
  refine List.flatMap_congr fun gid _ => ?_
  rw [gather_single]
  show (valuesAt g (if _ then _ else _)).flatten = _
  by_cases hvalid : bitAt inp.valid gid = 0
  · rw [if_pos hvalid, if_neg fun h => h.1 hvalid]
    rfl
  · rw [if_neg hvalid, valuesAt_cons]
    by_cases hg : inp.rowToGroup.getD gid 0 = g
    · rw [if_pos hg, if_pos ⟨hvalid, hg⟩]
      rfl
    · rw [if_neg hg, if_neg fun h => hg h.2]
      rfl

/-! The kernel that gathers in registers. -/

theorem length_localAcc (rows : List ℕ) : (k.localAcc inp rows).length = f32AggMaxGroups := by
  unfold F32Kernel.localAcc
  induction rows using List.reverseRecOn with
  | nil => exact List.length_replicate
  | append_singleton rows row ih =>
    rw [List.foldl_concat]
    dsimp only
    split_ifs
    · exact ih
    · exact ih
    · rw [List.length_modify, ih]

theorem localAcc_gathered (hg : g < f32AggMaxGroups) (hgroup : g < inp.nGroups) (rows : List ℕ) :
    Gathered k (gather inp g rows) ((k.localAcc inp rows).getD g 0) := by
  induction rows using List.reverseRecOn with
  | nil =>
    have hseed : (k.localAcc inp []).getD g 0 = k.initBits := by
      show (List.replicate f32AggMaxGroups k.initBits).getD g 0 = _
      rw [getD_of_lt _ (by rwa [List.length_replicate]), List.getElem_replicate]
    rw [hseed]
    exact .seed
  | append_singleton rows row ih =>
    have hlast : k.localAcc inp (rows ++ [row]) =
        if bitAt inp.valid row = 0 then k.localAcc inp rows
        else if inp.rowToGroup.getD row 0 ≥ inp.nGroups then k.localAcc inp rows
        else (k.localAcc inp rows).modify (inp.rowToGroup.getD row 0) fun old =>
          k.combine old (inp.values.getD row 0) := by
      unfold F32Kernel.localAcc
      rw [List.foldl_concat]
    rw [hlast, gather_append, gather_single]
    by_cases hvalid : bitAt inp.valid row = 0
    · rw [if_pos hvalid, if_neg fun h => h.1 hvalid, List.append_nil]
      exact ih
    rw [if_neg hvalid]
    by_cases hout : inp.rowToGroup.getD row 0 ≥ inp.nGroups
    · rw [if_pos hout, if_neg fun h => by omega, List.append_nil]
      exact ih
    rw [if_neg hout, getD_modify _ _ _ (by rwa [length_localAcc])]
    by_cases hsame : inp.rowToGroup.getD row 0 = g
    · rw [if_pos hsame, if_pos ⟨hvalid, hsame⟩]
      exact ih.combine (.value _)
    · rw [if_neg hsame, if_neg fun h => hsame h.2, List.append_nil]
      exact ih

theorem eval_gathered (parts : ℕ → List Word) {x : ℕ → Word} (shape : Shape)
    (h : ∀ i ∈ shape.lanes, Gathered k (parts i) (x i)) :
    Gathered k (shape.lanes.flatMap parts) (shape.eval k.combine x) := by
  induction shape with
  | lane i =>
    have hlane := h i (List.mem_singleton.2 rfl)
    show Gathered k ([i].flatMap parts) (x i)
    rwa [List.flatMap_singleton]
  | node left right ihl ihr =>
    show Gathered k ((left.lanes ++ right.lanes).flatMap parts)
      (k.combine (left.eval k.combine x) (right.eval k.combine x))
    rw [List.flatMap_append]
    exact (ihl fun i hi => h i (List.mem_append_left _ hi)).combine
      (ihr fun i hi => h i (List.mem_append_right _ hi))

theorem foldl_combine_gathered {l : List ℕ} {parts : ℕ → List Word} {x : ℕ → Word}
    (h : ∀ i ∈ l, Gathered k (parts i) (x i)) :
    Gathered k (l.flatMap parts) (l.foldl (fun total i => k.combine total (x i)) k.initBits) := by
  induction l using List.reverseRecOn with
  | nil => exact .seed
  | append_singleton l i ih =>
    rw [List.foldl_concat, List.flatMap_append, List.flatMap_singleton]
    exact (ih fun j hj => h j (List.mem_append_left _ hj)).combine
      (h i (List.mem_append_right _ (List.mem_singleton.2 rfl)))

/-- Every lane once. -/
def F32Launch.Covers (launch : F32Launch) (grid : Grid) : Prop :=
  ∀ tg < grid.length, ∀ sg < (grid.getD tg []).length, ∀ g,
    (launch.shape tg sg g).lanes.Perm (List.range ((grid.getD tg []).getD sg []).length)

theorem flatMap_range_getD {α : Type*} (l : List (List α)) :
    (List.range l.length).flatMap (fun i => l.getD i []) = l.flatten := by
  rw [List.flatMap_def]
  congr 1
  refine List.ext_getElem (by simp) fun i hi hi' => ?_
  rw [List.getElem_map, List.getElem_range, getD_of_lt _ hi']

theorem tgTotal_gathered (hg : g < f32AggMaxGroups) (hgroup : g < inp.nGroups)
    {shape : ℕ → ℕ → Shape} {tg : List (List (List ℕ))}
    (hshape : ∀ sg < tg.length, (shape sg g).lanes.Perm (List.range (tg.getD sg []).length)) :
    Gathered k (gather inp g tg.flatten.flatten) (k.tgTotal inp shape tg g) := by
  have hsg : ∀ sg ∈ List.range tg.length, Gathered k (gather inp g (tg.getD sg []).flatten)
      ((shape sg g).eval k.combine fun lane =>
        (k.localAcc inp ((tg.getD sg []).getD lane [])).getD g 0) := by
    intro sg hsg
    refine (eval_gathered (fun lane => gather inp g ((tg.getD sg []).getD lane [])) _
      fun lane _ => localAcc_gathered hg hgroup _).perm ?_
    refine ((hshape sg (List.mem_range.1 hsg)).flatMap_right _).trans (List.Perm.of_eq ?_)
    rw [← gather_flatMap, flatMap_range_getD]
  refine (foldl_combine_gathered hsg).perm (List.Perm.of_eq ?_)
  rw [← gather_flatMap, ← flatMap_range_getD tg, List.flatten_eq_flatMap, List.flatMap_assoc]
  congr 1
  exact List.flatMap_congr fun sg _ => List.flatten_eq_flatMap

/-- What was left out for being the identity may be put back. -/
theorem Gathered.fill {l : List ℕ} {kept : ℕ → List Word} (full : ℕ → List Word)
    (pre : List Word) {a : Word} (h : Gathered k (pre ++ l.flatMap kept) a)
    (hfill : ∀ t ∈ l, kept t = full t ∨
      kept t = [] ∧ ∃ b, Gathered k (full t) b ∧ k.skips b = true) :
    Gathered k (pre ++ l.flatMap full) a := by
  induction l generalizing pre with
  | nil => exact h
  | cons t l ih =>
    obtain ⟨ht, hrest⟩ := List.forall_mem_cons.1 hfill
    rw [List.flatMap_cons] at h ⊢
    rcases ht with hsame | ⟨hnil, b, hb, hskip⟩
    · rw [hsame, ← List.append_assoc] at h
      rw [← List.append_assoc]
      exact ih _ h hrest
    · rw [hnil, List.nil_append] at h
      refine ((ih pre h hrest).skip hb hskip).perm ?_
      rw [List.append_assoc]
      exact List.perm_append_comm.append_left pre

theorem valuesAt_filterMap_range {α : Type*} (f : ℕ → Option α) (m : ℕ) :
    valuesAt g ((List.range m).filterMap fun i => (f i).map (Prod.mk i)) =
      if g < m then (f g).toList else [] := by
  induction m with
  | zero => rfl
  | succ m ih =>
    have hlast : valuesAt g ([m].filterMap fun i => (f i).map (Prod.mk i)) =
        if m = g then (f m).toList else [] := by
      cases hf : f m with
      | none =>
        have hnil : [m].filterMap (fun i => (f i).map (Prod.mk i)) = [] := by simp [hf]
        rw [hnil]
        split_ifs <;> rfl
      | some a =>
        have hone : [m].filterMap (fun i => (f i).map (Prod.mk i)) = [(m, a)] := by simp [hf]
        rw [hone, valuesAt_cons]
        rfl
    rw [List.range_succ, List.filterMap_append, valuesAt_append, ih, hlast]
    by_cases hm : m = g
    · subst hm
      rw [if_neg (Nat.lt_irrefl m), if_pos rfl, if_pos (Nat.lt_succ_self m), List.nil_append]
    · rw [if_neg hm, List.append_nil]
      by_cases hlt : g < m
      · rw [if_pos hlt, if_pos (by omega)]
      · rw [if_neg hlt, if_neg (by omega)]

theorem prereduce_gathered {launch : F32Launch} {grid : Grid} {turns : List Turn}
    (hg : g < f32AggMaxGroups) (hgroup : g < inp.nGroups) (hcovers : launch.Covers grid)
    (hdone : Done (k.prereduce inp grid launch.shape) grid.length
      (exec (k.prereduce inp grid launch.shape) (fun _ => k.initBits) turns)) :
    Gathered k (gather inp g (gridRows grid))
      ((exec (k.prereduce inp grid launch.shape) (fun _ => k.initBits) turns).mem g) := by
  let total := fun tg g => k.tgTotal inp (launch.shape tg) (grid.getD tg []) g
  let words := fun tg g => gather inp g (grid.getD tg []).flatten.flatten
  have htotal : ∀ tg < grid.length, ∀ g, g < f32AggMaxGroups → g < inp.nGroups →
      Gathered k (words tg g) (total tg g) := fun tg htg g hg hgroup =>
    tgTotal_gathered hg hgroup fun sg hsg => hcovers tg htg sg hsg g
  let kept : ℕ → ℕ → Option (List Word) := fun tg g =>
    if k.skips (total tg g) then none else some (words tg g)
  let tags : ℕ → List (ℕ × List Word) := fun tg =>
    (List.range (min f32AggMaxGroups inp.nGroups)).filterMap fun g =>
      (kept tg g).map (Prod.mk g)
  have htags : ∀ tg < grid.length,
      List.Forall₂ (Swaps k) (k.prereduce inp grid launch.shape tg) (tags tg) := by
    intro tg htg
    unfold F32Kernel.prereduce
    rw [if_neg (Nat.not_le.2 htg)]
    refine List.rel_filterMap (R := fun g g' => g = g' ∧ g < min f32AggMaxGroups inp.nGroups)
      (fun g g' hgg => ?_) (List.forall₂_same.2 fun g hg => ⟨rfl, List.mem_range.1 hg⟩)
    obtain ⟨rfl, hlt⟩ := hgg
    show Option.Rel _ (if k.skips (total tg g) then none else some _)
      (Option.map (Prod.mk g) (if k.skips (total tg g) then none else some (words tg g)))
    split_ifs with hskip
    · exact .none
    · exact .some ⟨rfl, _, rfl, htotal tg htg g (by omega) (by omega)⟩
  have hgather := exec_gathered (g := g) (fun tg htg => if_pos htg) hdone htags rfl
  -- what a threadgroup swaps in for the group
  have hkept : ∀ tg, (valuesAt g (tags tg)).flatten =
      if k.skips (total tg g) then [] else words tg g := by
    intro tg
    show (valuesAt g ((List.range _).filterMap _)).flatten = _
    rw [valuesAt_filterMap_range, if_pos (by omega)]
    show (Option.toList (if _ then _ else _)).flatten = _
    split_ifs
    · rfl
    · exact List.append_nil _
  simp only [hkept] at hgather
  have hfull := Gathered.fill (fun tg => words tg g) [] hgather fun tg htg => by
    split_ifs with hskip
    · exact .inr ⟨rfl, _, htotal tg (List.mem_range.1 htg) g hg hgroup, hskip⟩
    · exact .inl rfl
  refine hfull.perm (List.Perm.of_eq ?_)
  rw [List.nil_append, ← gather_flatMap, gridRows]
  congr 1
  rw [← flatMap_range_getD grid, List.flatten_eq_flatMap, List.flatten_eq_flatMap, List.flatMap_assoc,
    List.flatMap_assoc]
  refine List.flatMap_congr fun tg _ => ?_
  rw [List.flatten_eq_flatMap, List.flatten_eq_flatMap, List.flatMap_assoc]

/-! The dispatcher. -/

/-- The launch runs to its end, and its simdgroups leave no lane out. -/
structure F32Launch.Completes (k : F32Kernel) (inp : AggInput) (launch : F32Launch) : Prop where
  finished : k.Finished inp.bound launch
  covers : inp.nGroups ≤ f32AggMaxGroups → launch.Covers (f32AggGrid inp.nRows)

theorem cells_gathered {launch : F32Launch} (hfinished : k.Finished inp launch)
    (hcovers : inp.nGroups ≤ f32AggMaxGroups → launch.Covers (f32AggGrid inp.nRows))
    (hgroup : g < inp.nGroups) :
    Gathered k (gather inp g (List.range inp.nRows)) ((k.cells inp launch).mem g) := by
  unfold F32Kernel.Finished F32Kernel.cells at hfinished
  unfold F32Kernel.cells
  by_cases hroute : inp.nGroups ≤ f32AggMaxGroups
  · have hloops : k.loops inp launch =
        (k.prereduce inp (f32AggGrid inp.nRows) launch.shape, (f32AggGrid inp.nRows).length) :=
      if_pos hroute
    rw [hloops] at hfinished ⊢
    exact (prereduce_gathered (by omega) hgroup (hcovers hroute) hfinished).perm
      (gather_perm (gridRows_fusedGrid inp.nRows))
  · have hloops : k.loops inp launch = (k.perRow inp, inp.nRows) := if_neg hroute
    rw [hloops] at hfinished ⊢
    exact perRow_gathered hfinished

theorem gather_bound : gather inp.bound g (List.range inp.nRows) =
    gather inp g (List.range inp.nRows) := by
  unfold gather
  refine congrArg _ (List.filter_congr fun row hrow => ?_)
  have hbit : bitAt inp.bound.valid row = bitAt inp.valid row := bitAt_take (List.mem_range.1 hrow)
  simp only [hbit]
  rfl

/-- What the dispatcher needs of the columns. -/
structure AggInput.Fits (inp : AggInput) : Prop where
  rows : inp.nRows < 2 ^ 32
  values : inp.nRows ≤ inp.values.length
  groups : inp.nRows ≤ inp.rowToGroup.length
  valid : (inp.nRows + 7) / 8 ≤ inp.valid.length

theorem dispatchAggF32_gathered {launch : F32Launch} (hfits : inp.Fits)
    (hlaunch : launch.Completes k inp) :
    ∃ out, dispatchAggF32 k inp launch = .ok out ∧ out.length = inp.nGroups ∧
      ∀ g < inp.nGroups, Gathered k (gather inp g (List.range inp.nRows)) (out.getD g 0) := by
  obtain ⟨hrows, hvalues, hgroups, hvalid⟩ := hfits
  unfold dispatchAggF32
  by_cases hzero : inp.nRows = 0
  · rw [if_pos hzero]
    refine ⟨_, rfl, List.length_replicate, fun g hg => ?_⟩
    rw [getD_of_lt _ (by rwa [List.length_replicate]), List.getElem_replicate, hzero]
    exact .seed
  rw [if_neg hzero, if_neg (by omega), if_neg (by omega), if_neg (by omega), if_neg (by omega)]
  refine ⟨_, rfl, by rw [List.length_map, List.length_range], fun g hg => ?_⟩
  rw [getD_of_lt _ (by rwa [List.length_map, List.length_range]), List.getElem_map,
    List.getElem_range, ← gather_bound]
  exact cells_gathered hlaunch.finished hlaunch.covers hg

end Gather

/-! Launches that complete. -/

theorem lanes_row (n : ℕ) : (Shape.row n).lanes = List.range (n + 1) := by
  induction n with
  | zero => rfl
  | succ n ih =>
    show (Shape.row n).lanes ++ [n + 1] = _
    rw [ih, ← List.range_succ]

theorem exists_completes (k : F32Kernel) (inp : AggInput) :
    ∃ launch : F32Launch, launch.Completes k inp := by
  let shape : ℕ → ℕ → ℕ → Shape := fun _ _ _ => Shape.row (simdWidth - 1)
  obtain ⟨turns, hdone⟩ := exists_done (k.loops inp.bound ⟨shape, []⟩).1
    (k.loops inp.bound ⟨shape, []⟩).2 fun _ => k.initBits
  refine ⟨⟨shape, turns⟩, hdone, fun _ tg htg sg hsg g => ?_⟩
  show (Shape.row (simdWidth - 1)).lanes.Perm _
  rw [lanes_row]
  refine List.Perm.of_eq (congrArg List.range ?_)
  unfold f32AggGrid at htg hsg ⊢
  dsimp only at htg hsg ⊢
  rw [getD_of_lt _ htg, List.getElem_map] at hsg ⊢
  rw [getD_of_lt _ hsg, List.getElem_map, List.length_map, List.length_range]
  rfl

/-! A minimum or a maximum. -/

/-- The order that the comparisons of the device go by, where they have one: NaN has no place in it,
and words may share a place. -/
structure F32Ops.Orders {K : Type*} [LinearOrder K] [BoundedOrder K] (fl : F32Ops)
    (key : Word → Option K) : Prop where
  infinity : key f32Infinity = some ⊤
  negInfinity : key f32NegInfinity = some ⊥
  lt {a b : Word} {x y : K} : key a = some x → key b = some y → (fl.lt a b = true ↔ x < y)
  min_mem (a b : Word) : fl.min a b = a ∨ fl.min a b = b
  max_mem (a b : Word) : fl.max a b = a ∨ fl.max a b = b
  min {a b : Word} {x y : K} : key a = some x → key b = some y → key (fl.min a b) = some (x ⊓ y)
  max {a b : Word} {x y : K} : key a = some x → key b = some y → key (fl.max a b) = some (x ⊔ y)

/-- The kernel keeps the first of two words in an order. -/
structure Selects {K : Type*} [LinearOrder K] [OrderTop K] (k : F32Kernel) (key : Word → Option K) :
    Prop where
  seed : key k.initBits = some ⊤
  combine {a b : Word} {x y : K} : key a = some x → key b = some y →
    key (k.combine a b) = some (x ⊓ y)
  combine_mem (a b : Word) : k.combine a b = a ∨ k.combine a b = b
  swap {a b : Word} {x y : K} : key a = some x → key b = some y →
    key ((k.swapIn b a).getD a) = some (x ⊓ y)
  swap_mem (a b : Word) : (k.swapIn b a).getD a = a ∨ (k.swapIn b a).getD a = b
  skips {b : Word} : k.skips b = true → b = k.initBits

section Select

variable {K : Type*} [LinearOrder K]

theorem selects_min [BoundedOrder K] {fl : F32Ops} {key : Word → Option K} (h : fl.Orders key) :
    Selects (aggMinF32 fl) key where
  seed := h.infinity
  combine := h.min
  combine_mem := h.min_mem
  swap {a b x y} ha hb := by
    show key ((if fl.lt b a then some b else none).getD a) = _
    by_cases hlt : fl.lt b a = true
    · rw [if_pos hlt, inf_eq_right.2 ((h.lt hb ha).1 hlt).le]
      exact hb
    · rw [if_neg hlt, inf_eq_left.2 (not_lt.1 fun hxy => hlt ((h.lt hb ha).2 hxy))]
      exact ha
  swap_mem a b := by
    show (if fl.lt b a then some b else none).getD a = a ∨
      (if fl.lt b a then some b else none).getD a = b
    split_ifs
    · exact .inr rfl
    · exact .inl rfl
  skips hskip := eq_of_beq hskip

theorem selects_max [BoundedOrder K] {fl : F32Ops} {key : Word → Option K} (h : fl.Orders key) :
    Selects (K := Kᵒᵈ) (aggMaxF32 fl) key where
  seed := h.negInfinity
  combine := h.max
  combine_mem := h.max_mem
  swap {a b x y} ha hb := by
    show key ((if fl.lt a b then some b else none).getD a) = _
    by_cases hlt : fl.lt a b = true
    · rw [if_pos hlt]
      exact hb.trans (congrArg some ((@sup_eq_right K _ x y).2 ((h.lt ha hb).1 hlt).le).symm)
    · rw [if_neg hlt]
      exact ha.trans (congrArg some
        ((@sup_eq_left K _ x y).2 (not_lt.1 fun hxy => hlt ((h.lt ha hb).2 hxy))).symm)
  swap_mem a b := by
    show (if fl.lt a b then some b else none).getD a = a ∨
      (if fl.lt a b then some b else none).getD a = b
    split_ifs
    · exact .inr rfl
    · exact .inl rfl
  skips hskip := eq_of_beq hskip

variable {k : F32Kernel} {key : Word → Option K}

/-- The places of words in the order. -/
def places {K : Type*} (key : Word → Option K) (xs : List Word) : Set K :=
  {x | ∃ v ∈ xs, key v = some x}

theorem isGLB_append {xs ys : List Word} {x y : K} (hx : IsGLB (places key xs) x)
    (hy : IsGLB (places key ys) y) : IsGLB (places key (xs ++ ys)) (x ⊓ y) := by
  have hunion : places key (xs ++ ys) = places key xs ∪ places key ys := by
    ext z
    simp only [places, List.mem_append, Set.mem_ofPred_eq, Set.mem_union, or_and_right, exists_or]
  rw [hunion]
  exact hx.union hy

/-- What is gathered by such a kernel is the first of the words, or the seed. -/
theorem Gathered.isGLB [OrderTop K] (hk : Selects k key) {xs : List Word} {a : Word} (h : Gathered k xs a)
    (hkeys : ∀ v ∈ xs, (key v).isSome) :
    (∃ x, key a = some x ∧ IsGLB (places key xs) x) ∧ (a = k.initBits ∨ a ∈ xs) := by
  have hmem : ∀ {xs ys : List Word} {a b c : Word}, (a = k.initBits ∨ a ∈ xs) →
      (b = k.initBits ∨ b ∈ ys) → (c = a ∨ c = b) → (c = k.initBits ∨ c ∈ xs ++ ys) := by
    intro xs ys a b c ha hb hc
    rcases hc with rfl | rfl
    · exact ha.imp_right (List.mem_append_left _)
    · exact hb.imp_right (List.mem_append_right _)
  induction h with
  | seed =>
    refine ⟨⟨⊤, hk.seed, ?_⟩, .inl rfl⟩
    have hempty : places key [] = ∅ := Set.eq_empty_of_forall_notMem fun x hx => by
      obtain ⟨v, hv, -⟩ := hx
      exact List.not_mem_nil hv
    rw [hempty]
    exact isGLB_empty
  | value v =>
    obtain ⟨x, hx⟩ := Option.isSome_iff_exists.1 (hkeys v (List.mem_singleton.2 rfl))
    refine ⟨⟨x, hx, ?_⟩, .inr (List.mem_singleton.2 rfl)⟩
    have hone : places key [v] = {x} := by
      ext z
      simp [places, hx, eq_comm]
    rw [hone]
    exact isGLB_singleton
  | combine _ _ iha ihb =>
    obtain ⟨hxs, hys⟩ := List.forall_mem_append.1 hkeys
    obtain ⟨⟨x, hx, hxglb⟩, hxmem⟩ := iha hxs
    obtain ⟨⟨y, hy, hyglb⟩, hymem⟩ := ihb hys
    exact ⟨⟨x ⊓ y, hk.combine hx hy, isGLB_append hxglb hyglb⟩,
      hmem hxmem hymem (hk.combine_mem _ _)⟩
  | swap _ _ iha ihb =>
    obtain ⟨hxs, hys⟩ := List.forall_mem_append.1 hkeys
    obtain ⟨⟨x, hx, hxglb⟩, hxmem⟩ := iha hxs
    obtain ⟨⟨y, hy, hyglb⟩, hymem⟩ := ihb hys
    exact ⟨⟨x ⊓ y, hk.swap hx hy, isGLB_append hxglb hyglb⟩, hmem hxmem hymem (hk.swap_mem _ _)⟩
  | skip _ _ hskip iha ihb =>
    obtain ⟨hxs, hys⟩ := List.forall_mem_append.1 hkeys
    obtain ⟨⟨x, hx, hxglb⟩, hxmem⟩ := iha hxs
    obtain ⟨⟨y, hy, hyglb⟩, -⟩ := ihb hys
    -- the seed is last in the order
    have htop : y = ⊤ := by
      rw [hk.skips hskip, hk.seed] at hy
      exact (Option.some.inj hy).symm
    refine ⟨⟨x, hx, ?_⟩, hxmem.imp_right (List.mem_append_left _)⟩
    have hglb := isGLB_append hxglb hyglb
    rwa [htop, inf_top_eq] at hglb
  | perm hperm _ ih =>
    obtain ⟨⟨x, hx, hglb⟩, hxmem⟩ := ih fun v hv => hkeys v (hperm.mem_iff.1 hv)
    refine ⟨⟨x, hx, ?_⟩, hxmem.imp_right hperm.mem_iff.1⟩
    have hsame : ∀ {xs ys : List Word}, xs.Perm ys → places key ys = places key xs := by
      intro xs ys hperm
      ext z
      simp only [places, Set.mem_ofPred_eq, hperm.mem_iff]
    rwa [hsame hperm]

end Select

/-! A sum. -/

/-- The additions of the device are exact on words that stand for integers, up to a bound. -/
structure F32Ops.AddsUpTo (fl : F32Ops) (num : Word → Option ℤ) (bound : ℤ) : Prop
    extends ExactSum.AddsUpTo fl.add num bound where
  zero : num 0 = some 0
  isZero {b : Word} {y : ℤ} : fl.isZero b = true → num b = some y → y = 0

/-- What is gathered by the summing kernel is the sum, however it is gathered. -/
theorem Gathered.isExact {fl : F32Ops} {num : Word → Option ℤ} {bound : ℤ}
    (hfl : fl.AddsUpTo num bound) {xs : List Word} {a : Word} (h : Gathered (aggSumF32 fl) xs a) :
    IsExact num bound xs a := by
  induction h with
  | seed => exact isExact_nil hfl.zero
  | value v => exact isExact_single v
  | combine _ _ iha ihb => exact iha.add hfl.toAddsUpTo ihb
  | swap _ _ iha ihb => exact iha.add hfl.toAddsUpTo ihb
  | skip _ _ hskip iha ihb => exact iha.skip ihb fun _ => hfl.isZero hskip
  | perm hperm _ ih => exact ih.perm hperm

/-! The arms. -/

section Arms

variable {fl : F32Ops} {inp : AggInput} {launch : F32Launch} {threads : List ℕ}

/-- The words of a group's valid rows. -/
def AggInput.words (inp : AggInput) (g : ℕ) : List Word := gather inp g (List.range inp.nRows)

theorem words_eq (g : ℕ) : inp.words g =
    (validRows inp.rowToGroup inp.nRows inp.valid g).map (inp.values.getD · 0) := by
  unfold AggInput.words gather validRows groupRows
  rw [List.filter_filter]
  refine congrArg _ (List.filter_congr fun row _ => ?_)
  rw [Bool.decide_and, decide_not, bne, Bool.beq_eq_decide_eq]

theorem dispatchCountU32_words (hfits : inp.Fits) (hlen : inp.rowToGroup.length = inp.nRows)
    (hthreads : threads.Perm (List.range inp.nRows)) :
    dispatchCountU32 inp.valid inp.rowToGroup inp.nRows inp.nGroups threads =
      .ok ((List.range inp.nGroups).map fun g =>
        BitVec.ofNat 32 (validRows inp.rowToGroup inp.nRows inp.valid g).length) := by
  by_cases hzero : inp.nRows = 0
  · unfold dispatchCountU32
    rw [if_pos hzero, hzero]
    have hnil : ∀ g, validRows inp.rowToGroup 0 inp.valid g = [] := fun _ => rfl
    simp only [hnil, List.map_const', List.length_range]
    rfl
  · exact @dispatchCountU32_eq inp.nRows ⟨inp.rowToGroup, [], inp.nGroups⟩ threads hlen (by omega) hfits.rows
      hthreads _ hfits.valid

/-- The rows that are there make a group's value valid. -/
def present (inp : AggInput) : List Bool :=
  (List.range inp.nGroups).map fun g => decide (inp.words g ≠ [])

theorem countToValid_words (hfits : inp.Fits) :
    countToValid ((List.range inp.nGroups).map fun g =>
        BitVec.ofNat 32 (validRows inp.rowToGroup inp.nRows inp.valid g).length) = present inp := by
  refine (@countToValid_counts inp.nRows ⟨inp.rowToGroup, [], inp.nGroups⟩ hfits.rows
    inp.valid).trans (List.map_congr_left fun g _ => decide_eq_decide.2 ?_)
  rw [words_eq, Ne, List.map_eq_nil_iff, List.length_pos_iff]

theorem meanFromSumCount_words (hfits : inp.Fits) {sums : List Word}
    (hlen : sums.length = inp.nGroups) :
    ∃ means, meanFromSumCount id fl sums ((List.range inp.nGroups).map fun g =>
        BitVec.ofNat 32 (validRows inp.rowToGroup inp.nRows inp.valid g).length) =
          .f32 means (present inp) ∧ means.length = inp.nGroups ∧
      ∀ g < inp.nGroups, inp.words g ≠ [] → means.getD g 0 =
        fl.div (sums.getD g 0) (fl.ofU32 (BitVec.ofNat 32 (inp.words g).length)) := by
  set counts := (List.range inp.nGroups).map fun g =>
    BitVec.ofNat 32 (validRows inp.rowToGroup inp.nRows inp.valid g).length with hcounts
  have hcountslen : counts.length = inp.nGroups := by rw [hcounts, List.length_map, List.length_range]
  have hvalid : (sums.zip counts).map (fun p => p.2 != 0) = present inp := by
    rw [← countToValid_words hfits, ← hcounts, countToValid]
    conv_rhs => rw [← @List.map_snd_zip _ _ sums counts (by omega), List.map_map]
    refine List.map_congr_left fun p _ => ?_
    rw [bne, Bool.beq_eq_decide_eq, ← decide_not]
    refine decide_eq_decide.2 ?_
    show p.2 ≠ 0 ↔ 0 < p.2
    bv_omega
  refine ⟨(sums.zip counts).map fun p => if p.2 = 0 then 0 else fl.div p.1 (fl.ofU32 p.2), ?_, ?_,
    fun g hg hwords => ?_⟩
  · rw [← hvalid]
    rfl
  · rw [List.length_map, List.length_zip]
    omega
  · have hgcount : g < counts.length := by omega
    have hcount : counts[g] = BitVec.ofNat 32 (inp.words g).length := by
      have hread := getD_of_lt counts hgcount 0
      rw [← hread, words_eq, List.length_map, hcounts,
        getD_of_lt _ (by rwa [List.length_map, List.length_range]), List.getElem_map,
        List.getElem_range]
    have hpos : BitVec.ofNat 32 (inp.words g).length ≠ 0 := by
      have hlt : (inp.words g).length < 2 ^ 32 := by
        rw [words_eq, List.length_map]
        exact (length_groupRows_le _ _ _ _).trans_lt hfits.rows
      have hnonzero := List.length_pos_iff.2 hwords
      intro h
      have hnat := congrArg BitVec.toNat h
      rw [BitVec.toNat_ofNat, Nat.mod_eq_of_lt hlt] at hnat
      exact hnonzero.ne' hnat
    rw [getD_of_lt _ (by rw [List.length_map, List.length_zip]; omega), List.getElem_map,
      List.getElem_zip, hcount, if_neg hpos, getD_of_lt _ (by omega)]

/-- A minimum is the greatest lower bound of its group's values, a maximum their least upper bound, in
the order that the device goes by; it is one of the group's own words, or the infinity of an empty
group, which is not valid. -/
theorem runOneAggF32_extrema {K : Type*} [LinearOrder K] [BoundedOrder K] {key : Word → Option K}
    (hfl : fl.Orders key) (hfits : inp.Fits) (hlen : inp.rowToGroup.length = inp.nRows)
    (hthreads : threads.Perm (List.range inp.nRows)) :
    (launch.Completes (aggMinF32 fl) inp →
      ∃ out, runOneAggF32 fl .minF32 inp.values inp.valid inp.rowToGroup inp.nGroups launch threads =
          .ok (.f32 out (present inp)) ∧ out.length = inp.nGroups ∧
        ∀ g < inp.nGroups, (∀ v ∈ inp.words g, (key v).isSome) →
          (∃ x, key (out.getD g 0) = some x ∧ IsGLB (places key (inp.words g)) x) ∧
            (out.getD g 0 = f32Infinity ∨ out.getD g 0 ∈ inp.words g)) ∧
    (launch.Completes (aggMaxF32 fl) inp →
      ∃ out, runOneAggF32 fl .maxF32 inp.values inp.valid inp.rowToGroup inp.nGroups launch threads =
          .ok (.f32 out (present inp)) ∧ out.length = inp.nGroups ∧
        ∀ g < inp.nGroups, (∀ v ∈ inp.words g, (key v).isSome) →
          (∃ x, key (out.getD g 0) = some x ∧ IsLUB (places key (inp.words g)) x) ∧
            (out.getD g 0 = f32NegInfinity ∨ out.getD g 0 ∈ inp.words g)) := by
  have hcounts := dispatchCountU32_words hfits hlen hthreads
  have hvalid := countToValid_words hfits
  refine ⟨fun hlaunch => ?_, fun hlaunch => ?_⟩
  · obtain ⟨out, hout, houtlen, hgather⟩ := dispatchAggF32_gathered hfits hlaunch
    refine ⟨out, ?_, houtlen, fun g hg hkeys =>
      (hgather g hg).isGLB (selects_min hfl) hkeys⟩
    unfold runOneAggF32
    simp only [hlen, hout, hcounts]
    rw [← hvalid]
    rfl
  · obtain ⟨out, hout, houtlen, hgather⟩ := dispatchAggF32_gathered hfits hlaunch
    refine ⟨out, ?_, houtlen, fun g hg hkeys =>
      (hgather g hg).isGLB (K := Kᵒᵈ) (selects_max hfl) hkeys⟩
    unfold runOneAggF32
    simp only [hlen, hout, hcounts]
    rw [← hvalid]
    rfl

/-- A sum of integers is exact, and a mean is that sum over the count, on either kernel and in any run of
it. -/
theorem runOneAggF32_sums {num : Word → Option ℤ} {bound : ℤ} (hfl : fl.AddsUpTo num bound)
    (hfits : inp.Fits) (hlen : inp.rowToGroup.length = inp.nRows)
    (hthreads : threads.Perm (List.range inp.nRows)) (hlaunch : launch.Completes (aggSumF32 fl) inp) :
    ∃ sums means,
      runOneAggF32 fl .sumF32 inp.values inp.valid inp.rowToGroup inp.nGroups launch threads =
        .ok (.f32 sums (List.replicate inp.nGroups true)) ∧
      runOneAggF32 fl .meanF32 inp.values inp.valid inp.rowToGroup inp.nGroups launch threads =
        .ok (.f32 means (present inp)) ∧
      sums.length = inp.nGroups ∧ means.length = inp.nGroups ∧
      ∀ g < inp.nGroups, (∀ v ∈ inp.words g, (num v).isSome) →
        ((integers num (inp.words g)).map abs).sum ≤ bound →
        num (sums.getD g 0) = some (integers num (inp.words g)).sum ∧
        (inp.words g ≠ [] → means.getD g 0 =
          fl.div (sums.getD g 0) (fl.ofU32 (BitVec.ofNat 32 (inp.words g).length))) := by
  have hcounts := dispatchCountU32_words hfits hlen hthreads
  have hvalid := countToValid_words hfits
  obtain ⟨sums, hsums, hsumslen, hgather⟩ := dispatchAggF32_gathered hfits hlaunch
  obtain ⟨means, hmeans, hmeanslen, hdiv⟩ := @meanFromSumCount_words fl _ hfits _ hsumslen
  refine ⟨sums, means, ?_, ?_, hsumslen, hmeanslen, fun g hg hnum hbound =>
    ⟨(hgather g hg).isExact hfl hnum hbound, hdiv g hg⟩⟩
  · unfold runOneAggF32
    simp only [hlen, hsums]
    rfl
  · unfold runOneAggF32
    simp only [hlen, hsums, hcounts]
    exact congrArg Except.ok hmeans

/-! Two groups of three rows. -/

def f32Key (w : Word) : Option Ieee.Extended := Ieee.f32.value w.toNat

def f32Lt (a b : Word) : Bool := Ieee.Comparison.lt.ieee (f32Key a) (f32Key b)

/-- Comparisons by value. -/
def orderedOps : F32Ops :=
  { (default : F32Ops) with
    lt := f32Lt
    min := fun a b => if f32Lt b a then b else a
    max := fun a b => if f32Lt a b then b else a }

theorem f32Lt_iff {a b : Word} {x y : Ieee.Extended} (ha : f32Key a = some x)
    (hb : f32Key b = some y) : f32Lt a b = true ↔ x < y := by
  unfold f32Lt
  rw [ha, hb]
  exact decide_eq_true_iff

theorem orderedOps_orders : orderedOps.Orders f32Key where
  infinity := by decide +kernel
  negInfinity := by decide +kernel
  lt := f32Lt_iff
  min_mem a b := by
    show (if f32Lt b a then b else a) = a ∨ (if f32Lt b a then b else a) = b
    split_ifs
    · exact .inr rfl
    · exact .inl rfl
  max_mem a b := by
    show (if f32Lt a b then b else a) = a ∨ (if f32Lt a b then b else a) = b
    split_ifs
    · exact .inr rfl
    · exact .inl rfl
  min {a b x y} ha hb := by
    show f32Key (if f32Lt b a then b else a) = _
    by_cases hlt : f32Lt b a = true
    · rw [if_pos hlt, hb, inf_eq_right.2 ((f32Lt_iff hb ha).1 hlt).le]
    · rw [if_neg hlt, ha, inf_eq_left.2 (not_lt.1 fun hxy => hlt ((f32Lt_iff hb ha).2 hxy))]
  max {a b x y} ha hb := by
    show f32Key (if f32Lt a b then b else a) = _
    by_cases hlt : f32Lt a b = true
    · rw [if_pos hlt, hb, sup_eq_right.2 ((f32Lt_iff ha hb).1 hlt).le]
    · rw [if_neg hlt, ha, sup_eq_left.2 (not_lt.1 fun hxy => hlt ((f32Lt_iff ha hb).2 hxy))]

/-- 1 and 3 in the first group, -2 in the second. -/
def twoGroups : AggInput := ⟨[0x3F800000, 0xC0000000, 0x40400000], [7], [0, 1, 0], 3, 2⟩

theorem twoGroups_fits : twoGroups.Fits := ⟨by decide, by decide, by decide, by decide⟩

theorem f32Key_isSome {w : Word} (h : Ieee.f32.low w.toNat ≤ Ieee.f32.top) : (f32Key w).isSome := by
  rw [Option.isSome_iff_ne_none]
  intro hnone
  exact absurd (Ieee.f32.value_eq_none_iff.1 hnone) (Nat.not_lt.2 h)

theorem runOneAggF32_min_twoGroups :
    ∃ launch out, runOneAggF32 orderedOps .minF32 [0x3F800000, 0xC0000000, 0x40400000] [7] [0, 1, 0] 2
        launch [0, 1, 2] = .ok (.f32 out [true, true]) ∧
      ∃ x, f32Key (out.getD 0 0) = some x ∧ IsGLB (places f32Key [0x3F800000, 0x40400000]) x := by
  obtain ⟨launch, hlaunch⟩ := exists_completes (aggMinF32 orderedOps) twoGroups
  obtain ⟨out, hout, -, hleast⟩ :=
    (@runOneAggF32_extrema _ twoGroups _ [0, 1, 2] _ _ _ _ orderedOps_orders twoGroups_fits rfl
      (.refl _)).1 hlaunch
  have hwords : twoGroups.words 0 = [0x3F800000, 0x40400000] := by decide +kernel
  have hpresent : present twoGroups = [true, true] := by decide +kernel
  have hkeys : ∀ v ∈ twoGroups.words 0, (f32Key v).isSome := by
    rw [hwords]
    intro v hv
    rcases List.mem_pair.1 hv with rfl | rfl
    · exact f32Key_isSome (by decide)
    · exact f32Key_isSome (by decide)
  rw [hpresent] at hout
  have hmin := (hleast 0 (by decide) hkeys).1
  rw [hwords] at hmin
  exact ⟨launch, out, hout, hmin⟩

/-- The words of 0, 1 and 2. -/
def smallNum (w : Word) : Option ℤ :=
  if w = 0 then some 0 else if w = 0x3F800000 then some 1 else if w = 0x40000000 then some 2 else none

/-- Sums of those words, as long as they are among them. -/
def smallOps : F32Ops :=
  { (default : F32Ops) with
    add := fun a b => if a = 0 then b else if b = 0 then a else if a = 0x3F800000 ∧ b = 0x3F800000 then
      0x40000000 else 0x7FC00000
    isZero := fun w => w == 0 }

theorem smallNum_eq {w : Word} {x : ℤ} (h : smallNum w = some x) :
    w = 0 ∧ x = 0 ∨ w = 0x3F800000 ∧ x = 1 ∨ w = 0x40000000 ∧ x = 2 := by
  unfold smallNum at h
  split_ifs at h with h0 h1 h2
  · exact .inl ⟨h0, (Option.some.inj h).symm⟩
  · exact .inr (.inl ⟨h1, (Option.some.inj h).symm⟩)
  · exact .inr (.inr ⟨h2, (Option.some.inj h).symm⟩)

theorem smallOps_adds : smallOps.AddsUpTo smallNum 2 where
  zero := rfl
  add ha hb hbound := by
    rcases smallNum_eq ha with ⟨rfl, rfl⟩ | ⟨rfl, rfl⟩ | ⟨rfl, rfl⟩ <;>
      rcases smallNum_eq hb with ⟨rfl, rfl⟩ | ⟨rfl, rfl⟩ | ⟨rfl, rfl⟩ <;>
      first
        | exact absurd hbound (by decide)
        | rfl
  isZero hzero hb := by
    rcases smallNum_eq hb with ⟨rfl, rfl⟩ | ⟨rfl, rfl⟩ | ⟨rfl, rfl⟩
    · rfl
    · exact absurd hzero (by decide)
    · exact absurd hzero (by decide)

/-- 1 and 1 in the first group, 2 in the second. -/
def smallGroups : AggInput := ⟨[0x3F800000, 0x40000000, 0x3F800000], [7], [0, 1, 0], 3, 2⟩

theorem runOneAggF32_sum_smallGroups :
    ∃ launch sums, runOneAggF32 smallOps .sumF32 [0x3F800000, 0x40000000, 0x3F800000] [7] [0, 1, 0] 2
        launch [0, 1, 2] = .ok (.f32 sums [true, true]) ∧ smallNum (sums.getD 0 0) = some 2 := by
  obtain ⟨launch, hlaunch⟩ := exists_completes (aggSumF32 smallOps) smallGroups
  obtain ⟨sums, _, hsums, -, -, -, hall⟩ := @runOneAggF32_sums _ smallGroups _ [0, 1, 2] _ _ smallOps_adds
    ⟨by decide, by decide, by decide, by decide⟩ rfl (.refl _) hlaunch
  have hwords : smallGroups.words 0 = [0x3F800000, 0x3F800000] := by decide +kernel
  have hsum := hall 0 (by decide)
  rw [hwords] at hsum
  have htwo : (integers smallNum [0x3F800000, 0x3F800000]).sum = 2 := by decide +kernel
  rw [htwo] at hsum
  have hnum : (smallNum 0x3F800000).isSome := by decide
  have hboth : ∀ v ∈ ([0x3F800000, 0x3F800000] : List Word), (smallNum v).isSome :=
    List.forall_mem_cons.2 ⟨hnum, List.forall_mem_singleton.2 hnum⟩
  exact ⟨launch, sums, hsums, (hsum hboth (by decide +kernel)).1⟩

end Arms

end PolarsMetal.GroupBy
