import PolarsMetal.GroupBy.PerAgg
import PolarsMetal.Lib.Reduce

/-! The integer slots of the fused kernel compute, per group, the plain total of
the group's row updates: the split into threads, simdgroups and threadgroups,
the skipped flushes and the order of the atomics all drop out. The atomic
kernels of the per-aggregate path compute the same totals. -/

namespace PolarsMetal.GroupBy
open Bitmap Reads Reduce StableSort

/-! The integer reductions. -/

def addReduction : Reduction Word where
  identity := 0
  combine := fun a b => a + b
  comm := BitVec.add_comm
  assoc := BitVec.add_assoc
  left_id := BitVec.zero_add

def sminWord (a b : Word) : Word := if b.slt a then b else a
def smaxWord (a b : Word) : Word := if a.slt b then b else a

theorem toInt_sminWord (a b : Word) : (sminWord a b).toInt = min a.toInt b.toInt := by
  rw [sminWord, BitVec.slt]
  split_ifs with h
  · have := of_decide_eq_true h
    omega
  · have := of_decide_eq_false (Bool.not_eq_true _ ▸ h)
    omega

theorem toInt_smaxWord (a b : Word) : (smaxWord a b).toInt = max a.toInt b.toInt := by
  rw [smaxWord, BitVec.slt]
  split_ifs with h
  · have := of_decide_eq_true h
    omega
  · have := of_decide_eq_false (Bool.not_eq_true _ ▸ h)
    omega

def minReduction : Reduction Word where
  identity := i32Max
  combine := sminWord
  comm a b := BitVec.toInt_inj.1 (by rw [toInt_sminWord, toInt_sminWord, min_comm])
  assoc a b c := BitVec.toInt_inj.1 (by simp only [toInt_sminWord, min_assoc])
  left_id a := BitVec.toInt_inj.1 (by
    have := BitVec.toInt_lt (x := a)
    have hid : i32Max.toInt = 2 ^ 31 - 1 := by decide
    rw [toInt_sminWord, hid]
    omega)

def maxReduction : Reduction Word where
  identity := i32Min
  combine := smaxWord
  comm a b := BitVec.toInt_inj.1 (by rw [toInt_smaxWord, toInt_smaxWord, max_comm])
  assoc a b c := BitVec.toInt_inj.1 (by simp only [toInt_smaxWord, max_assoc])
  left_id a := BitVec.toInt_inj.1 (by
    have := BitVec.le_toInt (x := a)
    have hid : i32Min.toInt = -2 ^ 31 := by decide
    rw [toInt_smaxWord, hid]
    omega)

/-- A slot kind whose kernel operations are those of a reduction. -/
structure Computes (fl : F32Ops) (k : ReduceKind) (R : Reduction Word) : Prop where
  identity : k.identity = R.identity
  combine : k.combine fl = R.combine
  flush : k.flush fl = R.combine
  flushes : ∀ total, k.flushes fl total = false → total = R.identity

theorem computes_i32Sum (fl : F32Ops) : Computes fl .i32Sum addReduction :=
  ⟨rfl, rfl, rfl, fun _ h => bne_eq_false_iff_eq.1 h⟩

theorem computes_counter (fl : F32Ops) : Computes fl .counter addReduction :=
  ⟨rfl, rfl, rfl, fun _ h => bne_eq_false_iff_eq.1 h⟩

theorem computes_i32Min (fl : F32Ops) : Computes fl .i32Min minReduction :=
  ⟨rfl, rfl, rfl, fun _ h => bne_eq_false_iff_eq.1 h⟩

theorem computes_i32Max (fl : F32Ops) : Computes fl .i32Max maxReduction :=
  ⟨rfl, rfl, rfl, fun _ h => bne_eq_false_iff_eq.1 h⟩

/-! The kernel. -/

/-- The group updates a list of rows makes. -/
def rowUpdates (rowToGroup : List ℕ) (nGroups : ℕ) (update : ℕ → Option Word) (rows : List ℕ) :
    List (ℕ × Word) :=
  rows.filterMap (fun row =>
    if rowToGroup.getD row 0 ≥ nGroups then none
    else (update row).map (fun v => (rowToGroup.getD row 0, v)))

/-- The updates of one group's rows, in row order. -/
def groupUpdates (rowToGroup : List ℕ) (update : ℕ → Option Word) (rows : List ℕ) (g : ℕ) :
    List Word :=
  (rows.filter (fun row => rowToGroup.getD row 0 = g)).filterMap update

theorem rowUpdates_cons (rowToGroup : List ℕ) (nGroups : ℕ) (update : ℕ → Option Word) (row : ℕ)
    (rows : List ℕ) :
    rowUpdates rowToGroup nGroups update (row :: rows) =
      (if rowToGroup.getD row 0 ≥ nGroups then []
        else ((update row).map (fun v => (rowToGroup.getD row 0, v))).toList) ++
        rowUpdates rowToGroup nGroups update rows := by
  rw [rowUpdates, List.filterMap_cons, rowUpdates]
  split_ifs
  · rfl
  · cases update row <;> rfl

theorem groupUpdates_cons (rowToGroup : List ℕ) (update : ℕ → Option Word) (row : ℕ)
    (rows : List ℕ) (g : ℕ) :
    groupUpdates rowToGroup update (row :: rows) g =
      (if rowToGroup.getD row 0 = g then (update row).toList else []) ++
        groupUpdates rowToGroup update rows g := by
  rw [groupUpdates, List.filter_cons, groupUpdates]
  by_cases h : rowToGroup.getD row 0 = g
  · simp only [h, decide_true, if_true, List.filterMap_cons]
    cases update row <;> rfl
  · simp only [h, decide_false, if_false, List.nil_append, Bool.false_eq_true]

theorem valuesAt_rowUpdates {rowToGroup : List ℕ} {nGroups : ℕ} {update : ℕ → Option Word}
    (rows : List ℕ) {g : ℕ} (hg : g < nGroups) :
    valuesAt g (rowUpdates rowToGroup nGroups update rows) = groupUpdates rowToGroup update rows g := by
  induction rows with
  | nil => rfl
  | cons row rows ih =>
    rw [rowUpdates_cons, groupUpdates_cons, valuesAt_append, ih]
    congr 1
    by_cases hge : rowToGroup.getD row 0 ≥ nGroups
    · rw [if_pos hge, if_neg (by omega)]
      rfl
    · rw [if_neg hge]
      by_cases hrow : rowToGroup.getD row 0 = g
      · rw [if_pos hrow]
        cases update row with
        | none => rfl
        | some v => simp only [Option.map_some, Option.toList_some, valuesAt_cons, if_pos hrow]; rfl
      · rw [if_neg hrow]
        cases update row with
        | none => rfl
        | some v => simp only [Option.map_some, Option.toList_some, valuesAt_cons, if_neg hrow]; rfl

section Kernel

variable {fl : F32Ops} {k : ReduceKind} {R : Reduction Word} (hk : Computes fl k R)
  {inp : KernelInput} {update : ℕ → Option Word}

include hk

theorem threadAcc_eq (rows : List ℕ) :
    threadAcc fl inp k update rows =
      scatter R (List.replicate maxGroups R.identity)
        (rowUpdates inp.rowToGroup inp.nGroups update rows) := by
  rw [threadAcc, hk.identity]
  generalize List.replicate maxGroups R.identity = acc
  induction rows generalizing acc with
  | nil => rfl
  | cons row rows ih =>
    rw [List.foldl_cons, rowUpdates, List.filterMap_cons, hk.combine]
    rw [hk.combine] at ih
    by_cases hge : inp.rowToGroup.getD row 0 ≥ inp.nGroups
    · rw [if_pos hge]
      simp only [if_pos hge]
      exact ih acc
    · rw [if_neg hge]
      simp only [if_neg hge]
      rcases update row with _ | v
      · exact ih acc
      · exact ih _

theorem getD_threadAcc (rows : List ℕ) {g : ℕ} (hg : g < min maxGroups inp.nGroups) :
    (threadAcc fl inp k update rows).getD g 0 =
      total R (groupUpdates inp.rowToGroup update rows g) := by
  have h1 : g < maxGroups := by omega
  have h2 : g < inp.nGroups := by omega
  rw [threadAcc_eq hk, getD_scatter R _ _ (by simpa using h1), valuesAt_rowUpdates rows h2,
    getD_of_lt _ (by simpa using h1)]
  simp [R.left_id]

theorem simdReduce_eq (sg : List (List ℕ)) {g : ℕ} (hg : g < min maxGroups inp.nGroups) :
    simdReduce fl k (sg.map (threadAcc fl inp k update)) g =
      total R (sg.flatMap (fun rows => groupUpdates inp.rowToGroup update rows g)) := by
  have hlanes : (sg.map (threadAcc fl inp k update)).map (fun acc => acc.getD g 0) =
      sg.map (fun rows => total R (groupUpdates inp.rowToGroup update rows g)) := by
    rw [List.map_map]
    exact List.map_congr_left (fun rows _ => getD_threadAcc hk rows hg)
  rw [simdReduce, hlanes, hk.combine, hk.identity, ← total, total_map_total]

/-- What one threadgroup contributes to a group, flushed or not. -/
theorem total_tgFlushes (tg : List (List (List ℕ))) {g : ℕ} (hg : g < min maxGroups inp.nGroups) :
    total R (valuesAt g (tgFlushes fl inp k update tg)) =
      total R (tg.flatMap (fun sg =>
        sg.flatMap (fun rows => groupUpdates inp.rowToGroup update rows g))) := by
  set T := fun gi => ((tg.map (fun sg => simdReduce fl k (sg.map (threadAcc fl inp k update)))).map
    (fun part => part gi)).foldl (k.combine fl) k.identity with hT
  have hTg : T g = total R (tg.flatMap (fun sg =>
      sg.flatMap (fun rows => groupUpdates inp.rowToGroup update rows g))) := by
    rw [hT]
    simp only [List.map_map]
    have : (tg.map ((fun part : ℕ → Word => part g) ∘
        fun sg => simdReduce fl k (sg.map (threadAcc fl inp k update)))) =
        tg.map (fun sg => total R (sg.flatMap
          (fun rows => groupUpdates inp.rowToGroup update rows g))) :=
      List.map_congr_left (fun sg _ => simdReduce_eq hk sg hg)
    rw [this, hk.combine, hk.identity, ← total, total_map_total]
  -- the group's own entry is the only one that matters, and it may be skipped
  have hvals : valuesAt g (tgFlushes fl inp k update tg) = [T g].filter (fun t => k.flushes fl t) := by
    have hrange : ∀ m, g < m → valuesAt g (((List.range m).map (fun gi => (gi, T gi))).filter
        (fun t => k.flushes fl t.2)) = [T g].filter (fun t => k.flushes fl t) := by
      intro m
      induction m with
      | zero => intro h; omega
      | succ m ih =>
        intro hm
        rw [List.range_succ, List.map_append, List.filter_append, valuesAt_append]
        by_cases hgm : g = m
        · subst hgm
          have hnone : valuesAt g (((List.range g).map (fun gi => (gi, T gi))).filter
              (fun t => k.flushes fl t.2)) = [] := by
            rw [valuesAt, List.filterMap_eq_nil_iff]
            intro t ht
            obtain ⟨gi, hgi, rfl⟩ := List.mem_map.1 (List.mem_filter.1 ht).1
            rw [if_neg (by have := List.mem_range.1 hgi; simp only; omega)]
          rw [hnone, List.nil_append]
          by_cases hf : k.flushes fl (T g)
          · simp [hf, valuesAt]
          · simp [hf, valuesAt]
        · rw [ih (by omega)]
          by_cases hf : k.flushes fl (T m)
          · simp [hf, valuesAt, Ne.symm hgm]
          · simp [hf, valuesAt]
    exact hrange _ hg
  rw [hvals, total_filter R (fun t => k.flushes fl t) (fun t _ hf => hk.flushes t hf), hTg]
  rw [total_cons, total_nil, R.right_id]

/-- The rows of a grid, thread after thread. -/
def gridRows (grid : Grid) : List ℕ := grid.flatten.flatten.flatten

omit hk in
theorem flatMap_groupUpdates (parts : List (List ℕ)) (g : ℕ) :
    parts.flatMap (fun rows => groupUpdates inp.rowToGroup update rows g) =
      groupUpdates inp.rowToGroup update parts.flatten g := by
  induction parts with
  | nil => rfl
  | cons rows parts ih =>
    rw [List.flatMap_cons, ih, List.flatten_cons]
    simp [groupUpdates]

/-- The buffer cell of a group after all flushes, in any order, on any grid that splits the rows. -/
theorem getD_runFlushes {grid : Grid} {nRows : ℕ} (hgrid : (gridRows grid).Perm (List.range nRows))
    {order : List (ℕ × Word)} (horder : order.Perm (gridFlushes fl inp k update grid))
    (hcap : inp.nGroups ≤ maxGroups) {g : ℕ} (hg : g < inp.nGroups) :
    (runFlushes fl k (List.replicate inp.nGroups R.identity) order).getD g 0 =
      total R (groupUpdates inp.rowToGroup update (List.range nRows) g) := by
  have hmin : g < min maxGroups inp.nGroups := by omega
  have hrun : runFlushes fl k (List.replicate inp.nGroups R.identity) order =
      scatter R (List.replicate inp.nGroups R.identity) order := by
    rw [runFlushes, hk.flush]
    rfl
  rw [hrun, getD_scatter R _ _ (by simpa using hg), getD_of_lt _ (by simpa using hg),
    List.getElem_replicate, R.left_id, total_perm R (valuesAt_perm horder g), gridFlushes,
    valuesAt_flatMap, ← total_map_total]
  have htgs : grid.map (fun tg => total R (valuesAt g (tgFlushes fl inp k update tg))) =
      grid.map (fun tg => total R (tg.flatMap (fun sg =>
        sg.flatMap (fun rows => groupUpdates inp.rowToGroup update rows g)))) :=
    List.map_congr_left (fun tg _ => total_tgFlushes hk tg hmin)
  rw [htgs, total_map_total]
  have hflat : (grid.flatMap fun tg => tg.flatMap (fun sg =>
      sg.flatMap (fun rows => groupUpdates inp.rowToGroup update rows g))) =
      groupUpdates inp.rowToGroup update (gridRows grid) g := by
    rw [gridRows, ← flatMap_groupUpdates]
    simp only [List.flatten_eq_flatMap, List.flatMap_assoc, id]
  rw [hflat]
  exact total_perm R (((hgrid.filter _)).filterMap _)

omit hk in
theorem length_runFlushes (out : List Word) (order : List (ℕ × Word)) :
    (runFlushes fl k out order).length = out.length := by
  induction order generalizing out with
  | nil => rfl
  | cons t order ih => rw [runFlushes, List.foldl_cons, ← runFlushes, ih, List.length_modify]

end Kernel

/-! The dispatcher's own grid is such a split. -/

theorem flatMap_range_mul {α : Type*} (a b : ℕ) (f : ℕ → List α) :
    (List.range a).flatMap (fun i => (List.range b).flatMap (fun j => f (i * b + j))) =
      (List.range (a * b)).flatMap f := by
  induction a with
  | zero => simp
  | succ a ih =>
    rw [List.range_succ, List.flatMap_append, ih, Nat.succ_mul, List.range_add, List.flatMap_append]
    simp [List.flatMap_map]

theorem gridRows_fusedGrid (nRows : ℕ) :
    (gridRows (fusedGrid nRows)).Perm (List.range nRows) := by
  set nTgs := max 1 (min fusedMaxTgs ((nRows + fusedTgWidth - 1) / fusedTgWidth)) with hn
  have hrows : gridRows (fusedGrid nRows) =
      bucketPass (nTgs * 256) (fun row => row % (nTgs * 256)) (List.range nRows) := by
    have htg : ∀ tg, (List.range 8).flatMap (fun sg => (List.range 32).flatMap
        (fun lane => stridedRows nRows (nTgs * 256) (tg * 256 + (sg * 32 + lane)))) =
        (List.range 256).flatMap (fun t => stridedRows nRows (nTgs * 256) (tg * 256 + t)) :=
      fun tg => flatMap_range_mul 8 32 (fun t => stridedRows nRows (nTgs * 256) (tg * 256 + t))
    have hall := flatMap_range_mul nTgs 256 (fun t => stridedRows nRows (nTgs * 256) t)
    rw [bucketPass]
    refine Eq.trans ?_ hall
    simp only [gridRows, fusedGrid, List.flatten_eq_flatMap, List.flatMap_map, id,
      List.flatMap_assoc, fusedTgWidth, simdWidth, ← htg, Nat.add_assoc]
    rfl
  rw [hrows]
  refine bucketPass_perm (fun row _ => Nat.mod_lt _ ?_)
  have : 1 ≤ nTgs := Nat.le_max_left _ _
  omega

/-! The per-aggregate kernels. -/

/-- A row's word where the row is valid. -/
def validValue (values : List Word) (valid : List UInt8) (row : ℕ) : Option Word :=
  if bitAt valid row = 0 then none else some (values.getD row 0)

theorem length_foldl_aggThread (combine : Word → Word → Word) (values : List Word)
    (valid : List UInt8) (rowToGroup : List ℕ) (nRows : ℕ) (threads : List ℕ) (out : List Word) :
    (threads.foldl (aggThread combine values valid rowToGroup nRows) out).length = out.length := by
  induction threads generalizing out with
  | nil => rfl
  | cons t ts ih =>
    rw [List.foldl_cons, ih, aggThread]
    split_ifs
    · rfl
    · rfl
    · exact List.length_modify ..

/-- Atomic updates by one thread per row, in any order, leave each group's total. -/
theorem getD_foldl_aggThread {R : Reduction Word} {values : List Word} {valid : List UInt8}
    {rowToGroup : List ℕ} {nRows nGroups : ℕ} {threads : List ℕ}
    (hthreads : threads.Perm (List.range nRows)) {g : ℕ} (hg : g < nGroups) :
    (threads.foldl (aggThread R.combine values (valid.take ((nRows + 7) / 8)) rowToGroup nRows)
        (List.replicate nGroups R.identity)).getD g 0 =
      total R (groupUpdates rowToGroup (validValue values valid) (List.range nRows) g) := by
  have hrun : ∀ (ts : List ℕ) (out : List Word), (∀ t ∈ ts, t < nRows) → out.length = nGroups →
      (ts.foldl (aggThread R.combine values (valid.take ((nRows + 7) / 8)) rowToGroup nRows) out) =
        scatter R out (rowUpdates rowToGroup nGroups (validValue values valid) ts) := by
    intro ts
    induction ts with
    | nil => intro out _ _; rfl
    | cons t ts ih =>
      intro out hts hlen
      obtain ⟨ht, hrest⟩ := List.forall_mem_cons.1 hts
      rw [List.foldl_cons, rowUpdates_cons, aggThread, if_neg (by omega), bitAt_take ht,
        validValue]
      by_cases hbit : bitAt valid t = 0
      · rw [if_pos hbit, if_pos hbit, ih out hrest hlen]
        simp
      · rw [if_neg hbit, if_neg hbit, ih _ hrest (by rwa [List.length_modify])]
        by_cases hge : rowToGroup.getD t 0 ≥ nGroups
        · rw [if_pos hge, List.modify_eq_self (by omega)]
          rfl
        · rw [if_neg hge]
          rfl
  rw [hrun threads _ (fun t ht => List.mem_range.1 (hthreads.mem_iff.1 ht)) (by simp),
    getD_scatter R _ _ (by simpa using hg), getD_of_lt _ (by simpa using hg),
    List.getElem_replicate, R.left_id, valuesAt_rowUpdates threads hg]
  exact total_perm R ((hthreads.filter _).filterMap _)

theorem countThread_eq (valid : List UInt8) (rowToGroup : List ℕ) (nRows : ℕ) :
    countThread valid rowToGroup nRows =
      aggThread addReduction.combine (List.replicate nRows 1) valid rowToGroup nRows := by
  funext out gid
  rw [countThread, aggThread]
  by_cases h : gid ≥ nRows
  · rw [if_pos h, if_pos h]
  · have hone : (List.replicate nRows (1 : Word)).getD gid 0 = 1 := by
      rw [getD_of_lt _ (by simpa using h)]
      simp
    rw [if_neg h, if_neg h, hone]
    rfl

/-- A total of ones counts them. -/
theorem total_ones {xs : List Word} (h : ∀ x ∈ xs, x = 1) :
    total addReduction xs = BitVec.ofNat 32 xs.length := by
  induction xs with
  | nil => rfl
  | cons x xs ih =>
    obtain ⟨rfl, hrest⟩ := List.forall_mem_cons.1 h
    rw [total_cons, ih hrest, List.length_cons, Nat.add_comm]
    exact (BitVec.ofNat_add _ _).symm

end PolarsMetal.GroupBy
