import PolarsMetal.Lib.Barriers
import PolarsMetal.Lib.GridPath
import Mathlib.Algebra.Order.Ring.Defs

/-! Banded dynamic time warping. One threadgroup a query: its threads load the reference and the
first row together, then one of them runs the dynamic program over two rolling rows. -/

namespace PolarsMetal.Dtw
open Interleave Barriers GridPath

def tgSize : ℕ := 32

def maxL : ℕ := 1024

inductive DtwError where
  | seqLenOutOfRange (l : ℕ)
deriving DecidableEq

/-- A threadgroup's memory. -/
structure TgMem (R : Type) where
  refS : ℕ → R
  rowA : ℕ → WithTop R
  rowB : ℕ → WithTop R

structure Args (R : Type) where
  queries : List R
  reference : List R
  nPairs : ℕ
  seqLen : ℕ
  window : ℤ

namespace Args

variable {R : Type} [CommRing R] [LinearOrder R] (a : Args R)

def loadRef (j : ℕ) (m : TgMem R) : TgMem R :=
  { m with refS := Function.update m.refS j (a.reference.getD j 0) }

/-- `D[0, *]` -/
def initRow (j : ℕ) (m : TgMem R) : TgMem R :=
  { m with rowA := Function.update m.rowA j (if j = 0 then 0 else ⊤) }

/-- The cooperative load of the reference and the first row. -/
def load : Phase (TgMem R) := fun tid =>
  (strided tid tgSize a.seqLen).map a.loadRef ++ (strided tid tgSize (a.seqLen + 1)).map initRow

/-- The first cell of row `i` in the band. -/
def jlo (i : ℕ) : ℕ :=
  let lo : ℤ := i - a.window
  if a.window ≥ 0 ∧ lo > 1 then lo.toNat else 1

/-- The last one. -/
def jhi (i : ℕ) : ℕ :=
  let hi : ℤ := i + a.window
  if a.window ≥ 0 ∧ hi < a.seqLen then hi.toNat else a.seqLen

def fill (js : List ℕ) (cur : ℕ → WithTop R) : ℕ → WithTop R :=
  js.foldl (fun cur j => Function.update cur j ⊤) cur

/-- The columns `start ..= stop`. -/
def columns (start stop : ℕ) : List ℕ := List.range' start (stop + 1 - start)

def queryAt (pair i : ℕ) : R := a.queries.getD (pair * a.seqLen + (i - 1)) 0

def band (refS : ℕ → R) (qi : R) (prev cur : ℕ → WithTop R) (js : List ℕ) : ℕ → WithTop R :=
  js.foldl (fun cur j =>
    let d := qi - refS (j - 1)
    let cost : WithTop R := ((d * d : R) : WithTop R)
    let m := min (min (prev j) (cur (j - 1))) (prev (j - 1))
    Function.update cur j (cost + m)) cur

/-- One row of the program; the rows trade places afterwards. -/
def rowStep (pair : ℕ) (refS : ℕ → R) (rows : (ℕ → WithTop R) × (ℕ → WithTop R)) (i : ℕ) :
    (ℕ → WithTop R) × (ℕ → WithTop R) :=
  let (prev, cur) := rows
  let cur := Function.update cur 0 ⊤
  let cur := if a.window ≥ 0 then fill (columns 1 (a.jlo i - 1)) cur else cur
  let cur := band refS (a.queryAt pair i) prev cur (columns (a.jlo i) (a.jhi i))
  let cur := fill (columns (a.jhi i + 1) a.seqLen) cur
  (cur, prev)

/-- `prev` and `cur` after the rows up to `i`. -/
def rows (pair i : ℕ) (m : TgMem R) : (ℕ → WithTop R) × (ℕ → WithTop R) :=
  (columns 1 i).foldl (a.rowStep pair m.refS) (m.rowA, m.rowB)

/-- The memory when the load has met its barrier; `m` is what the memory held at launch. -/
def loaded (m : TgMem R) (turns : ℕ → List ℕ) : TgMem R := runPhases tgSize [a.load] turns m

/-- What `dtw_banded` takes the root of. -/
def dtwBanded (pair : ℕ) (m : TgMem R) (turns : ℕ → List ℕ) : WithTop R :=
  (a.rows pair a.seqLen (a.loaded m turns)).1 a.seqLen

end Args

variable {R : Type} [CommRing R] [LinearOrder R]

/-- The output; threadgroup `pair` starts from the memory `m pair` and takes the turns `turns pair`. -/
def dispatchDtwBuf {W : Type} (sqrt : WithTop R → W) (a : Args R) (m : ℕ → TgMem R)
    (turns : ℕ → ℕ → List ℕ) : Except DtwError (List W) :=
  if a.seqLen = 0 ∨ a.seqLen > maxL then .error (.seqLenOutOfRange a.seqLen)
  else .ok ((List.range a.nPairs).map fun pair => sqrt (a.dtwBanded pair (m pair) (turns pair)))

/-! What the program computes. -/

namespace Args

variable (a : Args R)

/-- The cells of the sequences that lie in the band. -/
def InBand (i j : ℕ) : Prop :=
  i ≤ a.seqLen ∧ j ≤ a.seqLen ∧ (a.window < 0 ∨ |(i : ℤ) - j| ≤ a.window)

instance : DecidableRel a.InBand := fun _ _ => inferInstanceAs (Decidable (_ ∧ _ ∧ _))

/-- The squared difference of a cell. -/
def cellCost (pair i j : ℕ) : R := (a.queryAt pair i - a.reference.getD (j - 1) 0) ^ 2

end Args

/-! The loops of a row. -/

section Row

variable {a : Args R} {pair : ℕ}

theorem mem_columns {start stop j : ℕ} : j ∈ Args.columns start stop ↔ start ≤ j ∧ j ≤ stop := by
  unfold Args.columns
  rw [List.mem_range'_1]
  omega

omit [CommRing R] [LinearOrder R] in
theorem fill_apply (js : List ℕ) (cur : ℕ → WithTop R) (j : ℕ) :
    Args.fill js cur j = if j ∈ js then ⊤ else cur j := by
  unfold Args.fill
  induction js using List.reverseRecOn with
  | nil => rfl
  | append_singleton js k ih =>
    rw [List.foldl_append, List.foldl_cons, List.foldl_nil, Function.update_apply, ih]
    by_cases hj : j = k <;> simp [hj]

/-- Left of the band and right of it a row keeps what it held. -/
theorem band_frame (refS : ℕ → R) (qi : R) (prev cur : ℕ → WithTop R) (js : List ℕ) {j : ℕ}
    (hj : j ∉ js) : Args.band refS qi prev cur js j = cur j := by
  unfold Args.band
  induction js using List.reverseRecOn with
  | nil => rfl
  | append_singleton js k ih =>
    rw [List.mem_append, List.mem_singleton, not_or] at hj
    rw [List.foldl_append, List.foldl_cons, List.foldl_nil, Function.update_apply, if_neg hj.2, ih hj.1]

/-- Inside it every cell is computed from the row above and from the cell on its left. -/
theorem band_apply (refS : ℕ → R) (qi : R) (prev cur : ℕ → WithTop R) (start len : ℕ)
    (hstart : 1 ≤ start) {j : ℕ} (hj : start ≤ j ∧ j < start + len) :
    Args.band refS qi prev cur (List.range' start len) j =
      (((qi - refS (j - 1)) * (qi - refS (j - 1)) : R) : WithTop R) +
        min (min (prev j) (Args.band refS qi prev cur (List.range' start len) (j - 1))) (prev (j - 1)) := by
  induction len with
  | zero => omega
  | succ len ih =>
    have hlast : Args.band refS qi prev cur (List.range' start (len + 1)) =
        Function.update (Args.band refS qi prev cur (List.range' start len)) (start + len)
          ((((qi - refS (start + len - 1)) * (qi - refS (start + len - 1)) : R) : WithTop R) +
            min (min (prev (start + len))
              (Args.band refS qi prev cur (List.range' start len) (start + len - 1)))
              (prev (start + len - 1))) := by
      unfold Args.band
      rw [List.range'_concat, Nat.one_mul, List.foldl_append]
      rfl
    rw [hlast]
    by_cases hlt : j = start + len
    · subst hlt
      rw [Function.update_self, Function.update_of_ne (by omega)]
    · rw [Function.update_of_ne hlt, Function.update_of_ne (by omega), ih (by omega)]

omit [CommRing R] [LinearOrder R] in
theorem one_le_jlo (i : ℕ) : 1 ≤ a.jlo i := by
  unfold Args.jlo
  simp only
  split_ifs <;> omega

omit [CommRing R] [LinearOrder R] in
theorem jhi_le (i : ℕ) : a.jhi i ≤ a.seqLen := by
  unfold Args.jhi
  simp only
  split_ifs <;> omega

omit [CommRing R] [LinearOrder R] in
/-- The band's limits are those of the kernel's loops. -/
theorem inBand_iff {i j : ℕ} (hi : i ≤ a.seqLen) (hj : 1 ≤ j ∧ j ≤ a.seqLen) :
    a.InBand i j ↔ a.jlo i ≤ j ∧ j ≤ a.jhi i := by
  unfold Args.InBand Args.jlo Args.jhi
  rw [abs_le]
  simp only
  split_ifs <;> omega

section Step

variable {refS : ℕ → R} {prev cur : ℕ → WithTop R} {i : ℕ}

omit [CommRing R] [LinearOrder R] in
/-- The row as it is when the band's loop starts: infinite up to the band. -/
theorem left_of_band {j : ℕ} (hj : j < a.jlo (i + 1)) :
    (if a.window ≥ 0 then Args.fill (Args.columns 1 (a.jlo (i + 1) - 1)) (Function.update cur 0 ⊤)
      else Function.update cur 0 ⊤) j = ⊤ := by
  by_cases hzero : j = 0
  · subst hzero
    split_ifs
    · rw [fill_apply, Function.update_self, ite_self]
    · exact Function.update_self _ _ _
  · have hwindow : a.window ≥ 0 := by
      unfold Args.jlo at hj
      simp only at hj
      split_ifs at hj with h
      · exact h.1
      · omega
    rw [if_pos hwindow, fill_apply, if_pos (mem_columns.2 ⟨by omega, by omega⟩)]

/-- One row of the table from the one above, whatever the other row held before. -/
theorem rowStep_table (hrefS : ∀ j < a.seqLen, refS j = a.reference.getD j 0) (hi : i + 1 ≤ a.seqLen)
    (hprev : ∀ j ≤ a.seqLen, prev j = table a.InBand (a.cellCost pair) i j) {j : ℕ}
    (hj : j ≤ a.seqLen) :
    (a.rowStep pair refS (prev, cur) (i + 1)).1 j = table a.InBand (a.cellCost pair) (i + 1) j := by
  set start := if a.window ≥ 0 then
      Args.fill (Args.columns 1 (a.jlo (i + 1) - 1)) (Function.update cur 0 ⊤)
    else Function.update cur 0 ⊤ with hstart
  set row := Args.band refS (a.queryAt pair (i + 1)) prev start
    (Args.columns (a.jlo (i + 1)) (a.jhi (i + 1))) with hrow
  have houtside : ∀ k, 1 ≤ k → k ≤ a.seqLen → ¬(a.jlo (i + 1) ≤ k ∧ k ≤ a.jhi (i + 1)) →
      table a.InBand (a.cellCost pair) (i + 1) k = ⊤ := by
    intro k hk hkL hnot
    obtain ⟨k, rfl⟩ := Nat.exists_eq_add_of_le' hk
    rw [table_succ_succ, if_neg (fun hin => hnot ((inBand_iff hi ⟨hk, hkL⟩).1 hin))]
  have hband : ∀ k ≤ a.jhi (i + 1), row k = table a.InBand (a.cellCost pair) (i + 1) k := by
    intro k
    induction k with
    | zero =>
      intro _
      have hlo := @one_le_jlo _ a (i + 1)
      rw [hrow, band_frame _ _ _ _ _ (fun hmem => by have := mem_columns.1 hmem; omega),
        table_succ_zero, hstart, left_of_band (by omega)]
    | succ k ih =>
      intro hk
      have hkL : k + 1 ≤ a.seqLen := hk.trans (jhi_le _)
      by_cases hlo : a.jlo (i + 1) ≤ k + 1
      · have hin : a.InBand (i + 1) (k + 1) := (inBand_iff hi ⟨by omega, hkL⟩).2 ⟨hlo, hk⟩
        have hcell := band_apply refS (a.queryAt pair (i + 1)) prev start (a.jlo (i + 1))
          (a.jhi (i + 1) + 1 - a.jlo (i + 1)) (one_le_jlo _) (j := k + 1) ⟨hlo, by omega⟩
        change row (k + 1) = _ + min (min _ (row (k + 1 - 1))) _ at hcell
        rw [hcell, Nat.add_sub_cancel, ih (by omega), hprev _ hkL, hprev k (by omega),
          hrefS k (by omega), table_succ_succ, if_pos hin, Args.cellCost, Nat.add_sub_cancel, pow_two]
      · rw [hrow, band_frame _ _ _ _ _ (fun hmem => hlo (mem_columns.1 hmem).1), hstart,
          left_of_band (by omega), houtside _ (by omega) hkL (fun h => hlo h.1)]
  change Args.fill (Args.columns (a.jhi (i + 1) + 1) a.seqLen) row j = _
  rw [fill_apply]
  by_cases hhi : j ≤ a.jhi (i + 1)
  · rw [if_neg (fun hmem => by have := mem_columns.1 hmem; omega), hband j hhi]
  · rw [if_pos (mem_columns.2 ⟨by omega, hj⟩), houtside j (by omega) hj (fun h => hhi h.2)]

end Step

/-- Every row of the run is a row of the table. -/
theorem rows_table {m : TgMem R} (hrefS : ∀ j < a.seqLen, m.refS j = a.reference.getD j 0)
    (hrowA : ∀ j ≤ a.seqLen, m.rowA j = if j = 0 then 0 else ⊤) {i : ℕ} (hi : i ≤ a.seqLen) {j : ℕ}
    (hj : j ≤ a.seqLen) :
    (a.rows pair i m).1 j = table a.InBand (a.cellCost pair) i j := by
  induction i generalizing j with
  | zero =>
    change m.rowA j = _
    rw [hrowA j hj]
    cases j with
    | zero => rw [if_pos rfl, table_zero_zero]
    | succ j => rw [if_neg (Nat.succ_ne_zero j), table_zero_succ]
  | succ i ih =>
    have hstep : a.rows pair (i + 1) m = a.rowStep pair m.refS (a.rows pair i m) (i + 1) := by
      unfold Args.rows Args.columns
      rw [Nat.add_sub_cancel, Nat.add_sub_cancel, List.range'_concat, Nat.one_mul, List.foldl_append,
        Nat.add_comm 1 i]
      rfl
    rw [hstep]
    exact rowStep_table hrefS hi (fun k hk => ih (by omega) hk) hj

end Row

/-! The load. -/

section Load

variable {a : Args R} {m : TgMem R} {turns : List ℕ}

/-- The cells a loop of stores sets, and those it leaves. -/
theorem foldl_store {Mem V : Type} (view : Mem → V) (store : ℕ → Mem → Mem) (value : ℕ → V) (j : ℕ)
    (hself : ∀ m, view (store j m) = value j) (hother : ∀ i ≠ j, ∀ m, view (store i m) = view m)
    (js : List ℕ) (m : Mem) :
    view ((js.map store).foldl (fun m op => op m) m) = if j ∈ js then value j else view m := by
  induction js using List.reverseRecOn with
  | nil => rfl
  | append_singleton js i ih =>
    rw [List.map_append, List.foldl_append]
    change view (store i ((js.map store).foldl (fun m op => op m) m)) = _
    by_cases hi : i = j
    · rw [hi, hself, if_pos (by simp)]
    · rw [hother i hi, ih]
      simp [Ne.symm hi]

theorem foldl_keep {Mem V : Type} (view : Mem → V) (store : ℕ → Mem → Mem)
    (hkeep : ∀ i m, view (store i m) = view m) (js : List ℕ) (m : Mem) :
    view ((js.map store).foldl (fun m op => op m) m) = view m := by
  induction js generalizing m with
  | nil => rfl
  | cons i js ih => exact (ih (store i m)).trans (hkeep i m)

omit [LinearOrder R] in
theorem refS_load (hcomplete : Complete (ofGroup tgSize a.load) tgSize turns) {j : ℕ}
    (hj : j < a.seqLen) : (runPhase tgSize a.load m turns).refS j = a.reference.getD j 0 := by
  have hlt : j % tgSize < tgSize := Nat.mod_lt j (by decide)
  refine (runPhase_view (fun m => m.refS j) hcomplete hlt (fun m m' hm op hop => ?_)
    fun u hu hne op hop m => ?_).trans ?_
  · obtain hop | hop := List.mem_append.1 hop
    · obtain ⟨i, -, rfl⟩ := List.mem_map.1 hop
      simp only [Args.loadRef, Function.update_apply, hm]
    · obtain ⟨i, -, rfl⟩ := List.mem_map.1 hop
      exact hm
  · obtain hop | hop := List.mem_append.1 hop
    · obtain ⟨i, hi, rfl⟩ := List.mem_map.1 hop
      have hij : j ≠ i := fun h => hne (by rw [h]; exact ((mem_strided hu).1 hi).2.symm)
      exact Function.update_of_ne hij _ _
    · obtain ⟨i, -, rfl⟩ := List.mem_map.1 hop
      rfl
  · unfold Args.load
    rw [List.foldl_append, foldl_keep (fun m : TgMem R => m.refS j) Args.initRow (fun _ _ => rfl),
      foldl_store (fun m : TgMem R => m.refS j) a.loadRef (fun j => a.reference.getD j 0) j
        (fun m => Function.update_self _ _ _) (fun i hi m => Function.update_of_ne hi.symm _ _),
      if_pos ((mem_strided hlt).2 ⟨hj, rfl⟩)]

omit [LinearOrder R] in
theorem rowA_load (hcomplete : Complete (ofGroup tgSize a.load) tgSize turns) {j : ℕ}
    (hj : j ≤ a.seqLen) : (runPhase tgSize a.load m turns).rowA j = if j = 0 then 0 else ⊤ := by
  have hlt : j % tgSize < tgSize := Nat.mod_lt j (by decide)
  refine (runPhase_view (fun m => m.rowA j) hcomplete hlt (fun m m' hm op hop => ?_)
    fun u hu hne op hop m => ?_).trans ?_
  · obtain hop | hop := List.mem_append.1 hop
    · obtain ⟨i, -, rfl⟩ := List.mem_map.1 hop
      exact hm
    · obtain ⟨i, -, rfl⟩ := List.mem_map.1 hop
      simp only [Args.initRow, Function.update_apply, hm]
  · obtain hop | hop := List.mem_append.1 hop
    · obtain ⟨i, -, rfl⟩ := List.mem_map.1 hop
      rfl
    · obtain ⟨i, hi, rfl⟩ := List.mem_map.1 hop
      have hij : j ≠ i := fun h => hne (by rw [h]; exact ((mem_strided hu).1 hi).2.symm)
      exact Function.update_of_ne hij _ _
  · unfold Args.load
    rw [List.foldl_append,
      foldl_store (fun m : TgMem R => m.rowA j) Args.initRow (fun j => if j = 0 then 0 else ⊤) j
        (fun m => Function.update_self _ _ _) (fun i hi m => Function.update_of_ne hi.symm _ _),
      if_pos ((mem_strided hlt).2 ⟨by omega, rfl⟩)]

end Load

theorem loaded_rows_table {a : Args R} {m : TgMem R} {turns : ℕ → List ℕ}
    (hturns : CompletePhases tgSize [a.load] turns) (pair : ℕ) {i j : ℕ} (hi : i ≤ a.seqLen)
    (hj : j ≤ a.seqLen) :
    (a.rows pair i (a.loaded m turns)).1 j = table a.InBand (a.cellCost pair) i j :=
  rows_table (fun _ hk => refS_load hturns.1 hk) (fun _ hk => rowA_load hturns.1 hk) hi hj

omit [CommRing R] [LinearOrder R] in
/-- The diagonal is always in the band. -/
theorem diagonal_path {a : Args R} {i : ℕ} (hi : i + 1 ≤ a.seqLen) :
    ∃ p, PathTo a.InBand (i + 1) (i + 1) p := by
  have hin : ∀ k ≤ a.seqLen, a.InBand k k := by
    intro k hk
    refine ⟨hk, hk, ?_⟩
    rw [sub_self, abs_zero]
    exact lt_or_ge _ _
  induction i with
  | zero => exact ⟨_, PathTo.start (hin 1 hi)⟩
  | succ i ih =>
    obtain ⟨p, hp⟩ := ih (by omega)
    exact ⟨_, PathTo.diagonal hp (hin _ hi)⟩

/-- For every pair the kernel writes the root of the least cost of a warping path in the band, and
after every row each cell of the rolling row just written is the greatest lower bound of the costs
of the paths to it: their minimum, or infinity where there is none. -/
theorem dispatchDtwBuf_optimal {R W : Type} [CommRing R] [LinearOrder R] [IsStrictOrderedRing R]
    (a : Args R) (hlen : 1 ≤ a.seqLen ∧ a.seqLen ≤ 1024) (sqrt : WithTop R → W) (m : ℕ → TgMem R)
    (turns : ℕ → ℕ → List ℕ) (hturns : ∀ pair, CompletePhases tgSize [a.load] (turns pair)) :
    (∃ best : ℕ → R, dispatchDtwBuf sqrt a m turns =
        .ok ((List.range a.nPairs).map fun pair => sqrt (best pair)) ∧
      ∀ pair, IsLeast {c | ∃ p, PathTo a.InBand a.seqLen a.seqLen p ∧ pathCost (a.cellCost pair) p = c}
        (best pair)) ∧
    ∀ pair i j, 1 ≤ i → i ≤ a.seqLen → 1 ≤ j → j ≤ a.seqLen →
      IsGLB {c : WithTop R | ∃ p, PathTo a.InBand i j p ∧ (pathCost (a.cellCost pair) p : R) = c}
        ((a.rows pair i (a.loaded (m pair) (turns pair))).1 j) := by
  have hcorner : ∀ pair, ∃ best : R,
      a.dtwBanded pair (m pair) (turns pair) = best ∧
      IsLeast {c | ∃ p, PathTo a.InBand a.seqLen a.seqLen p ∧ pathCost (a.cellCost pair) p = c}
        best := by
    intro pair
    have htable : a.dtwBanded pair (m pair) (turns pair) =
        table a.InBand (a.cellCost pair) a.seqLen a.seqLen :=
      loaded_rows_table (hturns pair) pair le_rfl le_rfl
    obtain ⟨l, hl⟩ := Nat.exists_eq_add_of_le' hlen.1
    obtain ⟨p, hp⟩ := @diagonal_path _ a l hl.ge
    rw [← hl] at hp
    have hle := @table_le_pathCost _ _ (a.cellCost pair) _ _ _ _ _ _ _ hp
    obtain ⟨best, hbest⟩ := WithTop.ne_top_iff_exists.1 (ne_top_of_le_ne_top WithTop.coe_ne_top hle)
    refine ⟨best, htable.trans hbest.symm, exists_path hlen.1 hlen.1 hbest.symm, fun c hc => ?_⟩
    obtain ⟨p', hp', rfl⟩ := hc
    have hle' := @table_le_pathCost _ _ (a.cellCost pair) _ _ _ _ _ _ _ hp'
    rwa [← hbest, WithTop.coe_le_coe] at hle'
  refine ⟨?_, fun pair i j hi hiL hj hjL => ?_⟩
  · choose best hbest hleast using hcorner
    refine ⟨best, ?_, hleast⟩
    unfold dispatchDtwBuf
    rw [if_neg (by unfold maxL; omega)]
    simp only [hbest]
  · rw [loaded_rows_table (hturns pair) pair hiL hjL]
    exact table_isGLB hi hj

/-- Two samples a side, on the diagonal only. -/
theorem dispatchDtwBuf_optimal_diagonal : ∃ best : ℤ,
    dispatchDtwBuf id ⟨[1, 2], [2, 1], 1, 2, 0⟩ (fun _ => ⟨fun _ => 5, fun _ => 5, fun _ => 5⟩)
      (fun _ _ => rounds 2 tgSize) = .ok [(best : WithTop ℤ)] ∧
    IsLeast {c | ∃ p, PathTo (Args.InBand (⟨[1, 2], [2, 1], 1, 2, 0⟩ : Args ℤ)) 2 2 p ∧
      pathCost (Args.cellCost ⟨[1, 2], [2, 1], 1, 2, 0⟩ 0) p = c} best := by
  have hturns : CompletePhases tgSize [Args.load (⟨[1, 2], [2, 1], 1, 2, 0⟩ : Args ℤ)]
      (fun _ => rounds 2 tgSize) :=
    completePhases_rounds 2 (by simp only [List.forall_mem_singleton]; decide)
  obtain ⟨⟨best, hrun, hleast⟩, -⟩ := dispatchDtwBuf_optimal (⟨[1, 2], [2, 1], 1, 2, 0⟩ : Args ℤ)
    (by decide) id (fun _ => ⟨fun _ => 5, fun _ => 5, fun _ => 5⟩) (fun _ _ => rounds 2 tgSize)
    (fun _ => hturns)
  exact ⟨best 0, hrun, hleast 0⟩

end PolarsMetal.Dtw
