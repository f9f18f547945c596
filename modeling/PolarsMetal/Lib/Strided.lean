import PolarsMetal.Lib.Grid
import Mathlib.Data.List.Nodup

/-! Strided loops whose iterations do not meet: what an iteration leaves in the part of the memory that
only it touches. -/

namespace Barriers
open Interleave

theorem nodup_strided (tid size stop : ℕ) (hsize : 0 < size) : (strided tid size stop).Nodup := by
  unfold strided
  refine List.Nodup.map (fun a b h => ?_) List.nodup_range
  exact Nat.eq_of_mul_eq_mul_right hsize (Nat.add_left_cancel h)

variable {Mem View : Type*} {body : ℕ → List (Mem → Mem)} {size stop : ℕ} {turns : List ℕ}

/-- `for (i = tid; i < stop; i += size)` -/
def loopPhase (size stop : ℕ) (body : ℕ → List (Mem → Mem)) : Phase Mem := fun tid =>
  (strided tid size stop).flatMap body

/-- Iterations taken once each, of which the view sees one. -/
theorem foldl_flatMap_view {idxs : List ℕ} (hnodup : idxs.Nodup) {view : Mem → View} {j : ℕ}
    (hown : ∀ op ∈ body j, ∀ m m', view m = view m' → view (op m) = view (op m'))
    (hother : ∀ i ∈ idxs, i ≠ j → ∀ op ∈ body i, ∀ m, view (op m) = view m) (m : Mem) :
    view ((idxs.flatMap body).foldl (fun m op => op m) m) =
      if j ∈ idxs then view ((body j).foldl (fun m op => op m) m) else view m := by
  have hkeep : ∀ ops : List (Mem → Mem), (∀ op ∈ ops, ∀ m, view (op m) = view m) → ∀ m,
      view (ops.foldl (fun m op => op m) m) = view m := by
    intro ops hops
    induction ops with
    | nil => exact fun m => rfl
    | cons op ops ih =>
      intro m
      rw [List.foldl_cons, ih fun o ho => hops o (List.mem_cons_of_mem _ ho)]
      exact hops op List.mem_cons_self m
  have hcongr : ∀ ops : List (Mem → Mem), ops ⊆ body j → ∀ m m', view m = view m' →
      view (ops.foldl (fun m op => op m) m) = view (ops.foldl (fun m op => op m) m') := by
    intro ops hops
    induction ops with
    | nil => exact fun m m' h => h
    | cons op ops ih =>
      intro m m' h
      exact ih (fun o ho => hops (List.mem_cons_of_mem _ ho)) _ _
        (hown op (hops List.mem_cons_self) m m' h)
  induction idxs generalizing m with
  | nil => rfl
  | cons idx idxs ih =>
    obtain ⟨hnotin, hnodup⟩ := List.nodup_cons.1 hnodup
    rw [List.flatMap_cons, List.foldl_append,
      ih hnodup fun i hi => hother i (List.mem_cons_of_mem _ hi)]
    by_cases hj : j = idx
    · subst hj
      rw [if_neg hnotin, if_pos List.mem_cons_self]
    · have hidx := hkeep _ (hother idx List.mem_cons_self (Ne.symm hj)) m
      by_cases hmem : j ∈ idxs
      · rw [if_pos hmem, if_pos (List.mem_cons_of_mem _ hmem)]
        exact hcongr _ (List.Subset.refl _) _ _ hidx
      · rw [if_neg hmem, if_neg fun h => (List.mem_cons.1 h).elim hj hmem]
        exact hidx

/-- What only iteration `j` touches ends as if it had run alone. -/
theorem runPhase_loop (hsize : 0 < size)
    (hcomplete : Complete (ofGroup size (loopPhase size stop body)) size turns) (view : Mem → View)
    {j : ℕ} (hj : j < stop)
    (hown : ∀ op ∈ body j, ∀ m m', view m = view m' → view (op m) = view (op m'))
    (hother : ∀ i < stop, i ≠ j → ∀ op ∈ body i, ∀ m, view (op m) = view m) (m : Mem) :
    view (runPhase size (loopPhase size stop body) m turns) =
      view ((body j).foldl (fun m op => op m) m) := by
  have htid := Nat.mod_lt j hsize
  refine (runPhase_view view hcomplete htid (fun m m' hm op hop => ?_)
    fun u hu hne op hop m => ?_).trans ?_
  · obtain ⟨i, hi, hop⟩ := List.mem_flatMap.1 hop
    by_cases hij : i = j
    · exact hown op (hij ▸ hop) m m' hm
    · have hlt := ((mem_strided htid).1 hi).1
      rw [hother i hlt hij op hop, hother i hlt hij op hop, hm]
  · obtain ⟨i, hi, hop⟩ := List.mem_flatMap.1 hop
    obtain ⟨hlt, hmod⟩ := (mem_strided hu).1 hi
    exact hother i hlt (fun hij => hne (by rw [← hmod, hij])) op hop m
  · unfold loopPhase
    rw [foldl_flatMap_view (nodup_strided _ _ _ hsize) hown
      fun i hi => hother i ((mem_strided htid).1 hi).1, if_pos ((mem_strided htid).2 ⟨hj, rfl⟩)]

/-- What no iteration touches stays. -/
theorem runPhase_loop_frame (view : Mem → View)
    (hkeep : ∀ i < stop, ∀ op ∈ body i, ∀ m, view (op m) = view m) (m : Mem) (turns : List ℕ) :
    view (runPhase size (loopPhase size stop body) m turns) = view m := by
  refine runPhase_frame view (fun t ht op hop m => ?_) m turns
  obtain ⟨i, hi, hop⟩ := List.mem_flatMap.1 hop
  exact hkeep i ((mem_strided ht).1 hi).1 op hop m

end Barriers
