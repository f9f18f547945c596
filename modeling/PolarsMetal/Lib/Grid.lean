import PolarsMetal.Lib.Barriers
import Mathlib.Algebra.Order.BigOperators.Group.List
import Mathlib.Algebra.GroupWithZero.Nat
import Mathlib.Algebra.Order.Group.Nat

/-! Runs to the end, and grids of threadgroups. In a grid every group runs its phases with the turns
its threads take, and the groups' operations on the device's memory come in any order. -/

namespace Barriers
open Interleave Runs

variable {Mem Mem' Op Op' : Type*}

/-! Runs of one system seen as runs of another. -/

theorem exec_simulate {ops : ℕ → List Op} {ops' : ℕ → List Op'} {apply : Mem → Op → Mem}
    {apply' : Mem' → Op' → Mem'} (g : Op → Op') (view : Mem' → Mem)
    (hops : ∀ t, ops' t = (ops t).map g)
    (happly : ∀ m op, view (apply' m (g op)) = apply (view m) op) (m : Mem') (order : List ℕ) :
    view (exec ops' apply' m order) = exec ops apply (view m) order := by
  have hboth : view (run (step ops' apply') ⟨m, fun _ => 0⟩ order).mem =
        (run (step ops apply) ⟨view m, fun _ => 0⟩ order).mem ∧
      (run (step ops' apply') ⟨m, fun _ => 0⟩ order).taken =
        (run (step ops apply) ⟨view m, fun _ => 0⟩ order).taken := by
    induction order using List.reverseRecOn with
    | nil => exact ⟨rfl, rfl⟩
    | append_singleton order t ih =>
      obtain ⟨hmem, htaken⟩ := ih
      rw [run_append, run_append]
      show view (step ops' apply' _ t).mem = (step ops apply _ t).mem ∧
        (step ops' apply' _ t).taken = (step ops apply _ t).taken
      cases hop : (ops t)[(run (step ops apply) ⟨view m, fun _ => 0⟩ order).taken t]? with
      | none =>
        have hop' : (ops' t)[(run (step ops' apply') ⟨m, fun _ => 0⟩ order).taken t]? = none := by
          rw [hops, List.getElem?_map, htaken, hop]
          rfl
        rw [step_of_none apply hop, step_of_none apply' hop']
        exact ⟨hmem, htaken⟩
      | some op =>
        have hop' : (ops' t)[(run (step ops' apply') ⟨m, fun _ => 0⟩ order).taken t]? =
            some (g op) := by
          rw [hops, List.getElem?_map, htaken, hop]
          rfl
        rw [step_of_some apply hop, step_of_some apply' hop']
        refine ⟨?_, ?_⟩
        · show view (apply' _ (g op)) = apply _ op
          rw [happly, hmem]
        · show Function.update _ t _ = Function.update _ t _
          rw [htaken]
  exact hboth.1

/-- The operations in the order in which they take effect. -/
def trace (ops : ℕ → List Op) (order : List ℕ) : List Op :=
  exec ops (fun log op => log ++ [op]) [] order

theorem exec_eq_foldl_trace (ops : ℕ → List Op) (apply : Mem → Op → Mem) (m : Mem)
    (order : List ℕ) : exec ops apply m order = (trace ops order).foldl apply m := by
  refine (@exec_simulate Mem (List Op) Op Op ops ops apply (fun log op => log ++ [op]) id
    (fun log => log.foldl apply m) (fun t => (List.map_id _).symm) (fun log op => ?_) [] order).symm
  exact List.foldl_concat ..

theorem mem_trace {ops : ℕ → List Op} {order : List ℕ} {op : Op} (h : op ∈ trace ops order) :
    ∃ t, op ∈ ops t := by
  unfold trace exec at h
  induction order using List.reverseRecOn with
  | nil => cases h
  | append_singleton order t ih =>
    rw [run_append] at h
    change op ∈ (step ops (fun log op => log ++ [op]) _ t).mem at h
    cases hop : (ops t)[(run (step ops (fun log op => log ++ [op])) ⟨[], fun _ => 0⟩ order).taken
        t]? with
    | none =>
      rw [step_of_none _ hop] at h
      exact ih h
    | some op' =>
      rw [step_of_some _ hop] at h
      rcases List.mem_append.1 h with h | h
      · exact ih h
      · rw [List.mem_singleton.1 h]
        exact ⟨t, List.mem_of_getElem? hop⟩

/-! Runs to the end. -/

/-- The turns, and after them enough more for every thread to finish. -/
def finish (size : ℕ) (phase : Phase Mem) (turns : List ℕ) : List ℕ :=
  turns ++ rounds ((List.range size).map (fun t => (phase t).length)).sum size

theorem complete_finish (size : ℕ) (phase : Phase Mem) (turns : List ℕ) :
    Complete (ofGroup size phase) size (finish size phase turns) := by
  intro t ht
  have hle : (phase t).length ≤ ((List.range size).map (fun t => (phase t).length)).sum :=
    List.single_le_sum (fun _ _ => Nat.zero_le _) _
      (List.mem_map.2 ⟨t, List.mem_range.2 ht, rfl⟩)
  unfold finish
  rw [ofGroup_of_lt ht, List.count_append, count_rounds _ ht]
  omega

def finishAll (size : ℕ) : List (Phase Mem) → (ℕ → List ℕ) → ℕ → List ℕ
  | [], turns, k => turns k
  | phase :: _, turns, 0 => finish size phase (turns 0)
  | _ :: phases, turns, k + 1 => finishAll size phases (fun k => turns (k + 1)) k

theorem completePhases_finishAll (size : ℕ) (phases : List (Phase Mem)) (turns : ℕ → List ℕ) :
    CompletePhases size phases (finishAll size phases turns) := by
  induction phases generalizing turns with
  | nil => trivial
  | cons phase phases ih =>
    exact ⟨complete_finish size phase (turns 0), ih fun k => turns (k + 1)⟩

/-- The phases with these turns, each to its end. -/
def runGroup (size : ℕ) (phases : List (Phase Mem)) (turns : ℕ → List ℕ) (m : Mem) : Mem :=
  runPhases size phases (finishAll size phases turns) m

theorem Triple.runGroup {size : ℕ} {P Q : Mem → Prop} {phases : List (Phase Mem)}
    (h : Triple size P phases Q) (turns : ℕ → List ℕ) {m : Mem} (hm : P m) :
    Q (Barriers.runGroup size phases turns m) :=
  h _ m (completePhases_finishAll size phases turns) hm

/-! A phase whose operations read one part of the memory and write another. -/

section Written

variable {S V : Type*} (src : Mem → S) (cell : Mem → V) (v : S → V)

theorem foldl_written {ops : List (Mem → Mem)} (hsrc : ∀ op ∈ ops, ∀ m, src (op m) = src m)
    (hcell : ∀ op ∈ ops, (∀ m, cell (op m) = cell m) ∨ ∀ m, cell (op m) = v (src m)) (m : Mem) :
    src (ops.foldl (fun m op => op m) m) = src m ∧
      (cell m = v (src m) ∨ (∃ op ∈ ops, ∀ m, cell (op m) = v (src m)) →
        cell (ops.foldl (fun m op => op m) m) = v (src m)) := by
  induction ops generalizing m with
  | nil => exact ⟨rfl, fun h => h.elim id fun ⟨_, hop, _⟩ => by cases hop⟩
  | cons op ops ih =>
    obtain ⟨hkeep, hset⟩ := ih (fun o ho => hsrc o (List.mem_cons_of_mem _ ho))
      (fun o ho => hcell o (List.mem_cons_of_mem _ ho)) (op m)
    have hop := hsrc op List.mem_cons_self m
    rw [List.foldl_cons]
    refine ⟨hkeep.trans hop, fun h => ?_⟩
    rw [← hop]
    refine hset ?_
    rw [hop]
    rcases h with h | ⟨o, ho, hwrites⟩
    · rcases hcell op List.mem_cons_self with hleave | hwrite
      · exact .inl ((hleave m).trans h)
      · exact .inl (hwrite m)
    · rcases List.mem_cons.1 ho with rfl | ho
      · exact .inl (hwrites m)
      · exact .inr ⟨o, ho, hwrites⟩

variable {size : ℕ} {phase : Phase Mem} {turns : List ℕ}

/-- A cell that some operation writes, and every operation that writes it gives it the value `v`,
ends with that value. -/
theorem runPhase_written (hcomplete : Complete (ofGroup size phase) size turns)
    (hsrc : ∀ t < size, ∀ op ∈ phase t, ∀ m, src (op m) = src m)
    (hcell : ∀ t < size, ∀ op ∈ phase t,
      (∀ m, cell (op m) = cell m) ∨ ∀ m, cell (op m) = v (src m))
    {t : ℕ} (ht : t < size) {op : Mem → Mem} (hop : op ∈ phase t)
    (hset : ∀ m, cell (op m) = v (src m)) (m : Mem) :
    cell (runPhase size phase m turns) = v (src m) := by
  obtain ⟨ops, hexec, hmem⟩ := exec_eq_foldl (fun m op => op m) m
    (fun u hu => ofGroup_of_le hu) hcomplete
  have hpart : ∀ o ∈ ops, ∃ u < size, o ∈ phase u := by
    intro o ho
    obtain ⟨u, hu, hmem⟩ := (hmem o).1 ho
    rw [ofGroup_of_lt hu] at hmem
    exact ⟨u, hu, hmem⟩
  have hin : op ∈ ops := (hmem op).2 ⟨t, ht, by rwa [ofGroup_of_lt ht]⟩
  unfold runPhase
  rw [hexec]
  refine (foldl_written src cell v (fun o ho => ?_) (fun o ho => ?_) m).2 (.inr ⟨op, hin, hset⟩)
  · obtain ⟨u, hu, ho⟩ := hpart o ho
    exact hsrc u hu o ho
  · obtain ⟨u, hu, ho⟩ := hpart o ho
    exact hcell u hu o ho

end Written

/-! Phases on a part of a larger memory. -/

/-- The phase's operations, each done through `on`. -/
def liftPhase (on : (Mem → Mem) → Mem' → Mem') (phase : Phase Mem) : Phase Mem' :=
  fun t => (phase t).map on

section Lift

variable {on : (Mem → Mem) → Mem' → Mem'} (part : Mem' → Mem)

theorem runPhase_lift (hon : ∀ op m, part (on op m) = op (part m)) (size : ℕ) (phase : Phase Mem)
    (m : Mem') (turns : List ℕ) : part (runPhase size (liftPhase on phase) m turns) =
      runPhase size phase (part m) turns := by
  refine exec_simulate on part (fun t => ?_) (fun m op => hon op m) m turns
  unfold ofGroup liftPhase
  split_ifs <;> rfl

omit part in
theorem complete_lift {size : ℕ} {phase : Phase Mem} {turns : List ℕ} :
    Complete (ofGroup size (liftPhase on phase)) size turns ↔
      Complete (ofGroup size phase) size turns := by
  refine forall₂_congr fun t ht => ?_
  rw [ofGroup_of_lt ht, ofGroup_of_lt ht, liftPhase, List.length_map]

/-- What holds of the part when it runs alone holds of it in the larger memory, and what the part's
operations leave alone stays. -/
theorem Triple.lift {size : ℕ} {P Q : Mem → Prop} {phases : List (Phase Mem)} {Rest : Type*}
    (rest : Mem' → Rest) (hon : ∀ op m, part (on op m) = op (part m))
    (hrest : ∀ op m, rest (on op m) = rest m) (h : Triple size P phases Q) (r : Rest) :
    Triple size (fun m => P (part m) ∧ rest m = r) (phases.map (liftPhase on))
      (fun m => Q (part m) ∧ rest m = r) := by
  induction phases generalizing P with
  | nil => exact fun turns m _ hm => ⟨h turns (part m) trivial hm.1, hm.2⟩
  | cons phase phases ih =>
    intro turns m hcomplete hm
    have hfirst : Triple size
        (fun m' => m' = runPhase size phase (part m) (turns 0)) phases Q := by
      intro turns' m' hcomplete' hm'
      subst hm'
      exact h (fun k => if k = 0 then turns 0 else turns' (k - 1)) (part m)
        ⟨complete_lift.1 hcomplete.1, hcomplete'⟩ hm.1
    refine ih hfirst (fun k => turns (k + 1)) _ hcomplete.2 ⟨runPhase_lift part hon .., ?_⟩
    refine (runPhase_frame rest (fun t _ op hop m => ?_) m (turns 0)).trans hm.2
    obtain ⟨o, -, rfl⟩ := List.mem_map.1 hop
    exact hrest o m

end Lift

/-! Grids. -/

/-- A group's operations in the order in which they take effect. -/
def linear (size : ℕ) : List (Phase Mem) → (ℕ → List ℕ) → List (Mem → Mem)
  | [], _ => []
  | phase :: phases, turns =>
    trace (ofGroup size phase) (turns 0) ++ linear size phases (fun k => turns (k + 1))

theorem foldl_linear (size : ℕ) (phases : List (Phase Mem)) (turns : ℕ → List ℕ) (m : Mem) :
    (linear size phases turns).foldl (fun m op => op m) m = runPhases size phases turns m := by
  induction phases generalizing turns m with
  | nil => rfl
  | cons phase phases ih =>
    unfold linear runPhases
    rw [List.foldl_append, ih, runPhase, exec_eq_foldl_trace]

theorem mem_linear {size : ℕ} {phases : List (Phase Mem)} {turns : ℕ → List ℕ} {op : Mem → Mem}
    (h : op ∈ linear size phases turns) : ∃ phase ∈ phases, ∃ t < size, op ∈ phase t := by
  induction phases generalizing turns with
  | nil => cases h
  | cons phase phases ih =>
    rcases List.mem_append.1 h with h | h
    · obtain ⟨t, ht⟩ := mem_trace h
      by_cases hsize : t < size
      · rw [ofGroup_of_lt hsize] at ht
        exact ⟨phase, List.mem_cons_self, t, hsize, ht⟩
      · rw [ofGroup_of_le (by omega)] at ht
        cases ht
    · obtain ⟨p, hp, hop⟩ := ih h
      exact ⟨p, List.mem_cons_of_mem _ hp, hop⟩

/-- What the machine decides in a dispatch: the turns of each group's threads in each phase, and the
order of the groups' operations. -/
structure Schedule where
  turns : ℕ → ℕ → List ℕ
  order : List ℕ

/-- A grid is a phase whose threads are the groups. -/
def gridPhase (size : ℕ → ℕ) (phases : ℕ → List (Phase Mem)) (s : Schedule) : Phase Mem :=
  fun g => linear (size g) (phases g) (finishAll (size g) (phases g) (s.turns g))

def runGrid (groups : ℕ) (size : ℕ → ℕ) (phases : ℕ → List (Phase Mem)) (s : Schedule) (m : Mem) :
    Mem :=
  runPhase groups (gridPhase size phases s) m (finish groups (gridPhase size phases s) s.order)

section Grid

variable {groups : ℕ} {size : ℕ → ℕ} {phases : ℕ → List (Phase Mem)} {View : Type*}
  (view : Mem → View)

/-- What only group `g` changes ends as if the group had run alone. -/
theorem runGrid_view (s : Schedule) (m : Mem) {g : ℕ} (hg : g < groups)
    (hown : ∀ phase ∈ phases g, ∀ t < size g, ∀ op ∈ phase t, ∀ m m', view m = view m' →
      view (op m) = view (op m'))
    (hother : ∀ u < groups, u ≠ g → ∀ phase ∈ phases u, ∀ t < size u, ∀ op ∈ phase t, ∀ m,
      view (op m) = view m) :
    view (runGrid groups size phases s m) =
      view (runGroup (size g) (phases g) (s.turns g) m) := by
  unfold runGrid
  have hcomplete := complete_finish groups (gridPhase size phases s) s.order
  rw [runPhase_view view hcomplete hg (fun m m' hm op hop => ?_) fun u hu hne op hop m => ?_]
  · unfold gridPhase
    rw [foldl_linear]
    rfl
  · obtain ⟨phase, hphase, t, ht, hmem⟩ := mem_linear hop
    exact hown phase hphase t ht op hmem m m' hm
  · obtain ⟨phase, hphase, t, ht, hmem⟩ := mem_linear hop
    exact hother u hu hne phase hphase t ht op hmem m

/-- What no group changes stays. -/
theorem runGrid_frame (s : Schedule) (m : Mem)
    (hkeep : ∀ g < groups, ∀ phase ∈ phases g, ∀ t < size g, ∀ op ∈ phase t, ∀ m,
      view (op m) = view m) :
    view (runGrid groups size phases s m) = view m := by
  unfold runGrid
  refine runPhase_frame view (fun g hg op hop m => ?_) m _
  obtain ⟨phase, hphase, t, ht, hmem⟩ := mem_linear hop
  exact hkeep g hg phase hphase t ht op hmem m

/-- A grid of one group. -/
theorem runGrid_one (s : Schedule) (m : Mem) :
    runGrid 1 size phases s m = runGroup (size 0) (phases 0) (s.turns 0) m :=
  runGrid_view id s m Nat.one_pos (fun _ _ _ _ op _ _ _ hm => congrArg op hm)
    fun _ hu hne => absurd (Nat.lt_one_iff.1 hu) hne

end Grid

end Barriers
