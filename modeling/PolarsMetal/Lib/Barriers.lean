import PolarsMetal.Lib.Interleave

/-! A group of threads that meet at barriers. Between two barriers each thread has a list of
operations on the group's memory, and the threads take their turns in any order. -/

namespace Barriers
open Interleave

variable {Mem : Type*}

/-- Each thread's operations between two barriers. -/
abbrev Phase (Mem : Type*) := ℕ → List (Mem → Mem)

/-- The part of the first `size` threads. -/
def ofGroup (size : ℕ) (phase : Phase Mem) : Phase Mem := fun t => if t < size then phase t else []

def runPhase (size : ℕ) (phase : Phase Mem) (m : Mem) (turns : List ℕ) : Mem :=
  exec (ofGroup size phase) (fun m op => op m) m turns

/-- The phases one after the other; `turns k` is the order of turns in phase `k`. -/
def runPhases (size : ℕ) : List (Phase Mem) → (ℕ → List ℕ) → Mem → Mem
  | [], _, m => m
  | phase :: phases, turns, m =>
    runPhases size phases (fun k => turns (k + 1)) (runPhase size phase m (turns 0))

/-- In each phase every thread gets its turns. -/
def CompletePhases (size : ℕ) : List (Phase Mem) → (ℕ → List ℕ) → Prop
  | [], _ => True
  | phase :: phases, turns =>
    Complete (ofGroup size phase) size (turns 0) ∧
      CompletePhases size phases (fun k => turns (k + 1))

variable {size : ℕ} {phase : Phase Mem}

theorem ofGroup_of_lt {t : ℕ} (ht : t < size) : ofGroup size phase t = phase t := if_pos ht

theorem ofGroup_of_le {t : ℕ} (ht : size ≤ t) : ofGroup size phase t = [] := if_neg (by omega)

theorem completePhases_rounds (k : ℕ) {phases : List (Phase Mem)}
    (hlen : ∀ phase ∈ phases, ∀ t < size, (phase t).length ≤ k) :
    CompletePhases size phases (fun _ => rounds k size) := by
  induction phases with
  | nil => trivial
  | cons phase phases ih =>
    refine ⟨fun t ht => ?_, ih fun p hp => hlen p (List.mem_cons_of_mem _ hp)⟩
    rw [ofGroup_of_lt ht, count_rounds k ht]
    exact hlen phase List.mem_cons_self t ht

/-! One phase. -/

theorem runPhase_view {View : Type*} (view : Mem → View) {m : Mem} {turns : List ℕ}
    (hcomplete : Complete (ofGroup size phase) size turns) {t : ℕ} (ht : t < size)
    (hown : ∀ m m', view m = view m' → ∀ op ∈ phase t, view (op m) = view (op m'))
    (hother : ∀ u < size, u ≠ t → ∀ op ∈ phase u, ∀ m, view (op m) = view m) :
    view (runPhase size phase m turns) = view ((phase t).foldl (fun m op => op m) m) := by
  have hidle : ∀ u, size ≤ u → ofGroup size phase u = [] := fun u hu => ofGroup_of_le hu
  refine (exec_view hidle hcomplete t (fun m m' hm op hop => ?_) fun u hu op hop m => ?_).trans ?_
  · rw [ofGroup_of_lt ht] at hop
    exact hown m m' hm op hop
  · by_cases hsize : u < size
    · rw [ofGroup_of_lt hsize] at hop
      exact hother u hsize hu op hop m
    · rw [ofGroup_of_le (by omega)] at hop
      cases hop
  · rw [ofGroup_of_lt ht]

theorem runPhase_frame {View : Type*} (view : Mem → View)
    (hkeep : ∀ t < size, ∀ op ∈ phase t, ∀ m, view (op m) = view m) (m : Mem) (turns : List ℕ) :
    view (runPhase size phase m turns) = view m := by
  unfold runPhase
  refine exec_frame (fun t op hop m => ?_) m turns
  by_cases hsize : t < size
  · rw [ofGroup_of_lt hsize] at hop
    exact hkeep t hsize op hop m
  · rw [ofGroup_of_le (by omega)] at hop
    cases hop

/-! Triples: what a complete run of some phases leaves. -/

def Triple (size : ℕ) (P : Mem → Prop) (phases : List (Phase Mem)) (Q : Mem → Prop) : Prop :=
  ∀ turns m, CompletePhases size phases turns → P m → Q (runPhases size phases turns m)

variable {P Q R : Mem → Prop} {xs ys : List (Phase Mem)}

theorem Triple.nil : Triple size P [] P := fun _ _ _ hm => hm

theorem Triple.cons (hhead : ∀ m turns, Complete (ofGroup size phase) size turns → P m →
    Q (runPhase size phase m turns)) (htail : Triple size Q xs R) :
    Triple size P (phase :: xs) R :=
  fun turns m hcomplete hm => htail _ _ hcomplete.2 (hhead m (turns 0) hcomplete.1 hm)

theorem Triple.single (h : ∀ m turns, Complete (ofGroup size phase) size turns → P m →
    Q (runPhase size phase m turns)) : Triple size P [phase] Q :=
  Triple.cons h Triple.nil

theorem Triple.append (hxs : Triple size P xs Q) (hys : Triple size Q ys R) :
    Triple size P (xs ++ ys) R := by
  induction xs generalizing P with
  | nil =>
    intro turns m hcomplete hm
    exact hys turns m hcomplete (hxs turns m trivial hm)
  | cons phase xs ih =>
    intro turns m hcomplete hm
    have hrest : Triple size (fun m' => m' = runPhase size phase m (turns 0)) xs Q := by
      intro turns' m' hcomplete' hm'
      subst hm'
      exact hxs (fun k => if k = 0 then turns 0 else turns' (k - 1)) m
        ⟨hcomplete.1, hcomplete'⟩ hm
    exact ih hrest _ _ hcomplete.2 rfl

/-- A loop: pass `k` takes `I k` to `I (k + 1)`. -/
theorem Triple.loop (I : ℕ → Mem → Prop) (pass : ℕ → List (Phase Mem)) (start count : ℕ)
    (hpass : ∀ k, start ≤ k → k < start + count → Triple size (I k) (pass k) (I (k + 1))) :
    Triple size (I start) ((List.range' start count).flatMap pass) (I (start + count)) := by
  induction count with
  | zero => exact Triple.nil
  | succ count ih =>
    rw [List.range'_concat, Nat.one_mul, List.flatMap_append, List.flatMap_singleton]
    refine (ih fun k hk hlt => hpass k hk (by omega)).append ?_
    exact hpass (start + count) (by omega) (by omega)

end Barriers
