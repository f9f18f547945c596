import PolarsMetal.Lib.Runs
import Mathlib.Logic.Function.Basic
import Mathlib.Data.List.Induction

/-! Threads with registers over a shared memory. A turn of a thread is one operation on the memory,
which may read what the others left there; any order of turns is a run. -/

namespace Threads
open Runs

variable {Mem Reg : Type*}

structure State (Mem Reg : Type*) where
  mem : Mem
  reg : ℕ → Reg

variable (act : ℕ → Reg → Mem → Reg × Mem)

def turn (s : State Mem Reg) (t : ℕ) : State Mem Reg :=
  ⟨(act t (s.reg t) s.mem).2, Function.update s.reg t (act t (s.reg t) s.mem).1⟩

/-- All threads start with the same registers; `order` lists the turns. -/
def launch (mem : Mem) (reg : Reg) (order : List ℕ) : State Mem Reg :=
  run (turn act) ⟨mem, fun _ => reg⟩ order

variable {act}

theorem launch_concat (mem : Mem) (reg : Reg) (order : List ℕ) (t : ℕ) :
    launch act mem reg (order ++ [t]) = turn act (launch act mem reg order) t := by
  unfold launch
  rw [run_append]
  rfl

@[simp] theorem turn_mem (s : State Mem Reg) (t : ℕ) :
    (turn act s t).mem = (act t (s.reg t) s.mem).2 := rfl

@[simp] theorem turn_reg_self (s : State Mem Reg) (t : ℕ) :
    (turn act s t).reg t = (act t (s.reg t) s.mem).1 := Function.update_self ..

theorem turn_reg_of_ne (s : State Mem Reg) {t u : ℕ} (h : u ≠ t) :
    (turn act s t).reg u = s.reg u := Function.update_of_ne h ..

/-- Each turn of a thread uses up one of the turns it has left. -/
theorem left_le {left : Reg → ℕ} (h : ∀ t reg mem, left (act t reg mem).1 ≤ left reg - 1)
    (mem : Mem) (reg : Reg) (order : List ℕ) (t : ℕ) :
    left ((launch act mem reg order).reg t) ≤ left reg - order.count t := by
  induction order using List.reverseRecOn with
  | nil => exact Nat.le_refl _
  | append_singleton order u ih =>
    rw [launch_concat, List.count_append, List.count_singleton]
    by_cases hu : t = u
    · subst hu
      rw [turn_reg_self, if_pos (beq_self_eq_true t)]
      have := h t ((launch act mem reg order).reg t) (launch act mem reg order).mem
      omega
    · rw [turn_reg_of_ne _ hu, if_neg (by simpa using Ne.symm hu)]
      exact ih

/-- What the start satisfies and every turn preserves, a record of the turns included. -/
theorem launch_invariant {Rec : Type*} {I : Rec → State Mem Reg → Prop} {mem : Mem} {reg : Reg}
    {rec₀ : Rec} (hinit : I rec₀ ⟨mem, fun _ => reg⟩)
    (hturn : ∀ r s t, I r s → ∃ r', I r' (turn act s t)) (order : List ℕ) :
    ∃ r, I r (launch act mem reg order) := by
  induction order using List.reverseRecOn with
  | nil => exact ⟨rec₀, hinit⟩
  | append_singleton order t ih =>
    obtain ⟨r, hr⟩ := ih
    rw [launch_concat]
    exact hturn r _ t hr

end Threads
