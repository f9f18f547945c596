import Mathlib.Algebra.Order.Monoid.WithTop
import Mathlib.Tactic

/-! Cheapest monotone paths in a grid. The table of a dynamic program over the allowed cells holds,
at each cell, the least cost of a path that ends there, or infinity where no path does. -/

namespace GridPath

variable {R : Type*} (allowed : ℕ → ℕ → Prop) (cost : ℕ → ℕ → R)

/-- A path from (1, 1) through allowed cells: its cells in reverse, each one step right, down or
diagonally from the one before. -/
inductive PathTo : ℕ → ℕ → List (ℕ × ℕ) → Prop
  | start : allowed 1 1 → PathTo 1 1 [(1, 1)]
  | right {i j : ℕ} {p : List (ℕ × ℕ)} : PathTo i j p → allowed i (j + 1) →
      PathTo i (j + 1) ((i, j + 1) :: p)
  | down {i j : ℕ} {p : List (ℕ × ℕ)} : PathTo i j p → allowed (i + 1) j →
      PathTo (i + 1) j ((i + 1, j) :: p)
  | diagonal {i j : ℕ} {p : List (ℕ × ℕ)} : PathTo i j p → allowed (i + 1) (j + 1) →
      PathTo (i + 1) (j + 1) ((i + 1, j + 1) :: p)

def pathCost [AddCommMonoid R] (p : List (ℕ × ℕ)) : R := (p.map fun c => cost c.1 c.2).sum

theorem PathTo.pos {i j : ℕ} {p : List (ℕ × ℕ)} (h : PathTo allowed i j p) : 1 ≤ i ∧ 1 ≤ j := by
  induction h with
  | start => exact ⟨le_rfl, le_rfl⟩
  | right _ _ ih => exact ⟨ih.1, by omega⟩
  | down _ _ ih => exact ⟨by omega, ih.2⟩
  | diagonal _ _ ih => exact ⟨by omega, by omega⟩

variable [AddCommMonoid R] [LinearOrder R] [DecidableRel allowed]

/-- The table, with a border of infinities around a zero at the corner. -/
def table : ℕ → ℕ → WithTop R
  | 0, 0 => 0
  | 0, _ + 1 => ⊤
  | _ + 1, 0 => ⊤
  | i + 1, j + 1 =>
    if allowed (i + 1) (j + 1) then
      cost (i + 1) (j + 1) + min (min (table i (j + 1)) (table (i + 1) j)) (table i j)
    else ⊤

@[simp] theorem table_zero_succ (j : ℕ) : table allowed cost 0 (j + 1) = ⊤ := by rw [table]

@[simp] theorem table_succ_zero (i : ℕ) : table allowed cost (i + 1) 0 = ⊤ := by rw [table]

@[simp] theorem table_zero_zero : table allowed cost 0 0 = 0 := by rw [table]

theorem table_succ_succ (i j : ℕ) : table allowed cost (i + 1) (j + 1) =
    if allowed (i + 1) (j + 1) then
      cost (i + 1) (j + 1) +
        min (min (table allowed cost i (j + 1)) (table allowed cost (i + 1) j)) (table allowed cost i j)
    else ⊤ := by
  rw [table]

variable [IsOrderedAddMonoid R] {allowed cost}

/-- A step into an allowed cell costs at most the cell on top of where it came from. -/
theorem table_le {i j : ℕ} (hallowed : allowed (i + 1) (j + 1)) {v : WithTop R}
    (h : min (min (table allowed cost i (j + 1)) (table allowed cost (i + 1) j))
      (table allowed cost i j) ≤ v) :
    table allowed cost (i + 1) (j + 1) ≤ cost (i + 1) (j + 1) + v := by
  rw [table_succ_succ, if_pos hallowed]
  exact add_le_add_right h _

/-- No path is cheaper than the table says. -/
theorem table_le_pathCost {i j : ℕ} {p : List (ℕ × ℕ)} (h : PathTo allowed i j p) :
    table allowed cost i j ≤ (pathCost cost p : R) := by
  have hcons : ∀ (c : ℕ × ℕ) (p : List (ℕ × ℕ)),
      ((pathCost cost (c :: p) : R) : WithTop R) = cost c.1 c.2 + (pathCost cost p : R) := by
    intro c p
    rw [← WithTop.coe_add]
    rfl
  induction h with
  | start hallowed =>
    rw [hcons]
    exact table_le hallowed (by simp [pathCost])
  | @right i j p hp hallowed ih =>
    obtain ⟨i, rfl⟩ := Nat.exists_eq_add_of_le' hp.pos.1
    rw [hcons]
    exact table_le hallowed ((min_le_left _ _).trans ((min_le_right _ _).trans ih))
  | @down i j p hp hallowed ih =>
    obtain ⟨j, rfl⟩ := Nat.exists_eq_add_of_le' hp.pos.2
    rw [hcons]
    exact table_le hallowed ((min_le_left _ _).trans ((min_le_left _ _).trans ih))
  | diagonal hp hallowed ih =>
    rw [hcons]
    exact table_le hallowed ((min_le_right _ _).trans ih)

omit [IsOrderedAddMonoid R] in
/-- Where the table is finite some path costs that much. -/
theorem exists_path {i j : ℕ} (hi : 1 ≤ i) (hj : 1 ≤ j) {v : R} (h : table allowed cost i j = v) :
    ∃ p, PathTo allowed i j p ∧ pathCost cost p = v := by
  induction hn : i + j using Nat.strong_induction_on generalizing i j v with
  | _ n ih =>
    obtain ⟨i, rfl⟩ := Nat.exists_eq_add_of_le' hi
    obtain ⟨j, rfl⟩ := Nat.exists_eq_add_of_le' hj
    rw [table_succ_succ] at h
    split_ifs at h with hallowed
    · obtain ⟨c, u, hc, hu, hsum⟩ := WithTop.add_eq_coe.1 h
      obtain rfl : c = cost (i + 1) (j + 1) := WithTop.coe_injective hc
      replace hu := hu.symm
      have hchoice : table allowed cost i (j + 1) = u ∨ table allowed cost (i + 1) j = u ∨
          table allowed cost i j = u := by
        rcases min_choice (min (table allowed cost i (j + 1)) (table allowed cost (i + 1) j))
          (table allowed cost i j) with hm | hm
        · rw [hm] at hu
          rcases min_choice (table allowed cost i (j + 1)) (table allowed cost (i + 1) j) with hm' | hm'
          · exact Or.inl (hm' ▸ hu)
          · exact Or.inr (Or.inl (hm' ▸ hu))
        · exact Or.inr (Or.inr (hm ▸ hu))
      rcases hchoice with hup | hleft | hdiag
      · cases i with
        | zero =>
          rw [table_zero_succ] at hup
          cases hup
        | succ i =>
          obtain ⟨p, hp, hcost⟩ := ih _ (by omega) (by omega) (by omega) hup rfl
          exact ⟨_, PathTo.down hp hallowed, by rw [← hsum, ← hcost]; rfl⟩
      · cases j with
        | zero =>
          rw [table_succ_zero] at hleft
          cases hleft
        | succ j =>
          obtain ⟨p, hp, hcost⟩ := ih _ (by omega) (by omega) (by omega) hleft rfl
          exact ⟨_, PathTo.right hp hallowed, by rw [← hsum, ← hcost]; rfl⟩
      · match i, j, hdiag with
        | 0, 0, hdiag =>
          have hzero : u = 0 := by
            rw [table_zero_zero] at hdiag
            exact (WithTop.coe_injective hdiag).symm
          exact ⟨_, PathTo.start hallowed, by rw [← hsum, hzero]; rfl⟩
        | 0, j + 1, hdiag =>
          rw [table_zero_succ] at hdiag
          cases hdiag
        | i + 1, 0, hdiag =>
          rw [table_succ_zero] at hdiag
          cases hdiag
        | i + 1, j + 1, hdiag =>
          obtain ⟨p, hp, hcost⟩ := ih _ (by omega) (by omega) (by omega) hdiag rfl
          exact ⟨_, PathTo.diagonal hp hallowed, by rw [← hsum, ← hcost]; rfl⟩
    · cases h

/-- Inside the border the table is the greatest lower bound of the paths' costs: their minimum, or
infinity when there is none. -/
theorem table_isGLB {i j : ℕ} (hi : 1 ≤ i) (hj : 1 ≤ j) :
    IsGLB {c : WithTop R | ∃ p, PathTo allowed i j p ∧ (pathCost cost p : R) = c}
      (table allowed cost i j) := by
  refine ⟨fun c hc => ?_, fun b hb => ?_⟩
  · obtain ⟨p, hp, rfl⟩ := hc
    exact table_le_pathCost hp
  · cases h : table allowed cost i j with
    | top => exact le_top
    | coe v =>
      obtain ⟨p, hp, hcost⟩ := exists_path hi hj h
      exact hb ⟨p, hp, congrArg _ hcost⟩

end GridPath
