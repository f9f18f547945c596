import Mathlib.Algebra.Order.BigOperators.Group.List
import Mathlib.Algebra.Order.Field.Basic
import Mathlib.Data.Nat.Cast.Order.Field
import Mathlib.Tactic.Linarith

/-! Means and variances of lists over an ordered field. A variance with `ddof` degrees taken away is
defined where the divisor is positive. -/

namespace Moments

section Defs

variable {K : Type*} [Field K]

def mean (xs : List K) : K := xs.sum / xs.length

/-- The sum of squared deviations. -/
def squaredDeviations (xs : List K) : K := (xs.map (fun x => (x - mean xs) ^ 2)).sum

/-- Null where the divisor would not be positive. -/
def variance (ddof : ℕ) (xs : List K) : Option K :=
  if xs.length ≤ ddof then none else some (squaredDeviations xs / (xs.length - ddof))

theorem variance_eq_some {ddof : ℕ} {xs : List K} (h : ddof < xs.length) :
    variance ddof xs = some (squaredDeviations xs / (xs.length - ddof)) := if_neg (by omega)

theorem variance_eq_none {ddof : ℕ} {xs : List K} (h : xs.length ≤ ddof) : variance ddof xs = none :=
  if_pos h

end Defs

variable {K : Type*} [Field K] [LinearOrder K] [IsStrictOrderedRing K]

theorem squaredDeviations_nonneg (xs : List K) : 0 ≤ squaredDeviations xs := by
  refine List.sum_nonneg (fun d hd => ?_)
  obtain ⟨x, -, rfl⟩ := List.mem_map.1 hd
  exact sq_nonneg _

theorem mean_of_forall_eq {xs : List K} {a : K} (hne : xs ≠ []) (h : ∀ x ∈ xs, x = a) : mean xs = a := by
  have hlen : (xs.length : K) ≠ 0 := by
    exact_mod_cast (List.length_pos_of_ne_nil hne).ne'
  rw [mean, List.sum_eq_card_nsmul xs a h, nsmul_eq_mul, mul_div_cancel_left₀ a hlen]

/-- Nothing deviates exactly when all values are equal. -/
theorem squaredDeviations_eq_zero_iff {xs : List K} :
    squaredDeviations xs = 0 ↔ ∀ x ∈ xs, ∀ y ∈ xs, x = y := by
  refine ⟨fun h => ?_, fun h => ?_⟩
  · have hmean : ∀ x ∈ xs, x = mean xs := by
      intro x hx
      have hzero := List.all_zero_of_le_zero_le_of_sum_eq_zero (fun d hd => by
        obtain ⟨y, -, rfl⟩ := List.mem_map.1 hd
        exact sq_nonneg _) h (List.mem_map_of_mem hx)
      exact sub_eq_zero.1 (pow_eq_zero_iff two_ne_zero |>.1 hzero)
    exact fun x hx y hy => (hmean x hx).trans (hmean y hy).symm
  · refine List.sum_eq_zero (fun d hd => ?_)
    obtain ⟨x, hx, rfl⟩ := List.mem_map.1 hd
    rw [mean_of_forall_eq (List.ne_nil_of_mem hx) (fun y hy => h y hy x hx), sub_self]
    exact zero_pow two_ne_zero

theorem divisor_pos {ddof : ℕ} {xs : List K} (h : ddof < xs.length) :
    (0 : K) < xs.length - ddof := by
  rw [sub_pos]
  exact_mod_cast h

theorem variance_nonneg {ddof : ℕ} {xs : List K} {v : K} (h : variance ddof xs = some v) : 0 ≤ v := by
  unfold variance at h
  split_ifs at h with hlen
  rw [← Option.some.inj h]
  exact div_nonneg (squaredDeviations_nonneg xs) (divisor_pos (not_le.1 hlen)).le

/-- Two divisors give one variance exactly when they are equal, too large both, or nothing varies. -/
theorem variance_eq_iff {d e : ℕ} {xs : List K} :
    variance d xs = variance e xs ↔
      d = e ∨ (xs.length ≤ d ∧ xs.length ≤ e) ∨
        (d < xs.length ∧ e < xs.length ∧ ∀ x ∈ xs, ∀ y ∈ xs, x = y) := by
  by_cases heq : d = e
  · simp [heq]
  by_cases hd : xs.length ≤ d
  · rw [variance_eq_none hd]
    by_cases he : xs.length ≤ e
    · simp [variance_eq_none he, hd, he]
    · rw [variance_eq_some (not_le.1 he)]
      simp [heq, he, not_lt.2 hd]
  by_cases he : xs.length ≤ e
  · rw [variance_eq_none he, variance_eq_some (not_le.1 hd)]
    simp [heq, hd, not_lt.2 he]
  · rw [variance_eq_some (not_le.1 hd), variance_eq_some (not_le.1 he), Option.some.injEq,
      div_eq_div_iff (divisor_pos (not_le.1 hd)).ne' (divisor_pos (not_le.1 he)).ne',
      ← squaredDeviations_eq_zero_iff]
    have hdivisor : (xs.length - e : K) ≠ xs.length - d := by
      rw [Ne, sub_right_inj]
      exact_mod_cast Ne.symm heq
    rw [mul_eq_mul_left_iff, or_iff_right hdivisor]
    simp [heq, hd, not_le.1 hd, not_le.1 he]

/-- Bessel's correction turns the population variance into the sample one. -/
theorem bessel_correction {xs : List K} (h : 1 < xs.length) :
    squaredDeviations xs / xs.length * (xs.length / (xs.length - 1)) =
      squaredDeviations xs / (xs.length - (1 : ℕ)) := by
  have hlen : (xs.length : K) ≠ 0 := by
    exact_mod_cast (by omega : xs.length ≠ 0)
  rw [div_mul_div_cancel₀ hlen, Nat.cast_one]

end Moments
