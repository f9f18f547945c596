import Mathlib.Algebra.BigOperators.Group.List.Basic
import Mathlib.Algebra.Order.Group.Unbundled.Abs
import Mathlib.Tactic

/-! Sums in an arithmetic that is exact on words that stand for integers, up to a bound. As long as the
absolute values of what is summed stay within the bound, so does every partial sum, and the sum is
exact however it is brought together. -/

namespace ExactSum

variable {α : Type*}

/-- Adding two words adds what they stand for, within the bound. -/
structure AddsUpTo (add : α → α → α) (num : α → Option ℤ) (bound : ℤ) : Prop where
  add {a b : α} {x y : ℤ} : num a = some x → num b = some y → |x| + |y| ≤ bound →
    num (add a b) = some (x + y)

def integers (num : α → Option ℤ) (xs : List α) : List ℤ := xs.map fun v => (num v).getD 0

variable {num : α → Option ℤ} {bound : ℤ}

theorem integers_append (xs ys : List α) :
    integers num (xs ++ ys) = integers num xs ++ integers num ys := List.map_append

theorem abs_sum_le (l : List ℤ) : |l.sum| ≤ (l.map abs).sum := by
  induction l with
  | nil => exact le_of_eq abs_zero
  | cons x l ih =>
    rw [List.sum_cons, List.map_cons, List.sum_cons]
    exact (abs_add_le x l.sum).trans (by omega)

theorem sum_abs_append {xs ys : List α} (h : ((integers num (xs ++ ys)).map abs).sum ≤ bound) :
    ((integers num xs).map abs).sum + ((integers num ys).map abs).sum ≤ bound := by
  rwa [integers_append, List.map_append, List.sum_append] at h

theorem sum_abs_nonneg (num : α → Option ℤ) (xs : List α) : 0 ≤ ((integers num xs).map abs).sum :=
  (abs_nonneg _).trans (abs_sum_le _)

/-- The word stands for the sum of the words, if they are integers within the bound. -/
def IsExact (num : α → Option ℤ) (bound : ℤ) (xs : List α) (a : α) : Prop :=
  (∀ v ∈ xs, (num v).isSome) → ((integers num xs).map abs).sum ≤ bound →
    num a = some (integers num xs).sum

theorem isExact_nil {a : α} (h : num a = some 0) : IsExact num bound [] a := fun _ _ => h

theorem isExact_single (v : α) : IsExact num bound [v] v := by
  intro hnum _
  obtain ⟨x, hx⟩ := Option.isSome_iff_exists.1 (hnum v (List.mem_singleton.2 rfl))
  rw [integers, List.map_singleton, List.sum_singleton, hx]
  rfl

/-- Parts of an exact sum are exact. -/
theorem IsExact.parts {xs ys : List α} {a b : α} (ha : IsExact num bound xs a)
    (hb : IsExact num bound ys b) (hnum : ∀ v ∈ xs ++ ys, (num v).isSome)
    (hbound : ((integers num (xs ++ ys)).map abs).sum ≤ bound) :
    num a = some (integers num xs).sum ∧ num b = some (integers num ys).sum := by
  obtain ⟨hxs, hys⟩ := List.forall_mem_append.1 hnum
  have hparts := sum_abs_append hbound
  have hx := sum_abs_nonneg num xs
  have hy := sum_abs_nonneg num ys
  exact ⟨ha hxs (by omega), hb hys (by omega)⟩

theorem IsExact.add {add : α → α → α} (hadd : AddsUpTo add num bound) {xs ys : List α} {a b : α}
    (ha : IsExact num bound xs a) (hb : IsExact num bound ys b) :
    IsExact num bound (xs ++ ys) (add a b) := by
  intro hnum hbound
  obtain ⟨hx, hy⟩ := ha.parts hb hnum hbound
  have hparts := sum_abs_append hbound
  have hxle := abs_sum_le (integers num xs)
  have hyle := abs_sum_le (integers num ys)
  rw [integers_append, List.sum_append]
  exact hadd.add hx hy (by omega)

/-- A part that comes to zero may be left out. -/
theorem IsExact.skip {xs ys : List α} {a b : α} (ha : IsExact num bound xs a)
    (hb : IsExact num bound ys b) (hzero : ∀ y, num b = some y → y = 0) :
    IsExact num bound (xs ++ ys) a := by
  intro hnum hbound
  obtain ⟨hx, hy⟩ := ha.parts hb hnum hbound
  rw [integers_append, List.sum_append, hzero _ hy, add_zero]
  exact hx

theorem IsExact.perm {xs ys : List α} {a : α} (ha : IsExact num bound xs a) (h : xs.Perm ys) :
    IsExact num bound ys a := by
  intro hnum hbound
  have hsame := h.map fun v => (num v).getD 0
  have hsum : (integers num xs).sum = (integers num ys).sum := hsame.sum_eq
  have habs : ((integers num xs).map abs).sum = ((integers num ys).map abs).sum :=
    (hsame.map abs).sum_eq
  rw [← hsum]
  exact ha (fun v hv => hnum v (h.mem_iff.1 hv)) (habs ▸ hbound)

end ExactSum
