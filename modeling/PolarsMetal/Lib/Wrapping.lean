import Mathlib.Algebra.BigOperators.Group.List.Basic
import PolarsMetal.Lib.Reduce

/-! Sums of fixed-width words. The word a sum ends in is the exact sum reduced to the signed
range, so it is the exact sum precisely when that lies in the range. -/

namespace Wrapping
open Reduce

variable {w : ℕ}

def addReduction (w : ℕ) : Reduction (BitVec w) where
  identity := 0
  combine a b := a + b
  comm := BitVec.add_comm
  assoc := BitVec.add_assoc
  left_id := BitVec.zero_add

/-- The words' sum as signed integers. -/
def exactSum (xs : List (BitVec w)) : ℤ := (xs.map BitVec.toInt).sum

def InRange (w : ℕ) (z : ℤ) : Prop := -2 ^ (w - 1) ≤ z ∧ z < 2 ^ (w - 1)

instance (w : ℕ) (z : ℤ) : Decidable (InRange w z) := inferInstanceAs (Decidable (_ ∧ _))

@[simp] theorem exactSum_nil : exactSum ([] : List (BitVec w)) = 0 := rfl

@[simp] theorem exactSum_cons (x : BitVec w) (xs : List (BitVec w)) :
    exactSum (x :: xs) = x.toInt + exactSum xs := rfl

theorem inRange_toInt (x : BitVec w) : InRange w x.toInt := by
  unfold InRange
  exact ⟨BitVec.le_toInt x, BitVec.toInt_lt⟩

theorem toInt_total (xs : List (BitVec w)) :
    (total (addReduction w) xs).toInt = (exactSum xs).bmod (2 ^ w) := by
  induction xs with
  | nil => simp [addReduction]
  | cons x xs ih =>
    rw [total_cons, exactSum_cons]
    change (x + total (addReduction w) xs).toInt = _
    rw [BitVec.toInt_add, ih, Int.add_bmod_bmod]

theorem bmod_eq_self (hw : 0 < w) {z : ℤ} (h : InRange w z) : z.bmod (2 ^ w) = z := by
  unfold InRange at h
  obtain ⟨v, rfl⟩ : ∃ v, w = v + 1 := ⟨w - 1, by omega⟩
  have hpow : ((2 ^ (v + 1) : ℕ) : ℤ) = 2 * 2 ^ v := by
    push_cast
    ring
  rw [Nat.add_sub_cancel] at h
  exact Int.bmod_eq_of_le (by omega) (by omega)

theorem toInt_total_eq_iff (hw : 0 < w) (xs : List (BitVec w)) :
    (total (addReduction w) xs).toInt = exactSum xs ↔ InRange w (exactSum xs) := by
  refine ⟨fun h => h ▸ inRange_toInt _, fun h => ?_⟩
  rw [toInt_total, bmod_eq_self hw h]

end Wrapping
