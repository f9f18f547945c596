import Mathlib.Tactic

/-! The proleptic Gregorian calendar: its dates, and the number of days from 1970-01-01 to each. The
count goes up by one from each date to the next, so a date is known by its number. -/

namespace Gregorian

structure Date where
  year : ℤ
  month : ℤ
  day : ℤ
deriving DecidableEq, Repr

def IsLeap (y : ℤ) : Prop := y % 4 = 0 ∧ (y % 100 ≠ 0 ∨ y % 400 = 0)

instance (y : ℤ) : Decidable (IsLeap y) := inferInstanceAs (Decidable (_ ∧ _))

def daysInMonth (y m : ℤ) : ℤ :=
  if m = 2 then (if IsLeap y then 29 else 28)
  else if m = 4 ∨ m = 6 ∨ m = 9 ∨ m = 11 then 30 else 31

structure Date.Valid (date : Date) : Prop where
  month_pos : 1 ≤ date.month
  month_le : date.month ≤ 12
  day_pos : 1 ≤ date.day
  day_le : date.day ≤ daysInMonth date.year date.month

def Date.next (date : Date) : Date :=
  if date.day < daysInMonth date.year date.month then ⟨date.year, date.month, date.day + 1⟩
  else if date.month < 12 then ⟨date.year, date.month + 1, 1⟩
  else ⟨date.year + 1, 1, 1⟩

/-! Day counts. -/

/-- The leap years from 1 to `y`, counted downwards below 1. -/
def leapsThrough (y : ℤ) : ℤ := y / 4 - y / 100 + y / 400

def daysBeforeYear (y : ℤ) : ℤ := 365 * (y - 1970) + (leapsThrough (y - 1) - leapsThrough 1969)

def daysBeforeMonth (y m : ℤ) : ℤ :=
  ((List.range (m.toNat - 1)).map fun k : ℕ => daysInMonth y (k + 1)).sum

def Date.dayCount (date : Date) : ℤ :=
  daysBeforeYear date.year + daysBeforeMonth date.year date.month + (date.day - 1)

def daysInYear (y : ℤ) : ℤ := if IsLeap y then 366 else 365

theorem leapsThrough_succ (y : ℤ) :
    leapsThrough y = leapsThrough (y - 1) + if IsLeap y then 1 else 0 := by
  unfold leapsThrough IsLeap
  split_ifs with h
  · omega
  · omega

theorem daysBeforeYear_succ (y : ℤ) : daysBeforeYear (y + 1) = daysBeforeYear y + daysInYear y := by
  have hleaps := leapsThrough_succ y
  unfold daysBeforeYear daysInYear
  rw [add_sub_cancel_right]
  split_ifs at hleaps ⊢ with h
  · omega
  · omega

/-- The months before `m`, by whether the year is leap. -/
theorem daysBeforeMonth_eq {y m : ℤ} (h1 : 1 ≤ m) (h12 : m ≤ 13) : daysBeforeMonth y m =
    (if m ≤ 2 then 31 * (m - 1) else (153 * (m - 3) + 2) / 5 + 59 + if IsLeap y then 1 else 0) := by
  unfold daysBeforeMonth
  by_cases hleap : IsLeap y
  · interval_cases m <;> simp [List.range_succ, daysInMonth, hleap]
  · interval_cases m <;> simp [List.range_succ, daysInMonth, hleap]

theorem daysBeforeMonth_succ {y m : ℤ} (h1 : 1 ≤ m) :
    daysBeforeMonth y (m + 1) = daysBeforeMonth y m + daysInMonth y m := by
  obtain ⟨k, rfl⟩ : ∃ k : ℕ, m = k + 1 := ⟨(m - 1).toNat, by omega⟩
  have h : ((k : ℤ) + 1 + 1).toNat - 1 = k + 1 := by omega
  have h' : ((k : ℤ) + 1).toNat - 1 = k := by omega
  rw [daysBeforeMonth, daysBeforeMonth, h, h', List.range_succ, List.map_append, List.sum_append]
  simp

theorem daysInMonth_pos (y m : ℤ) : 28 ≤ daysInMonth y m := by
  unfold daysInMonth
  split_ifs <;> omega

theorem daysBeforeMonth_year (y : ℤ) : daysBeforeMonth y 13 = daysInYear y := by
  rw [daysBeforeMonth_eq (by decide) (by decide)]
  unfold daysInYear
  split_ifs <;> first | rfl | omega

theorem daysBeforeMonth_one (y : ℤ) : daysBeforeMonth y 1 = 0 := rfl

/-- The next date is a date, one day later. -/
theorem Date.Valid.next {date : Date} (h : date.Valid) :
    date.next.Valid ∧ date.next.dayCount = date.dayCount + 1 := by
  obtain ⟨y, m, d⟩ := date
  obtain ⟨hm1, hm12, hd1, hdle⟩ := h
  simp only at hm1 hm12 hd1 hdle
  unfold Date.next
  simp only
  split_ifs with hday hmonth
  · refine ⟨⟨hm1, hm12, by simp only; omega, by simp only; omega⟩, ?_⟩
    simp only [Date.dayCount]
    ring
  · have hpos := daysInMonth_pos y (m + 1)
    refine ⟨⟨by simp only; omega, by simp only; omega, le_rfl, by simp only; omega⟩, ?_⟩
    simp only [Date.dayCount]
    rw [daysBeforeMonth_succ hm1]
    omega
  · have hpos := daysInMonth_pos (y + 1) 1
    refine ⟨⟨le_rfl, by simp, le_rfl, by simp only; omega⟩, ?_⟩
    obtain rfl : m = 12 := by omega
    have hyear := daysBeforeMonth_succ (y := y) hm1
    rw [show (12 : ℤ) + 1 = 13 by rfl, daysBeforeMonth_year] at hyear
    simp only [Date.dayCount]
    rw [daysBeforeYear_succ, daysBeforeMonth_one]
    omega

/-! A date by its number. -/

theorem daysBeforeMonth_mono {y m m' : ℤ} (h1 : 1 ≤ m) (hlt : m < m') :
    daysBeforeMonth y m + daysInMonth y m ≤ daysBeforeMonth y m' := by
  rw [← daysBeforeMonth_succ h1]
  obtain ⟨k, rfl⟩ : ∃ k : ℕ, m' = m + 1 + k := ⟨(m' - (m + 1)).toNat, by omega⟩
  clear hlt
  induction k with
  | zero => simp
  | succ k ih =>
    have hpos := daysInMonth_pos y (m + 1 + k)
    have hsucc := daysBeforeMonth_succ (y := y) (m := m + 1 + k) (by omega)
    rw [Nat.cast_succ, ← add_assoc, hsucc]
    omega

theorem daysBeforeYear_mono {y y' : ℤ} (hlt : y < y') :
    daysBeforeYear y + daysInYear y ≤ daysBeforeYear y' := by
  rw [← daysBeforeYear_succ]
  obtain ⟨k, rfl⟩ : ∃ k : ℕ, y' = y + 1 + k := ⟨(y' - (y + 1)).toNat, by omega⟩
  clear hlt
  induction k with
  | zero => simp
  | succ k ih =>
    have hsucc := daysBeforeYear_succ (y + 1 + k)
    have hpos : 365 ≤ daysInYear (y + 1 + k) := by
      unfold daysInYear
      split_ifs <;> omega
    rw [Nat.cast_succ, ← add_assoc, hsucc]
    omega

theorem Date.Valid.month_bounds {date : Date} (h : date.Valid) :
    0 ≤ daysBeforeMonth date.year date.month ∧
      daysBeforeMonth date.year date.month + daysInMonth date.year date.month ≤
        daysInYear date.year := by
  refine ⟨?_, ?_⟩
  · rw [daysBeforeMonth_eq h.month_pos (by have := h.month_le; omega)]
    have := h.month_pos
    split_ifs <;> omega
  · rw [← daysBeforeMonth_year]
    exact daysBeforeMonth_mono h.month_pos (by have := h.month_le; omega)

theorem dayCount_injective {date date' : Date} (h : date.Valid) (h' : date'.Valid)
    (heq : date.dayCount = date'.dayCount) : date = date' := by
  have hb := h.month_bounds
  have hb' := h'.month_bounds
  obtain ⟨y, m, d⟩ := date
  obtain ⟨y', m', d'⟩ := date'
  have hm : 1 ≤ m := h.month_pos
  have hm' : 1 ≤ m' := h'.month_pos
  have hd := h.day_pos
  have hd' := h'.day_pos
  have hdle := h.day_le
  have hdle' := h'.day_le
  simp only [Date.dayCount] at heq hb hb' hd hd' hdle hdle'
  have hyear : y = y' := by
    rcases lt_trichotomy y y' with hlt | heq | hlt
    · have := daysBeforeYear_mono hlt
      omega
    · exact heq
    · have := daysBeforeYear_mono hlt
      omega
  subst hyear
  have hmonth : m = m' := by
    rcases lt_trichotomy m m' with hlt | heq | hlt
    · have := daysBeforeMonth_mono (y := y) hm hlt
      omega
    · exact heq
    · have := daysBeforeMonth_mono (y := y) hm' hlt
      omega
  subst hmonth
  obtain rfl : d = d' := by omega
  rfl

end Gregorian
