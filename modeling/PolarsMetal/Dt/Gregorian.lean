import PolarsMetal.Lib.Gregorian
import Mathlib.Control.Basic

/-! The date kernel. Its arithmetic is written once, over what a register makes of each result: the
machine wraps it to 32 bits, and a checked run stops at the first result that does not fit. -/

namespace PolarsMetal.Dt
open Gregorian

section Kernel

variable {M : Type → Type} [Monad M] (reg : ℤ → M ℤ)

/-- `era` and `doe`; divisions truncate. -/
def eraOf (days : ℤ) : M (ℤ × ℤ) := do
  let z ← reg (days + 719468)
  let shifted ← (if z ≥ 0 then pure z else reg (z - 146096))
  let era ← reg (shifted.tdiv 146097)
  let eraDays ← reg (era * 146097)
  let doe ← reg (z - eraDays)
  pure (era, doe)

def yoeOf (doe : ℤ) : M ℤ := do
  let doe1460 ← reg (doe.tdiv 1460)
  let doe36524 ← reg (doe.tdiv 36524)
  let doe146096 ← reg (doe.tdiv 146096)
  let minus1460 ← reg (doe - doe1460)
  let plus36524 ← reg (minus1460 + doe36524)
  let minus146096 ← reg (plus36524 - doe146096)
  reg (minus146096.tdiv 365)

def doyOf (doe yoe : ℤ) : M ℤ := do
  let yoe365 ← reg (365 * yoe)
  let yoe4 ← reg (yoe.tdiv 4)
  let plusYoe4 ← reg (yoe365 + yoe4)
  let yoe100 ← reg (yoe.tdiv 100)
  let yearStart ← reg (plusYoe4 - yoe100)
  reg (doe - yearStart)

/-- `m` and `d` -/
def monthOf (doy : ℤ) : M (ℤ × ℤ) := do
  let doy5 ← reg (5 * doy)
  let doy52 ← reg (doy5 + 2)
  let mp ← reg (doy52.tdiv 153)
  let mp153 ← reg (153 * mp)
  let mp1532 ← reg (mp153 + 2)
  let monthStart ← reg (mp1532.tdiv 5)
  let d0 ← reg (doy - monthStart)
  let d ← reg (d0 + 1)
  let m ← (if mp < 10 then reg (mp + 3) else reg (mp - 9))
  pure (m, d)

/-- `dt_field_from_days` up to the choice of the field. -/
def civil (days : ℤ) : M Date := do
  let (era, doe) ← eraOf reg days
  let yoe ← yoeOf reg doe
  let eraYears ← reg (era * 400)
  let y ← reg (yoe + eraYears)
  let doy ← doyOf reg doe yoe
  let (m, d) ← monthOf reg doy
  let year ← reg (y + if m ≤ 2 then 1 else 0)
  pure ⟨year, m, d⟩

end Kernel

/-- Two's complement. -/
def wrap (x : ℤ) : ℤ := x.bmod (2 ^ 32)

def fitsI32 (x : ℤ) : Prop := -2 ^ 31 ≤ x ∧ x < 2 ^ 31

instance (x : ℤ) : Decidable (fitsI32 x) := inferInstanceAs (Decidable (_ ∧ _))

def kernelCivil (days : ℤ) : Date := Id.run (civil (fun x => pure (wrap x)) days)

def checkedCivil (days : ℤ) : Option Date := civil (fun x => if fitsI32 x then some x else none) days

inductive DtField where
  | year | month | day
deriving DecidableEq, Repr

def DtField.of (field : DtField) (date : Date) : ℤ :=
  match field with
  | .year => date.year
  | .month => date.month
  | .day => date.day

/-- What the kernel writes for a row. -/
def fieldFromDays (field : DtField) (days : ℤ) : ℤ := field.of (kernelCivil days)

/-- The host keeps a year as it is and narrows a month or a day to 8 bits. -/
def narrow (field : DtField) (x : ℤ) : ℤ :=
  match field with
  | .year => x
  | .month | .day => x.bmod (2 ^ 8)

/-- `_dt_series` on a date column: nulls go through the kernel as zeros and are put back. -/
def dtSeries (field : DtField) (src : List (Option ℤ)) : List (Option ℤ) :=
  let mask := src.map Option.isSome
  let days := src.map (·.getD 0)
  let dense := days.map fun d => narrow field (fieldFromDays field d)
  (mask.zip dense).map fun (valid, x) => if valid then some x else none

/-! The parts of the arithmetic. -/

/-- The day of an era by its year and the day of that year, from the first of March on. -/
theorem yearOfEra {doe yoe : ℤ} (h0 : 0 ≤ doe) (h1 : doe < 146097)
    (hyoe : yoe = (doe - doe / 1460 + doe / 36524 - doe / 146096) / 365) :
    0 ≤ yoe ∧ yoe < 400 ∧ 365 * yoe + yoe / 4 - yoe / 100 ≤ doe ∧
      doe - (365 * yoe + yoe / 4 - yoe / 100) ≤ 365 ∧
      (doe - (365 * yoe + yoe / 4 - yoe / 100) = 365 → IsLeap (yoe + 1)) := by
  by_cases hlast : doe = 146096
  · subst hlast
    subst hyoe
    decide
  -- the century, the four years in it, and the year of the four
  obtain ⟨c, doc, hdoe, hc0, hc3, hdoc0, hdoc⟩ : ∃ c doc : ℤ, doe = 36524 * c + doc ∧ 0 ≤ c ∧ c ≤ 3 ∧
      0 ≤ doc ∧ doc < 36524 := ⟨doe / 36524, doe % 36524, by omega⟩
  obtain ⟨q, doq, hdoc', hq0, hq24, hdoq0, hdoq⟩ : ∃ q doq : ℤ, doc = 1461 * q + doq ∧ 0 ≤ q ∧
      q ≤ 24 ∧ 0 ≤ doq ∧ doq ≤ 1460 := ⟨doc / 1461, doc % 1461, by omega⟩
  obtain ⟨r, doy, hdoq', hr0, hr3, hdoy0, hdoy, hleap⟩ : ∃ r doy : ℤ, doq = 365 * r + doy ∧ 0 ≤ r ∧
      r ≤ 3 ∧ 0 ≤ doy ∧ doy ≤ 365 ∧ (doy = 365 → r = 3) := by
    by_cases hd : doq = 1460
    · exact ⟨3, 365, by omega⟩
    · exact ⟨doq / 365, doq % 365, by omega⟩
  have h146096 : doe / 146096 = 0 := by omega
  have h36524 : doe / 36524 = c := by omega
  have h1460 : doe / 1460 = 25 * c + q + if 24 * c + q + doq < 1460 then 0 else 1 := by
    split_ifs <;> omega
  have hyoe' : yoe = 100 * c + 4 * q + r := by
    rw [hyoe, h146096, h36524, h1460]
    split_ifs <;> omega
  have h4 : yoe / 4 = 25 * c + q := by omega
  have h100 : yoe / 100 = c := by omega
  refine ⟨by omega, by omega, by omega, by omega, fun h365 => ?_⟩
  have hlong : doy = 365 := by omega
  have hr := hleap hlong
  unfold IsLeap
  omega

/-- The month and its day by the day of the year. -/
theorem monthOfYear {doy mp d : ℤ} (h0 : 0 ≤ doy) (h1 : doy ≤ 365) (hmp : mp = (5 * doy + 2) / 153)
    (hd : d = doy - (153 * mp + 2) / 5 + 1) : 0 ≤ mp ∧ mp ≤ 11 ∧ 1 ≤ d ∧
      (mp = 11 → d ≤ 29 ∧ (d = 29 → doy = 365)) ∧
      (mp = 1 ∨ mp = 3 ∨ mp = 6 ∨ mp = 8 → d ≤ 30) ∧ d ≤ 31 := by
  omega

/-- A year that begins in March, its day, and the calendar's date of that day. -/
theorem date_of_march {y doy mp d m : ℤ} (h0 : 0 ≤ doy) (h1 : doy ≤ 365)
    (hleap : doy = 365 → IsLeap (y + 1)) (hmp : mp = (5 * doy + 2) / 153)
    (hd : d = doy - (153 * mp + 2) / 5 + 1) (hm : m = if mp < 10 then mp + 3 else mp - 9) :
    (Date.mk (y + if m ≤ 2 then 1 else 0) m d).Valid ∧
      (Date.mk (y + if m ≤ 2 then 1 else 0) m d).dayCount =
        365 * y + leapsThrough y + doy - 719468 := by
  obtain ⟨hmp0, hmp11, hd1, hfeb, hshort, hd31⟩ := monthOfYear h0 h1 hmp hd
  have hleaps : leapsThrough 1969 = 477 := by decide
  by_cases h10 : mp < 10
  · rw [if_pos h10] at hm
    have hm2 : ¬ m ≤ 2 := by omega
    rw [if_neg hm2, add_zero]
    refine ⟨⟨by simp only; omega, by simp only; omega, hd1, ?_⟩, ?_⟩
    · simp only [daysInMonth]
      split_ifs <;> omega
    · simp only [Date.dayCount]
      rw [daysBeforeMonth_eq (by omega) (by omega), if_neg hm2]
      have hsucc := leapsThrough_succ y
      unfold daysBeforeYear
      split_ifs at hsucc ⊢ <;> omega
  · rw [if_neg h10] at hm
    have hm2 : m ≤ 2 := by omega
    rw [if_pos hm2]
    refine ⟨⟨by simp only; omega, by simp only; omega, hd1, ?_⟩, ?_⟩
    · simp only [daysInMonth]
      split_ifs with h2 hyear h4
      · omega
      · have hnot : doy ≠ 365 := fun h => hyear (hleap h)
        omega
      · omega
      · omega
    · simp only [Date.dayCount]
      rw [daysBeforeMonth_eq (by omega) (by omega), if_pos hm2]
      unfold daysBeforeYear
      rw [add_sub_cancel_right]
      omega

theorem leapsThrough_era {yoe : ℤ} (era : ℤ) (h0 : 0 ≤ yoe) (h1 : yoe < 400) :
    leapsThrough (yoe + era * 400) = 97 * era + (yoe / 4 - yoe / 100) := by
  have h4 : (yoe + era * 400) / 4 = yoe / 4 + era * 100 := by omega
  have h100 : (yoe + era * 400) / 100 = yoe / 100 + era * 4 := by omega
  have h400 : (yoe + era * 400) / 400 = era := by omega
  rw [leapsThrough, h4, h100, h400]
  ring

/-! Runs whose results all fit. -/

section Fits

variable {M : Type → Type} [Monad M] [LawfulMonad M] {reg : ℤ → M ℤ}
  (hreg : ∀ x, fitsI32 x → reg x = pure x)

include hreg

theorem eraOf_eq {days : ℤ} (hlow : -2 ^ 31 ≤ days) (hhigh : days ≤ 2 ^ 31 - 1 - 719468) :
    eraOf reg days =
      pure ((days + 719468) / 146097, (days + 719468) - (days + 719468) / 146097 * 146097) := by
  unfold eraOf
  obtain ⟨z, hz⟩ : ∃ z, z = days + 719468 := ⟨_, rfl⟩
  have hera : (if z ≥ 0 then z else z - 146096).tdiv 146097 = z / 146097 := by
    rw [Int.tdiv_eq_ediv, show Int.sign 146097 = 1 by rfl]
    split_ifs <;> omega
  have hshifted : (if z ≥ 0 then pure z else reg (z - 146096)) =
      (pure (if z ≥ 0 then z else z - 146096) : M ℤ) := by
    split_ifs
    · rfl
    · exact hreg _ ⟨by omega, by omega⟩
  rw [← hz, hreg z ⟨by omega, by omega⟩, pure_bind, hshifted, pure_bind, hera,
    hreg _ ⟨by omega, by omega⟩, pure_bind, hreg _ ⟨by omega, by omega⟩, pure_bind,
    hreg _ ⟨by omega, by omega⟩, pure_bind]

theorem yoeOf_eq {doe : ℤ} (h0 : 0 ≤ doe) (h1 : doe < 146097) : yoeOf reg doe =
    pure ((doe - doe / 1460 + doe / 36524 - doe / 146096) / 365) := by
  unfold yoeOf
  have hpos : 0 ≤ doe - doe / 1460 + doe / 36524 - doe / 146096 := by omega
  rw [Int.tdiv_eq_ediv_of_nonneg h0, Int.tdiv_eq_ediv_of_nonneg h0, Int.tdiv_eq_ediv_of_nonneg h0,
    hreg _ ⟨by omega, by omega⟩, pure_bind, hreg _ ⟨by omega, by omega⟩, pure_bind,
    hreg _ ⟨by omega, by omega⟩, pure_bind, hreg _ ⟨by omega, by omega⟩, pure_bind,
    hreg _ ⟨by omega, by omega⟩, pure_bind, hreg _ ⟨by omega, by omega⟩, pure_bind,
    Int.tdiv_eq_ediv_of_nonneg hpos, hreg _ ⟨by omega, by omega⟩]

theorem doyOf_eq {doe yoe : ℤ} (h0 : 0 ≤ doe) (h1 : doe < 146097) (hy0 : 0 ≤ yoe) (hy : yoe < 400) :
    doyOf reg doe yoe = pure (doe - (365 * yoe + yoe / 4 - yoe / 100)) := by
  unfold doyOf
  rw [Int.tdiv_eq_ediv_of_nonneg hy0, Int.tdiv_eq_ediv_of_nonneg hy0,
    hreg _ ⟨by omega, by omega⟩, pure_bind, hreg _ ⟨by omega, by omega⟩, pure_bind,
    hreg _ ⟨by omega, by omega⟩, pure_bind, hreg _ ⟨by omega, by omega⟩, pure_bind,
    hreg _ ⟨by omega, by omega⟩, pure_bind, hreg _ ⟨by omega, by omega⟩]

theorem monthOf_eq {doy : ℤ} (h0 : 0 ≤ doy) (h1 : doy ≤ 365) : monthOf reg doy =
    pure (if (5 * doy + 2) / 153 < 10 then (5 * doy + 2) / 153 + 3 else (5 * doy + 2) / 153 - 9,
      doy - (153 * ((5 * doy + 2) / 153) + 2) / 5 + 1) := by
  unfold monthOf
  obtain ⟨mp, hmp⟩ : ∃ mp, mp = (5 * doy + 2) / 153 := ⟨_, rfl⟩
  have hmonth : (if mp < 10 then reg (mp + 3) else reg (mp - 9)) =
      (pure (if mp < 10 then mp + 3 else mp - 9) : M ℤ) := by
    split_ifs
    · exact hreg _ ⟨by omega, by omega⟩
    · exact hreg _ ⟨by omega, by omega⟩
  have hnum : (0 : ℤ) ≤ 5 * doy + 2 := by omega
  have hstart : 0 ≤ 153 * mp + 2 := by omega
  rw [hreg (5 * doy) ⟨by omega, by omega⟩, pure_bind, hreg (5 * doy + 2) ⟨by omega, by omega⟩,
    pure_bind, Int.tdiv_eq_ediv_of_nonneg hnum, ← hmp, hreg mp ⟨by omega, by omega⟩, pure_bind,
    hreg (153 * mp) ⟨by omega, by omega⟩, pure_bind, hreg (153 * mp + 2) ⟨by omega, by omega⟩,
    pure_bind, Int.tdiv_eq_ediv_of_nonneg hstart, hreg _ ⟨by omega, by omega⟩, pure_bind,
    hreg _ ⟨by omega, by omega⟩, pure_bind, hreg _ ⟨by omega, by omega⟩, pure_bind, hmonth,
    pure_bind]

theorem civil_eq {days : ℤ} (hlow : -2 ^ 31 ≤ days) (hhigh : days ≤ 2 ^ 31 - 1 - 719468) :
    ∃ date, civil reg days = pure date ∧ date.Valid ∧ date.dayCount = days := by
  obtain ⟨era, hera⟩ : ∃ era, era = (days + 719468) / 146097 := ⟨_, rfl⟩
  obtain ⟨doe, hdoe⟩ : ∃ doe, doe = days + 719468 - era * 146097 := ⟨_, rfl⟩
  have hdoe0 : 0 ≤ doe := by omega
  have hdoe1 : doe < 146097 := by omega
  obtain ⟨yoe, hyoe⟩ : ∃ yoe, yoe = (doe - doe / 1460 + doe / 36524 - doe / 146096) / 365 :=
    ⟨_, rfl⟩
  obtain ⟨hyoe0, hyoe400, hdoy0, hdoy365, hleap⟩ := yearOfEra hdoe0 hdoe1 hyoe
  obtain ⟨doy, hdoy⟩ : ∃ doy, doy = doe - (365 * yoe + yoe / 4 - yoe / 100) := ⟨_, rfl⟩
  have hleaps := leapsThrough_era era hyoe0 hyoe400
  have hleap' : doy = 365 → IsLeap (yoe + era * 400 + 1) := fun h => by
    have := hleap (by omega)
    unfold IsLeap at this ⊢
    omega
  obtain ⟨mp, hmp⟩ : ∃ mp, mp = (5 * doy + 2) / 153 := ⟨_, rfl⟩
  obtain ⟨m, hm⟩ : ∃ m, m = if mp < 10 then mp + 3 else mp - 9 := ⟨_, rfl⟩
  obtain ⟨d, hd⟩ : ∃ d, d = doy - (153 * mp + 2) / 5 + 1 := ⟨_, rfl⟩
  have hdate := date_of_march (y := yoe + era * 400) (by omega) (by omega) hleap' hmp hd hm
  have hyear : fitsI32 (yoe + era * 400 + if m ≤ 2 then 1 else 0) := by
    unfold fitsI32
    split_ifs <;> omega
  refine ⟨_, ?_, hdate.1, hdate.2.trans (by omega)⟩
  unfold civil
  rw [eraOf_eq hreg hlow hhigh, pure_bind, ← hera, ← hdoe]
  simp only
  rw [yoeOf_eq hreg hdoe0 hdoe1, pure_bind, ← hyoe, hreg _ ⟨by omega, by omega⟩, pure_bind,
    hreg _ ⟨by omega, by omega⟩, pure_bind, doyOf_eq hreg hdoe0 hdoe1 hyoe0 hyoe400, pure_bind,
    ← hdoy, monthOf_eq hreg (by omega) (by omega), pure_bind, ← hmp, ← hm, ← hd]
  simp only
  rw [hreg _ hyear, pure_bind]

end Fits

/-! Every day number. -/

/-- No result leaves 32 bits, and the date written is the one whose day count is `days`. -/
def DecomposesExactly (days : ℤ) : Prop :=
  checkedCivil days = some (kernelCivil days) ∧ (kernelCivil days).Valid ∧
    (kernelCivil days).dayCount = days ∧
    ∀ date : Date, date.Valid → date.dayCount = days → date = kernelCivil days

theorem wrap_of_fits {x : ℤ} (h : fitsI32 x) : wrap x = x := by
  unfold wrap
  unfold fitsI32 at h
  rw [Int.bmod_eq_of_le] <;> omega

theorem decomposesExactly_of_le {days : ℤ} (hlow : -2 ^ 31 ≤ days)
    (hhigh : days ≤ 2 ^ 31 - 1 - 719468) : DecomposesExactly days := by
  obtain ⟨date, hchecked, hvalid, hcount⟩ := @civil_eq Option _ _
    (fun x => if fitsI32 x then some x else none) (fun x h => if_pos h) days hlow hhigh
  obtain ⟨date', hkernel, hvalid', hcount'⟩ := @civil_eq Id _ _ (fun x => pure (wrap x))
    (fun x h => congrArg pure (wrap_of_fits h)) days hlow hhigh
  have hsame : kernelCivil days = date' := hkernel
  have heq : date = date' := dayCount_injective hvalid hvalid' (hcount.trans hcount'.symm)
  unfold DecomposesExactly
  rw [hsame]
  refine ⟨?_, hvalid', hcount', fun other hother hothercount => ?_⟩
  · rw [← heq]
    exact hchecked
  · exact dayCount_injective hother hvalid' (hothercount.trans hcount'.symm)

theorem not_decomposesExactly_of_lt {days : ℤ} (h : 2 ^ 31 - 1 - 719468 < days) :
    ¬ DecomposesExactly days := by
  rintro ⟨hchecked, -⟩
  have hsum : ¬ fitsI32 (days + 719468) := fun hfits => by
    have := hfits.2
    omega
  unfold checkedCivil civil eraOf at hchecked
  simp only [if_neg hsum] at hchecked
  cases hchecked

/-- The kernel inverts the calendar on every day number whose shift to the era fits, and steps from
date to date with it. -/
theorem civil_exact_iff (days : BitVec 32) :
    (DecomposesExactly days.toInt ↔ days.toInt ≤ 2 ^ 31 - 1 - 719468) ∧
      (days.toInt + 1 ≤ 2 ^ 31 - 1 - 719468 →
        kernelCivil (days.toInt + 1) = (kernelCivil days.toInt).next) := by
  have hlow : -2 ^ 31 ≤ days.toInt := by
    have := days.le_toInt
    simpa using this
  refine ⟨⟨fun h => ?_, decomposesExactly_of_le hlow⟩, fun h => ?_⟩
  · by_contra hlt
    exact not_decomposesExactly_of_lt (not_le.1 hlt) h
  · obtain ⟨-, hvalid, hcount, -⟩ := decomposesExactly_of_le hlow (by omega)
    obtain ⟨-, -, -, hunique⟩ := @decomposesExactly_of_le (days.toInt + 1) (by omega) h
    obtain ⟨hnext, hnextCount⟩ := hvalid.next
    exact (hunique _ hnext (by rw [hnextCount, hcount])).symm

/-- A shift that leaves 32 bits. -/
theorem civil_overflows : (2146764180#32).toInt = 2146764180 ∧ checkedCivil 2146764180 = none ∧
    (kernelCivil 2146764180).dayCount ≠ 2146764180 := by
  decide

/-! The column. -/

theorem narrow_of_valid {date : Date} (h : date.Valid) (field : DtField) :
    narrow field (field.of date) = field.of date := by
  obtain ⟨hm1, hm12, hd1, hdle⟩ := h
  have hd31 : date.day ≤ 31 := by
    unfold daysInMonth at hdle
    split_ifs at hdle <;> omega
  cases field with
  | year => rfl
  | month => exact Int.bmod_eq_of_le (by simp only [DtField.of]; omega) (by simp only [DtField.of]; omega)
  | day => exact Int.bmod_eq_of_le (by simp only [DtField.of]; omega) (by simp only [DtField.of]; omega)

/-- Every row whose shift fits gets the field of its date, and a null row stays null. -/
theorem dtSeries_eq {field : DtField} {src : List (Option ℤ)}
    (hfits : ∀ days, some days ∈ src → -2 ^ 31 ≤ days ∧ days ≤ 2 ^ 31 - 1 - 719468) :
    dtSeries field src = src.map (Option.map fun days => field.of (kernelCivil days)) := by
  have hzip : dtSeries field src = src.map fun v =>
      if v.isSome then some (narrow field (fieldFromDays field (v.getD 0))) else none := by
    unfold dtSeries
    simp only [List.map_map, List.zip_map', Function.comp_def]
  rw [hzip]
  refine List.map_congr_left fun v hv => ?_
  cases v with
  | none => rfl
  | some days =>
    obtain ⟨hlow, hhigh⟩ := hfits days hv
    have hvalid := (decomposesExactly_of_le hlow hhigh).2.1
    simp only [Option.isSome_some, if_true, Option.getD_some, Option.map_some]
    rw [fieldFromDays, narrow_of_valid hvalid]

end PolarsMetal.Dt
