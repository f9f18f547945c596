import Mathlib.Algebra.Order.Field.Power
import Mathlib.Algebra.Order.Field.Rat
import Mathlib.Data.Rat.Floor
import Mathlib.Order.Monotone.Odd
import Mathlib.Order.WithBot
import Mathlib.Tactic

/-! Binary floating-point formats and their comparisons. A pattern without its sign bit is ordered
as its magnitude, so that comparisons are comparisons of signed integers. -/

namespace Ieee

/-! Comparisons, with an element that is not ordered. -/

inductive Comparison where
  | eq | ne | lt | le | gt | ge
deriving DecidableEq, Repr

namespace Comparison

variable {α : Type*} [LinearOrder α]

def holds (c : Comparison) (a b : α) : Bool :=
  match c with
  | eq => a = b
  | ne => a ≠ b
  | lt => a < b
  | le => a ≤ b
  | gt => b < a
  | ge => b ≤ a

/-- With `none` for NaN: only `≠` holds of it. -/
def ieee (c : Comparison) (a b : Option α) : Bool :=
  match a, b with
  | some a, some b => c.holds a b
  | _, _ => c = ne

/-- The comparison with its operands exchanged. -/
def swap : Comparison → Comparison
  | eq => eq
  | ne => ne
  | lt => gt
  | le => ge
  | gt => lt
  | ge => le

theorem holds_swap (c : Comparison) (a b : α) : c.swap.holds b a = c.holds a b := by
  cases c with
  | eq => exact decide_eq_decide.2 eq_comm
  | ne => exact decide_eq_decide.2 ne_comm
  | _ => rfl

theorem ieee_swap (c : Comparison) (a b : Option α) : c.swap.ieee b a = c.ieee a b := by
  rcases a with _ | a <;> rcases b with _ | b
  · cases c <;> rfl
  · cases c <;> rfl
  · cases c <;> rfl
  · exact holds_swap c a b

end Comparison

/-! Formats. -/

structure Format where
  expBits : ℕ
  mantBits : ℕ
  expBits_pos : 0 < expBits

def f32 : Format := ⟨8, 23, by decide⟩
def f64 : Format := ⟨11, 52, by decide⟩

/-- The rationals with two infinities. -/
abbrev Extended := WithBot (WithTop ℚ)

namespace Format

variable (F : Format)

def mant (n : ℕ) : ℕ := n % 2 ^ F.mantBits

def expo (n : ℕ) : ℕ := n / 2 ^ F.mantBits % 2 ^ F.expBits

def negative (n : ℕ) : Bool := n / 2 ^ (F.mantBits + F.expBits) % 2 = 1

/-- The pattern without its sign. -/
def low (n : ℕ) : ℕ := n % 2 ^ (F.mantBits + F.expBits)

/-- The pattern of infinity. -/
def top : ℕ := (2 ^ F.expBits - 1) * 2 ^ F.mantBits

/-- The magnitude of a finite pattern in units of the smallest subnormal. -/
def magnitude (n : ℕ) : ℕ :=
  if F.expo n = 0 then F.mant n else (2 ^ F.mantBits + F.mant n) * 2 ^ (F.expo n - 1)

/-- The smallest subnormal. -/
def unit : ℚ := 2 ^ (2 - 2 ^ (F.expBits - 1) - F.mantBits : ℤ)

/-- The value of a pattern; `none` is NaN. -/
def value (n : ℕ) : Option Extended :=
  if F.expo n = 2 ^ F.expBits - 1 then
    if F.mant n = 0 then some (if F.negative n then ⊥ else ⊤) else none
  else
    let size : ℚ := F.magnitude n * F.unit
    some (((if F.negative n then -size else size : ℚ) : WithTop ℚ) : Extended)

/-- The pattern as a signed integer. -/
def signed (n : ℕ) : ℤ := if F.negative n then -(F.low n) else F.low n

/-! Fields of the unsigned pattern. -/

theorem low_eq (n : ℕ) : F.low n = F.expo n * 2 ^ F.mantBits + F.mant n := by
  rw [low, expo, mant, pow_add, Nat.mod_mul, Nat.mul_comm, Nat.add_comm]

theorem mant_lt (n : ℕ) : F.mant n < 2 ^ F.mantBits := Nat.mod_lt _ (by positivity)

theorem expo_lt (n : ℕ) : F.expo n < 2 ^ F.expBits := Nat.mod_lt _ (by positivity)

theorem expo_low (n : ℕ) : F.low n / 2 ^ F.mantBits = F.expo n := by
  rw [low_eq, Nat.mul_comm, Nat.mul_add_div (by positivity), Nat.div_eq_of_lt (F.mant_lt n),
    Nat.add_zero]

theorem mant_low (n : ℕ) : F.low n % 2 ^ F.mantBits = F.mant n := by
  rw [low_eq, Nat.mul_comm, Nat.mul_add_mod, Nat.mod_eq_of_lt (F.mant_lt n)]

theorem low_lt_top_iff {n : ℕ} : F.low n < F.top ↔ F.expo n ≠ 2 ^ F.expBits - 1 := by
  have hm := F.mant_lt n
  have he := F.expo_lt n
  rw [low_eq, top]
  refine ⟨fun h heq => ?_, fun h => ?_⟩
  · rw [heq] at h
    omega
  · have hle : F.expo n + 1 ≤ 2 ^ F.expBits - 1 := by omega
    calc F.expo n * 2 ^ F.mantBits + F.mant n < (F.expo n + 1) * 2 ^ F.mantBits := by
          rw [Nat.add_mul, Nat.one_mul]
          omega
      _ ≤ (2 ^ F.expBits - 1) * 2 ^ F.mantBits := Nat.mul_le_mul_right _ hle

theorem top_pos : 0 < F.top := by
  have hpow : 2 ≤ 2 ^ F.expBits := by
    calc 2 = 2 ^ 1 := rfl
      _ ≤ 2 ^ F.expBits := Nat.pow_le_pow_right (by decide) F.expBits_pos
  exact Nat.mul_pos (by omega) (by positivity)

theorem value_eq_none_iff {n : ℕ} : F.value n = none ↔ F.top < F.low n := by
  have hm := F.mant_lt n
  unfold value
  by_cases he : F.expo n = 2 ^ F.expBits - 1
  · rw [if_pos he, low_eq, top, he]
    by_cases hz : F.mant n = 0
    · simp [hz]
    · simp only [hz, if_false, true_iff]
      omega
  · rw [if_neg he]
    have := F.low_lt_top_iff.2 he
    simp only [reduceCtorEq, false_iff]
    omega

/-! Magnitudes grow with the pattern. -/

/-- The magnitude as a function of the unsigned pattern. -/
def magOf (k : ℕ) : ℕ :=
  if k / 2 ^ F.mantBits = 0 then k % 2 ^ F.mantBits
  else (2 ^ F.mantBits + k % 2 ^ F.mantBits) * 2 ^ (k / 2 ^ F.mantBits - 1)

theorem magnitude_eq (n : ℕ) : F.magnitude n = F.magOf (F.low n) := by
  rw [magnitude, magOf, expo_low, mant_low]

theorem magOf_zero : F.magOf 0 = 0 := by simp [magOf]

theorem magOf_strictMono : StrictMono F.magOf := by
  refine strictMono_nat_of_lt_succ (fun k => ?_)
  have hpos : 0 < 2 ^ F.mantBits := by positivity
  have hmod := Nat.mod_lt k hpos
  by_cases hcarry : k % 2 ^ F.mantBits + 1 = 2 ^ F.mantBits
  · -- the mantissa overflows into the next exponent
    have hsplit : k + 1 = (k / 2 ^ F.mantBits + 1) * 2 ^ F.mantBits := by
      have := Nat.div_add_mod k (2 ^ F.mantBits)
      rw [Nat.add_mul, Nat.one_mul, Nat.mul_comm]
      omega
    have hdiv : (k + 1) / 2 ^ F.mantBits = k / 2 ^ F.mantBits + 1 := by
      rw [hsplit, Nat.mul_div_cancel _ hpos]
    have hmod' : (k + 1) % 2 ^ F.mantBits = 0 := by rw [hsplit, Nat.mul_mod_left]
    rw [magOf, magOf, hdiv, hmod', if_neg (Nat.succ_ne_zero _), Nat.add_zero, Nat.add_sub_cancel]
    by_cases hzero : k / 2 ^ F.mantBits = 0
    · rw [if_pos hzero, hzero, pow_zero, Nat.mul_one]
      exact hmod
    · obtain ⟨e, he⟩ := Nat.exists_eq_succ_of_ne_zero hzero
      rw [if_neg hzero, he, Nat.succ_sub_one, pow_succ', ← Nat.mul_assoc]
      refine Nat.mul_lt_mul_of_pos_right (by omega) (by positivity)
  · have hdiv : (k + 1) / 2 ^ F.mantBits = k / 2 ^ F.mantBits := by
      have := Nat.div_add_mod k (2 ^ F.mantBits)
      refine Nat.div_eq_of_lt_le ?_ ?_
      · rw [Nat.mul_comm]
        omega
      · rw [Nat.succ_mul, Nat.mul_comm]
        omega
    have hmod' : (k + 1) % 2 ^ F.mantBits = k % 2 ^ F.mantBits + 1 := by
      have h1 := Nat.div_add_mod k (2 ^ F.mantBits)
      have h2 := Nat.div_add_mod (k + 1) (2 ^ F.mantBits)
      rw [hdiv] at h2
      omega
    rw [magOf, magOf, hdiv, hmod']
    by_cases hzero : k / 2 ^ F.mantBits = 0
    · rw [if_pos hzero, if_pos hzero]
      omega
    · rw [if_neg hzero, if_neg hzero]
      exact Nat.mul_lt_mul_of_pos_right (by omega) (by positivity)

theorem magOf_eq_zero {k : ℕ} : F.magOf k = 0 ↔ k = 0 := by
  refine ⟨fun h => F.magOf_strictMono.injective (h.trans F.magOf_zero.symm), fun h => ?_⟩
  rw [h, magOf_zero]

/-- The magnitude with the sign of a signed pattern. -/
def signedMag (s : ℤ) : ℤ := s.sign * F.magOf s.natAbs

theorem signedMag_strictMono : StrictMono F.signedMag := by
  refine strictMono_of_odd_strictMonoOn_nonneg (fun s => ?_) (fun s hs t _ hst => ?_)
  · rw [signedMag, signedMag, Int.sign_neg, Int.natAbs_neg, Int.neg_mul]
  · obtain ⟨a, rfl⟩ := Int.eq_ofNat_of_zero_le hs
    obtain ⟨b, rfl⟩ := Int.eq_ofNat_of_zero_le (le_of_lt (lt_of_le_of_lt hs hst))
    have hab : a < b := by exact_mod_cast hst
    have hmag := F.magOf_strictMono hab
    have hsign : ∀ c : ℕ, F.signedMag c = F.magOf c := by
      intro c
      rcases Nat.eq_zero_or_pos c with rfl | hc
      · simp [signedMag, magOf_zero]
      · rw [signedMag, Int.sign_eq_one_of_pos (by exact_mod_cast hc), Int.one_mul, Int.natAbs_natCast]
    change F.signedMag (a : ℤ) < F.signedMag (b : ℤ)
    rw [hsign, hsign]
    exact_mod_cast hmag

/-! Rounding to the nearest. -/

/-- The pattern of the largest magnitude of at most `m` units. -/
def floorPattern (m : ℕ) : ℕ :=
  let shift := m.log2 - F.mantBits
  shift * 2 ^ F.mantBits + m / 2 ^ shift

theorem floorPattern_magOf (k : ℕ) : F.floorPattern (F.magOf k) = k := by
  have hpos : 0 < 2 ^ F.mantBits := by positivity
  have hmod := Nat.mod_lt k hpos
  have hk := Nat.div_add_mod k (2 ^ F.mantBits)
  unfold floorPattern magOf
  by_cases hzero : k / 2 ^ F.mantBits = 0
  · -- a subnormal is its own pattern
    rw [hzero, Nat.mul_zero, Nat.zero_add] at hk
    have hshift : (k % 2 ^ F.mantBits).log2 - F.mantBits = 0 := by
      by_cases hm : k % 2 ^ F.mantBits = 0
      · rw [hm]
        simp
      · have := (Nat.log2_lt hm).2 hmod
        omega
    simp only [if_pos hzero, hshift, Nat.zero_mul, Nat.zero_add, pow_zero, Nat.div_one]
    exact hk
  · obtain ⟨e, he⟩ := Nat.exists_eq_succ_of_ne_zero hzero
    have hlog : ((2 ^ F.mantBits + k % 2 ^ F.mantBits) * 2 ^ e).log2 = F.mantBits + e := by
      refine (Nat.log2_eq_iff (by positivity)).2 ⟨?_, ?_⟩
      · rw [pow_add]
        exact Nat.mul_le_mul_right _ (Nat.le_add_right _ _)
      · calc (2 ^ F.mantBits + k % 2 ^ F.mantBits) * 2 ^ e < (2 ^ F.mantBits * 2) * 2 ^ e :=
              Nat.mul_lt_mul_of_pos_right (by omega) (by positivity)
          _ = 2 ^ (F.mantBits + e + 1) := by ring
    simp only [if_neg hzero]
    rw [he] at hk ⊢
    simp only [Nat.succ_sub_one, hlog, Nat.add_sub_cancel_left]
    rw [Nat.mul_div_cancel _ (by positivity)]
    have hsucc : 2 ^ F.mantBits * e.succ = e * 2 ^ F.mantBits + 2 ^ F.mantBits := by
      rw [Nat.mul_succ, Nat.mul_comm]
    omega

/-- The pattern of the magnitude nearest to `q`, ties to the even one; the infinity is where the next
magnitude would be. -/
def nearest (q : ℚ) : ℕ :=
  let units := q / F.unit
  let k := F.floorPattern ⌊units⌋.toNat
  let above : ℚ := units - F.magOf k
  let gap : ℚ := F.magOf (k + 1) - F.magOf k
  min F.top (if gap < 2 * above ∨ 2 * above = gap ∧ k % 2 = 1 then k + 1 else k)

theorem unit_pos : 0 < F.unit := zpow_pos (by norm_num) _

/-- A magnitude of the format is its own nearest. -/
theorem nearest_magOf {k : ℕ} (hk : k ≤ F.top) : F.nearest (F.magOf k * F.unit) = k := by
  have hunits : (F.magOf k * F.unit : ℚ) / F.unit = F.magOf k :=
    mul_div_cancel_right₀ _ F.unit_pos.ne'
  have hgap : (F.magOf k : ℚ) < F.magOf (k + 1) := by
    exact_mod_cast F.magOf_strictMono (Nat.lt_succ_self k)
  unfold nearest
  simp only [hunits, Int.floor_natCast, Int.toNat_natCast, floorPattern_magOf, sub_self, mul_zero]
  rw [if_neg]
  · exact Nat.min_eq_right hk
  · rintro (h | ⟨h, -⟩)
    · linarith
    · linarith

/-- The value of a signed pattern that is not beyond infinity. -/
def signedValue (s : ℤ) : Extended :=
  if (F.top : ℤ) ≤ s then ⊤
  else if s ≤ -F.top then ⊥
  else ((F.signedMag s * F.unit : ℚ) : WithTop ℚ)

theorem value_eq_signedValue {n : ℕ} (h : F.low n ≤ F.top) :
    F.value n = some (F.signedValue (F.signed n)) := by
  have htop := F.top_pos
  unfold value
  by_cases he : F.expo n = 2 ^ F.expBits - 1
  · have hlow : F.low n = F.top := by
      have := mt F.low_lt_top_iff.1 (not_not.2 he)
      omega
    have hmant : F.mant n = 0 := by
      rw [low_eq, top, he] at hlow
      omega
    rw [if_pos he, if_pos hmant, signedValue, signed, hlow]
    by_cases hneg : F.negative n = true
    · rw [if_pos hneg, if_pos hneg, if_neg (by omega), if_pos le_rfl]
    · rw [if_neg hneg, if_neg hneg, if_pos le_rfl]
  · have hlow := F.low_lt_top_iff.2 he
    rw [if_neg he, signedValue, signed, magnitude_eq]
    by_cases hneg : F.negative n = true
    · simp only [if_pos hneg]
      rw [if_neg (by omega), if_neg (by omega)]
      have hmag : F.signedMag (-(F.low n : ℤ)) = -(F.magOf (F.low n) : ℤ) := by
        rcases Nat.eq_zero_or_pos (F.low n) with h0 | h0
        · simp [signedMag, h0, magOf_zero]
        · rw [signedMag, Int.sign_neg, Int.sign_eq_one_of_pos (by exact_mod_cast h0), Int.natAbs_neg,
            Int.natAbs_natCast, Int.neg_mul, Int.one_mul]
      have hsize : ((-(F.magOf (F.low n) : ℤ) : ℤ) : ℚ) * F.unit =
          -((F.magOf (F.low n) : ℚ) * F.unit) := by
        push_cast
        ring
      rw [hmag, hsize]
    · simp only [if_neg hneg]
      rw [if_neg (by omega), if_neg (by omega)]
      have hmag : F.signedMag (F.low n : ℤ) = (F.magOf (F.low n) : ℤ) := by
        rcases Nat.eq_zero_or_pos (F.low n) with h0 | h0
        · simp [signedMag, h0, magOf_zero]
        · rw [signedMag, Int.sign_eq_one_of_pos (by exact_mod_cast h0), Int.natAbs_natCast, Int.one_mul]
      rw [hmag, Int.cast_natCast]

/-! The value by the unsigned pattern. -/

theorem value_of_eq_top {n : ℕ} (h : F.low n = F.top) :
    F.value n = some (if F.negative n then ⊥ else ⊤) := by
  have htop := F.top_pos
  rw [F.value_eq_signedValue h.le, signed, h, signedValue]
  by_cases hneg : F.negative n = true
  · rw [if_pos hneg, if_pos hneg, if_neg (by omega), if_pos le_rfl]
  · rw [if_neg hneg, if_neg hneg, if_pos le_rfl]

theorem value_of_lt_top {n : ℕ} (h : F.low n < F.top) :
    F.value n = some (((if F.negative n then -(F.magOf (F.low n) * F.unit)
      else F.magOf (F.low n) * F.unit : ℚ) : WithTop ℚ) : Extended) := by
  rw [value, if_neg (F.low_lt_top_iff.1 h), magnitude_eq]

theorem signedValue_strictMono {s t : ℤ} (hs : -(F.top : ℤ) ≤ s) (ht : t ≤ F.top) (hst : s < t) :
    F.signedValue s < F.signedValue t := by
  have htop : (0 : ℤ) < F.top := by exact_mod_cast F.top_pos
  unfold signedValue
  rw [if_neg (by omega : ¬(F.top : ℤ) ≤ s)]
  by_cases hbot : s ≤ -F.top
  · rw [if_pos hbot]
    split_ifs with h₁ h₂
    · exact WithBot.bot_lt_coe _
    · omega
    · exact WithBot.bot_lt_coe _
  · rw [if_neg hbot]
    split_ifs with h₁ h₂
    · exact WithBot.coe_lt_coe.2 (WithTop.coe_lt_top _)
    · omega
    · refine WithBot.coe_lt_coe.2 (WithTop.coe_lt_coe.2 ?_)
      have hmag := F.signedMag_strictMono hst
      exact mul_lt_mul_of_pos_right (by exact_mod_cast hmag) F.unit_pos

/-- Floats compare as signed integers, unless one is NaN. -/
theorem ieee_value (c : Comparison) {a b : ℕ} :
    c.ieee (F.value a) (F.value b) =
      if F.top < F.low a ∨ F.top < F.low b then decide (c = .ne)
      else c.holds (F.signed a) (F.signed b) := by
  by_cases ha : F.top < F.low a
  · rw [F.value_eq_none_iff.2 ha, if_pos (Or.inl ha)]
    rfl
  by_cases hb : F.top < F.low b
  · rw [F.value_eq_none_iff.2 hb, if_pos (Or.inr hb)]
    cases F.value a <;> rfl
  rw [if_neg (by omega), F.value_eq_signedValue (by omega), F.value_eq_signedValue (by omega)]
  have hrange : ∀ n, ¬F.top < F.low n → -(F.top : ℤ) ≤ F.signed n ∧ F.signed n ≤ F.top := by
    intro n hn
    unfold signed
    split_ifs <;> omega
  obtain ⟨ha₁, ha₂⟩ := hrange a ha
  obtain ⟨hb₁, hb₂⟩ := hrange b hb
  change c.holds _ _ = _
  rcases lt_trichotomy (F.signed a) (F.signed b) with h | h | h
  · have hv := F.signedValue_strictMono ha₁ hb₂ h
    cases c <;> simp [Comparison.holds, h, hv, h.le, hv.le, h.ne, hv.ne, not_lt.2 h.le,
      not_lt.2 hv.le, not_le.2 h, not_le.2 hv]
  · rw [h]
    cases c <;> simp [Comparison.holds]
  · have hv := F.signedValue_strictMono hb₁ ha₂ h
    cases c <;> simp [Comparison.holds, h, hv, h.le, hv.le, h.ne', hv.ne', not_lt.2 h.le,
      not_lt.2 hv.le, not_le.2 h, not_le.2 hv]

/-! Patterns by their sign and the rest. -/

def withSign (neg : Bool) (k : ℕ) : ℕ := neg.toNat * 2 ^ (F.mantBits + F.expBits) + k

theorem top_lt : F.top < 2 ^ (F.mantBits + F.expBits) := by
  rw [top, pow_add, Nat.mul_comm]
  exact Nat.mul_lt_mul_of_pos_left (Nat.sub_lt (by positivity) (by decide)) (by positivity)

section WithSign

variable {F} {neg : Bool} {k : ℕ} (hk : k < 2 ^ (F.mantBits + F.expBits))
include hk

theorem withSign_lt : F.withSign neg k < 2 ^ (F.mantBits + F.expBits + 1) := by
  have hneg : neg.toNat ≤ 1 := by cases neg <;> decide
  have hsign : neg.toNat * 2 ^ (F.mantBits + F.expBits) ≤ 1 * 2 ^ (F.mantBits + F.expBits) :=
    Nat.mul_le_mul_right _ hneg
  rw [withSign, pow_succ]
  omega

theorem low_withSign : F.low (F.withSign neg k) = k := by
  rw [low, withSign, Nat.mul_comm neg.toNat, Nat.mul_add_mod, Nat.mod_eq_of_lt hk]

theorem negative_withSign : F.negative (F.withSign neg k) = neg := by
  rw [negative, withSign, Nat.mul_comm neg.toNat, Nat.mul_add_div (by positivity),
    Nat.div_eq_of_lt hk, Nat.add_zero]
  cases neg <;> rfl

end WithSign

/-! Patterns by their fields. -/

/-- The pattern of a sign, an exponent and a mantissa. -/
def pattern (neg : Bool) (e m : ℕ) : ℕ :=
  neg.toNat * 2 ^ (F.mantBits + F.expBits) + (e * 2 ^ F.mantBits + m)

section Fields

variable {F} {neg : Bool} {e m : ℕ} (he : e < 2 ^ F.expBits) (hm : m < 2 ^ F.mantBits)
include he hm

theorem lt_two_pow_of_fields : e * 2 ^ F.mantBits + m < 2 ^ (F.mantBits + F.expBits) := by
  calc e * 2 ^ F.mantBits + m < (e + 1) * 2 ^ F.mantBits := by
        rw [Nat.add_mul, Nat.one_mul]
        omega
    _ ≤ 2 ^ F.expBits * 2 ^ F.mantBits := Nat.mul_le_mul_right _ he
    _ = 2 ^ (F.mantBits + F.expBits) := by rw [pow_add, Nat.mul_comm]

theorem pattern_lt : F.pattern neg e m < 2 ^ (F.mantBits + F.expBits + 1) :=
  withSign_lt (lt_two_pow_of_fields he hm)

theorem low_pattern : F.low (F.pattern neg e m) = e * 2 ^ F.mantBits + m :=
  low_withSign (lt_two_pow_of_fields he hm)

theorem expo_pattern : F.expo (F.pattern neg e m) = e := by
  rw [← expo_low, low_pattern he hm, Nat.mul_comm, Nat.mul_add_div (by positivity),
    Nat.div_eq_of_lt hm, Nat.add_zero]

theorem mant_pattern : F.mant (F.pattern neg e m) = m := by
  rw [← mant_low, low_pattern he hm, Nat.mul_comm, Nat.mul_add_mod, Nat.mod_eq_of_lt hm]

theorem negative_pattern : F.negative (F.pattern neg e m) = neg :=
  negative_withSign (lt_two_pow_of_fields he hm)

theorem value_pattern_finite (hfinite : e ≠ 2 ^ F.expBits - 1) :
    F.value (F.pattern neg e m) =
      let size : ℚ :=
        ((if e = 0 then m else (2 ^ F.mantBits + m) * 2 ^ (e - 1) : ℕ) : ℚ) * F.unit
      some (((if neg then -size else size : ℚ) : WithTop ℚ) : Extended) := by
  rw [value, expo_pattern he hm, if_neg hfinite, negative_pattern he hm, magnitude,
    expo_pattern he hm, mant_pattern he hm]

end Fields

end Format

/-! Single precision inside double precision. -/

/-- The double of a single's value. -/
def widen (n : ℕ) : ℕ :=
  let m := f32.mant n
  let k := m.log2
  if f32.expo n = 255 then f64.pattern (f32.negative n) 2047 (m * 2 ^ 29)
  else if f32.expo n ≠ 0 then f64.pattern (f32.negative n) (f32.expo n + 896) (m * 2 ^ 29)
  else if m = 0 then f64.pattern (f32.negative n) 0 0
  -- a subnormal single is a normal double
  else f64.pattern (f32.negative n) (k + 874) ((m - 2 ^ k) * 2 ^ (52 - k))

/-- The mantissa a subnormal gets, without its leading bit. -/
theorem widen_mant_lt {m : ℕ} (hm : m < 2 ^ 23) (hz : m ≠ 0) :
    (m - 2 ^ m.log2) * 2 ^ (52 - m.log2) < 2 ^ 52 := by
  have hlog : m.log2 < 23 := (Nat.log2_lt hz).2 hm
  have hnext : m < 2 ^ (m.log2 + 1) := Nat.lt_log2_self
  calc (m - 2 ^ m.log2) * 2 ^ (52 - m.log2) < 2 ^ m.log2 * 2 ^ (52 - m.log2) := by
        refine Nat.mul_lt_mul_of_pos_right ?_ (by positivity)
        rw [pow_succ] at hnext
        omega
    _ = 2 ^ 52 := by rw [← pow_add, show m.log2 + (52 - m.log2) = 52 by omega]

/-- The sign is kept, over fields of the wider format. -/
theorem widen_fields (n : ℕ) : ∃ e m, e < 2 ^ f64.expBits ∧ m < 2 ^ f64.mantBits ∧
    widen n = f64.pattern (f32.negative n) e m := by
  have hm : f32.mant n < 2 ^ 23 := f32.mant_lt n
  have he : f32.expo n < 2 ^ 8 := f32.expo_lt n
  change ∃ e m, e < 2 ^ 11 ∧ m < 2 ^ 52 ∧ _
  unfold widen
  by_cases htop : f32.expo n = 255
  · rw [if_pos htop]
    exact ⟨_, _, by decide, by omega, rfl⟩
  rw [if_neg htop]
  by_cases hnormal : f32.expo n ≠ 0
  · rw [if_pos hnormal]
    exact ⟨_, _, by omega, by omega, rfl⟩
  rw [if_neg hnormal]
  by_cases hz : f32.mant n = 0
  · rw [if_pos hz]
    exact ⟨_, _, by decide, by decide, rfl⟩
  · rw [if_neg hz]
    have hlog : (f32.mant n).log2 < 23 := (Nat.log2_lt hz).2 hm
    exact ⟨_, _, by omega, widen_mant_lt hm hz, rfl⟩

theorem widen_lt (n : ℕ) : widen n < 2 ^ 64 := by
  obtain ⟨e, m, he, hm, heq⟩ := widen_fields n
  rw [heq]
  exact Format.pattern_lt he hm

theorem negative_widen (n : ℕ) : f64.negative (widen n) = f32.negative n := by
  obtain ⟨e, m, he, hm, heq⟩ := widen_fields n
  rw [heq, Format.negative_pattern he hm]

theorem unit_f32 : f32.unit = 2 ^ 925 * f64.unit := by
  have h32 : f32.unit = 2 ^ (-149 : ℤ) := by norm_num [Format.unit, f32]
  have h64 : f64.unit = 2 ^ (-1074 : ℤ) := by norm_num [Format.unit, f64]
  rw [h32, h64, ← zpow_natCast, ← zpow_add₀ (by norm_num)]
  norm_num

theorem value_of_scaled {neg : Bool} {n e m : ℕ} (he : e < 2047) (hm : m < 2 ^ 52)
    (hneg : f32.negative n = neg) (hexpo : f32.expo n ≠ 255)
    (hscale : (if e = 0 then m else (2 ^ 52 + m) * 2 ^ (e - 1)) = f32.magnitude n * 2 ^ 925) :
    f64.value (f64.pattern neg e m) = f32.value n := by
  have he' : e < 2 ^ f64.expBits := lt_trans he (by decide)
  have hfinite : e ≠ 2 ^ f64.expBits - 1 := by
    change e ≠ 2047
    omega
  have hsize : ((if e = 0 then m else (2 ^ f64.mantBits + m) * 2 ^ (e - 1) : ℕ) : ℚ) * f64.unit =
      f32.magnitude n * f32.unit := by
    change ((if e = 0 then m else (2 ^ 52 + m) * 2 ^ (e - 1) : ℕ) : ℚ) * f64.unit = _
    rw [hscale, unit_f32, Nat.cast_mul, Nat.cast_pow, Nat.cast_ofNat, mul_assoc]
  rw [Format.value_pattern_finite he' hm hfinite, hsize, ← hneg]
  unfold Format.value
  rw [if_neg (show f32.expo n ≠ 2 ^ f32.expBits - 1 from hexpo)]

/-- The cast keeps the value. -/
theorem value_widen (n : ℕ) : f64.value (widen n) = f32.value n := by
  have hm : f32.mant n < 2 ^ 23 := f32.mant_lt n
  have he : f32.expo n < 2 ^ 8 := f32.expo_lt n
  unfold widen
  by_cases htop : f32.expo n = 255
  · have hfields : f32.mant n * 2 ^ 29 < 2 ^ 52 := by omega
    have he' : 2047 < 2 ^ f64.expBits := by decide
    rw [if_pos htop, Format.value, Format.expo_pattern he' hfields, Format.mant_pattern he' hfields,
      Format.negative_pattern he' hfields, if_pos (by decide), Format.value,
      if_pos (show f32.expo n = 2 ^ f32.expBits - 1 from htop)]
    by_cases hz : f32.mant n = 0
    · rw [if_pos hz, if_pos (by omega)]
    · rw [if_neg hz, if_neg (by omega)]
  rw [if_neg htop]
  by_cases hnormal : f32.expo n ≠ 0
  · rw [if_pos hnormal]
    refine value_of_scaled (by omega) (by omega) rfl htop ?_
    rw [if_neg (by omega), Format.magnitude, if_neg hnormal]
    change (2 ^ 52 + f32.mant n * 2 ^ 29) * 2 ^ (f32.expo n + 896 - 1) =
      (2 ^ 23 + f32.mant n) * 2 ^ (f32.expo n - 1) * 2 ^ 925
    have hsig : 2 ^ 52 + f32.mant n * 2 ^ 29 = (2 ^ 23 + f32.mant n) * 2 ^ 29 := by omega
    rw [hsig, Nat.mul_assoc, Nat.mul_assoc, ← pow_add, ← pow_add,
      show 29 + (f32.expo n + 896 - 1) = f32.expo n - 1 + 925 by omega]
  rw [if_neg hnormal]
  rw [not_not] at hnormal
  have hmag : f32.magnitude n = f32.mant n := by rw [Format.magnitude, if_pos hnormal]
  by_cases hz : f32.mant n = 0
  · rw [if_pos hz]
    refine value_of_scaled (by decide) (by decide) rfl htop ?_
    rw [if_pos rfl, hmag, hz, Nat.zero_mul]
  rw [if_neg hz]
  have hlog : (f32.mant n).log2 < 23 := (Nat.log2_lt hz).2 hm
  have hself : 2 ^ (f32.mant n).log2 ≤ f32.mant n := Nat.log2_self_le hz
  have hmant := widen_mant_lt hm hz
  generalize (f32.mant n).log2 = k at hlog hself hmant
  have hsplit : 2 ^ k * 2 ^ (52 - k) = 2 ^ 52 := by rw [← pow_add, show k + (52 - k) = 52 by omega]
  refine value_of_scaled (by omega) hmant rfl htop ?_
  rw [if_neg (by omega), hmag, ← hsplit, ← Nat.add_mul, Nat.add_sub_cancel' hself, Nat.mul_assoc,
    ← pow_add, show 52 - k + (k + 874 - 1) = 925 by omega]

end Ieee
