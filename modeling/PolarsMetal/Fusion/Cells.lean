import PolarsMetal.Fusion.Expr

/-! The cells of staged arrays: their element types, the number a cell shows, and the casts between
them. -/

namespace PolarsMetal.Fusion

/-! Element types. -/

inductive MlxDtype where
  | f32 | f64 | i32 | bool | i8 | i16 | i64 | u8 | u16 | u32 | u64
deriving DecidableEq, Repr

namespace MlxDtype

def elementSize : MlxDtype → ℕ
  | bool | i8 | u8 => 1
  | i16 | u16 => 2
  | f32 | i32 | u32 => 4
  | f64 | i64 | u64 => 8

abbrev Cell (d : MlxDtype) := BitVec (8 * d.elementSize)

def isFloat : MlxDtype → Bool
  | f32 | f64 => true
  | _ => false

def isInt (d : MlxDtype) : Bool := !d.isFloat && d ≠ bool

def isSigned : MlxDtype → Bool
  | i8 | i16 | i32 | i64 => true
  | _ => false

/-- The integers of an integer dtype. -/
def InRange (d : MlxDtype) (n : ℤ) : Prop :=
  if d.isSigned then -2 ^ (8 * d.elementSize - 1) ≤ n ∧ n < 2 ^ (8 * d.elementSize - 1)
  else 0 ≤ n ∧ n < 2 ^ (8 * d.elementSize)

instance (d : MlxDtype) (n : ℤ) : Decidable (d.InRange n) := by
  unfold InRange
  infer_instance

end MlxDtype

/-! Floats and patterns. -/

namespace PyFloat

/-- The number a pattern shows. -/
def ofPattern (F : Ieee.Format) (n : ℕ) : PyFloat :=
  if F.top < F.low n then nan
  else if F.low n = F.top then inf (F.negative n)
  else if F.low n = 0 ∧ F.negative n then negZero
  else
    let size : ℚ := F.magOf (F.low n) * F.unit
    finite (if F.negative n then -size else size)

/-- The pattern nearest to a number. -/
def pattern (F : Ieee.Format) : PyFloat → ℕ
  | nan => F.withSign false (F.top + 2 ^ (F.mantBits - 1))
  | inf negative => F.withSign negative F.top
  | negZero => F.withSign true 0
  | finite q => F.withSign (q < 0) (F.nearest |q|)

/-- The integer part, towards zero. -/
def truncate : PyFloat → Option ℤ
  | finite q => some (q.num.tdiv q.den)
  | negZero => some 0
  | nan | inf _ => none

end PyFloat

namespace MlxDtype

/-- A cell as an integer. -/
def intOf (d : MlxDtype) (b : d.Cell) : ℤ := if d.isSigned then b.toInt else b.toNat

/-- The number a cell shows. -/
def number : (d : MlxDtype) → d.Cell → PyFloat
  | f32, b => .ofPattern Ieee.f32 b.toNat
  | f64, b => .ofPattern Ieee.f64 b.toNat
  | bool, b => .finite (if b = 0 then 0 else 1)
  | d, b => .finite (d.intOf b)

/-- The float dtypes round to the nearest; an integer dtype has one zero. -/
def represent (d : MlxDtype) (x : PyFloat) : PyFloat :=
  match d with
  | f32 => .ofPattern Ieee.f32 (x.pattern Ieee.f32)
  | f64 => .ofPattern Ieee.f64 (x.pattern Ieee.f64)
  | _ => if x = .negZero then .finite 0 else x

end MlxDtype

/-! numpy. -/

/-- What the documentation of numpy leaves to the machine. -/
structure Numpy where
  /-- The cast of a float to an integer dtype that does not hold it. -/
  outside : (d : MlxDtype) → PyFloat → d.Cell
  /-- An array of another dtype than numbers, cast to one of theirs; `none` where it raises. -/
  object : PolarsDtype → List (Option ℕ) → (d : MlxDtype) → Option (List d.Cell)
  /-- `np.empty` at float32. -/
  empty : (n : ℕ) → { cells : List (BitVec 32) // cells.length = n }

/-- A cell cast to another dtype: integers wrap, floats are truncated. -/
def Numpy.castCell (M : Numpy) (s d : MlxDtype) (b : s.Cell) : d.Cell :=
  if h : s = d then h ▸ b
  else match d with
    | .f32 => .ofNat _ ((s.number b).pattern Ieee.f32)
    | .f64 => .ofNat _ ((s.number b).pattern Ieee.f64)
    | .bool => if (s.number b).isZero then 0 else 1
    | d =>
      match (s.number b).truncate with
      | some n => if s.isInt ∨ d.InRange n then .ofInt _ n else M.outside d (s.number b)
      | none => M.outside d (s.number b)

/-- `np.asarray([x], dtype=d)` of a Python float: an integer dtype takes the integer part through a
64-bit one. -/
def npScalar (d : MlxDtype) (x : PyFloat) : Option d.Cell :=
  match d with
  | .f32 => some (.ofNat _ (x.pattern Ieee.f32))
  | .f64 => some (.ofNat _ (x.pattern Ieee.f64))
  | .bool => some (if x.isZero then 0 else 1)
  | d =>
    x.truncate.bind (fun n =>
      if -2 ^ 63 ≤ n ∧ n < (if d = .u32 ∨ d = .u64 then 2 ^ 64 else 2 ^ 63) then some (.ofInt _ n)
      else none)

/-! Patterns that a number has. -/

namespace PyFloat

section Patterns

variable {F : Ieee.Format}

theorem ofPattern_withSign_of_lt_top {neg : Bool} {k : ℕ} (hk : k < F.top) (hzero : k ≠ 0) :
    ofPattern F (F.withSign neg k) =
      finite (if neg then -(F.magOf k * F.unit) else F.magOf k * F.unit) := by
  have hlt := lt_trans hk F.top_lt
  rw [ofPattern, Ieee.Format.low_withSign hlt, Ieee.Format.negative_withSign hlt,
    if_neg (Nat.not_lt.2 hk.le), if_neg hk.ne, if_neg (fun h => hzero h.1)]

theorem ofPattern_withSign_zero (neg : Bool) :
    ofPattern F (F.withSign neg 0) = if neg then negZero else finite 0 := by
  have hlt : 0 < 2 ^ (F.mantBits + F.expBits) := by positivity
  rw [ofPattern, Ieee.Format.low_withSign hlt, Ieee.Format.negative_withSign hlt,
    if_neg (Nat.not_lt_zero _), if_neg F.top_pos.ne]
  cases neg <;> simp [Ieee.Format.magOf_zero]

theorem ofPattern_withSign_top (neg : Bool) : ofPattern F (F.withSign neg F.top) = inf neg := by
  rw [ofPattern, Ieee.Format.low_withSign F.top_lt, Ieee.Format.negative_withSign F.top_lt,
    if_neg (lt_irrefl _), if_pos rfl]

variable (hF : 0 < F.mantBits)
include hF

theorem nanPattern_lt : F.top + 2 ^ (F.mantBits - 1) < 2 ^ (F.mantBits + F.expBits) := by
  have hhalf : 2 ^ (F.mantBits - 1) < 2 ^ F.mantBits := Nat.pow_lt_pow_right (by decide) (by omega)
  have hpow : 1 ≤ 2 ^ F.expBits := Nat.one_le_two_pow
  calc F.top + 2 ^ (F.mantBits - 1) < (2 ^ F.expBits - 1) * 2 ^ F.mantBits + 2 ^ F.mantBits :=
        Nat.add_lt_add_left hhalf _
    _ = 2 ^ (F.mantBits + F.expBits) := by
        rw [← Nat.succ_mul, Nat.succ_eq_add_one, Nat.sub_add_cancel hpow, pow_add, Nat.mul_comm]

theorem pattern_lt (x : PyFloat) : x.pattern F < 2 ^ (F.mantBits + F.expBits + 1) := by
  cases x with
  | nan => exact Ieee.Format.withSign_lt (nanPattern_lt hF)
  | inf negative => exact Ieee.Format.withSign_lt F.top_lt
  | negZero => exact Ieee.Format.withSign_lt (by positivity)
  | finite q => exact Ieee.Format.withSign_lt (lt_of_le_of_lt (min_le_left _ _) F.top_lt)

/-- A number that has a pattern is the number of its nearest. -/
theorem ofPattern_pattern (n : ℕ) : ofPattern F ((ofPattern F n).pattern F) = ofPattern F n := by
  have hunit := F.unit_pos
  rcases lt_trichotomy F.top (F.low n) with hnan | htop | hlow
  · have hn : ofPattern F n = nan := if_pos hnan
    have hlt := nanPattern_lt hF
    rw [hn, pattern, ofPattern, Ieee.Format.low_withSign hlt, if_pos]
    exact Nat.lt_add_of_pos_right (by positivity)
  · have hn : ofPattern F n = inf (F.negative n) := by
      rw [ofPattern, if_neg (by omega), if_pos htop.symm]
    rw [hn, pattern, ofPattern_withSign_top]
  by_cases hzero : F.low n = 0
  · have hn : ofPattern F n = if F.negative n then negZero else finite 0 := by
      rw [ofPattern, if_neg (by omega), if_neg hlow.ne]
      cases hneg : F.negative n <;> simp [hzero, Ieee.Format.magOf_zero]
    rw [hn]
    cases F.negative n with
    | true => exact ofPattern_withSign_zero true
    | false =>
      have hnearest : F.nearest |(0 : ℚ)| = 0 := by
        have h := F.nearest_magOf (Nat.zero_le F.top)
        rwa [F.magOf_zero, Nat.cast_zero, zero_mul, ← abs_zero] at h
      change ofPattern F (F.withSign _ (F.nearest |(0 : ℚ)|)) = _
      rw [hnearest]
      exact ofPattern_withSign_zero false
  · have hsize : (0 : ℚ) < F.magOf (F.low n) * F.unit := by
      have hpos := F.magOf_strictMono (Nat.pos_of_ne_zero hzero)
      rw [F.magOf_zero] at hpos
      exact mul_pos (by exact_mod_cast hpos) hunit
    have hnearest := F.nearest_magOf hlow.le
    have hn : ofPattern F n = finite (if F.negative n then -(F.magOf (F.low n) * F.unit)
        else F.magOf (F.low n) * F.unit) := by
      rw [ofPattern, if_neg (by omega), if_neg hlow.ne, if_neg (fun h => hzero h.1)]
    rw [hn, pattern]
    cases F.negative n with
    | true =>
      simp only [if_true, abs_neg, abs_of_pos hsize, hnearest, Left.neg_neg_iff, hsize,
        decide_true]
      exact ofPattern_withSign_of_lt_top hlow hzero
    | false =>
      simp only [Bool.false_eq_true, if_false, abs_of_pos hsize, hnearest, not_lt.2 hsize.le,
        decide_false]
      exact ofPattern_withSign_of_lt_top hlow hzero

end Patterns

/-- Patterns of one value and one sign show one number. -/
theorem ofPattern_congr {F G : Ieee.Format} {n m : ℕ} (hvalue : F.value n = G.value m)
    (hneg : F.negative n = G.negative m) : ofPattern F n = ofPattern G m := by
  unfold ofPattern
  rcases lt_trichotomy F.top (F.low n) with hn | hn | hn <;>
    rcases lt_trichotomy G.top (G.low m) with hm | hm | hm
  case inl.inl => rw [if_pos hn, if_pos hm]
  case inr.inl.inr.inl =>
    rw [if_neg hn.not_lt, if_pos hn.symm, if_neg hm.not_lt, if_pos hm.symm, hneg]
  case inr.inr.inr.inr =>
    rw [F.value_of_lt_top hn, G.value_of_lt_top hm, hneg] at hvalue
    have hsize : (F.magOf (F.low n) * F.unit : ℚ) = G.magOf (G.low m) * G.unit := by
      have h := WithTop.coe_injective (WithBot.coe_injective (Option.some.inj hvalue))
      split_ifs at h
      · exact neg_injective h
      · exact h
    have hzero : F.low n = 0 ↔ G.low m = 0 := by
      have hf : (F.magOf (F.low n) * F.unit : ℚ) = 0 ↔ F.low n = 0 := by
        rw [mul_eq_zero_iff_right F.unit_pos.ne', Nat.cast_eq_zero, F.magOf_eq_zero]
      have hg : (G.magOf (G.low m) * G.unit : ℚ) = 0 ↔ G.low m = 0 := by
        rw [mul_eq_zero_iff_right G.unit_pos.ne', Nat.cast_eq_zero, G.magOf_eq_zero]
      rw [← hf, hsize, hg]
    rw [if_neg (not_lt.2 hn.le), if_neg hn.ne, if_neg (not_lt.2 hm.le), if_neg hm.ne, hneg]
    simp only [hsize, hzero]
  case inl.inr.inl =>
    rw [F.value_eq_none_iff.2 hn, G.value_of_eq_top hm.symm] at hvalue
    cases hvalue
  case inl.inr.inr =>
    rw [F.value_eq_none_iff.2 hn, G.value_of_lt_top hm] at hvalue
    cases hvalue
  case inr.inl.inl =>
    rw [F.value_of_eq_top hn.symm, G.value_eq_none_iff.2 hm] at hvalue
    cases hvalue
  case inr.inr.inl =>
    rw [F.value_of_lt_top hn, G.value_eq_none_iff.2 hm] at hvalue
    cases hvalue
  case inr.inl.inr.inr =>
    rw [F.value_of_eq_top hn.symm, G.value_of_lt_top hm] at hvalue
    split_ifs at hvalue <;> cases hvalue
  case inr.inr.inr.inl =>
    rw [F.value_of_lt_top hn, G.value_of_eq_top hm.symm] at hvalue
    split_ifs at hvalue <;> cases hvalue

theorem ofPattern_widen (n : ℕ) : ofPattern Ieee.f64 (Ieee.widen n) = ofPattern Ieee.f32 n :=
  ofPattern_congr (Ieee.value_widen n) (Ieee.negative_widen n)

end PyFloat

/-! Integer cells. -/

namespace MlxDtype

variable {d : MlxDtype}

theorem intOf_inRange (b : d.Cell) : d.InRange (d.intOf b) := by
  unfold InRange intOf
  by_cases hs : d.isSigned = true
  · rw [if_pos hs, if_pos hs]
    exact ⟨b.le_toInt, b.toInt_lt⟩
  · rw [if_neg hs, if_neg hs]
    exact ⟨Int.natCast_nonneg _, by exact_mod_cast b.isLt⟩

theorem ofInt_intOf (b : d.Cell) : BitVec.ofInt _ (d.intOf b) = b := by
  unfold intOf
  by_cases hs : d.isSigned = true
  · rw [if_pos hs, BitVec.ofInt_toInt]
  · rw [if_neg hs, BitVec.ofInt_natCast, BitVec.ofNat_toNat, BitVec.setWidth_eq]

theorem intOf_ofInt {n : ℤ} (h : d.InRange n) : d.intOf (.ofInt _ n) = n := by
  have hwidth : 0 < 8 * d.elementSize := by cases d <;> decide
  unfold InRange at h
  unfold intOf
  by_cases hs : d.isSigned = true
  · rw [if_pos hs] at h ⊢
    exact BitVec.toInt_ofInt_eq_self hwidth h.1 h.2
  · rw [if_neg hs] at h ⊢
    rw [BitVec.toNat_ofInt, Int.toNat_of_nonneg (Int.emod_nonneg _ (by positivity))]
    exact Int.emod_eq_of_lt h.1 (by exact_mod_cast h.2)

theorem intOf_ofInt_modEq (n : ℤ) : d.intOf (.ofInt _ n) ≡ n [ZMOD 2 ^ (8 * d.elementSize)] := by
  unfold intOf
  by_cases hs : d.isSigned = true
  · rw [if_pos hs, BitVec.toInt_ofInt]
    exact_mod_cast Int.bmod_emod
  · rw [if_neg hs, BitVec.toNat_ofInt, Int.toNat_of_nonneg (Int.emod_nonneg _ (by positivity))]
    exact_mod_cast Int.mod_modEq n _

theorem number_of_isInt (hd : d.isInt = true) (b : d.Cell) : d.number b = .finite (d.intOf b) := by
  cases d <;> first | rfl | cases hd

theorem represent_of_isInt (hd : d.isInt = true) (x : PyFloat) :
    d.represent x = if x = .negZero then .finite 0 else x := by
  cases d <;> first | rfl | cases hd

end MlxDtype

/-! Casts that keep the number. -/

section Casts

variable {M : Numpy} {s d : MlxDtype}

theorem castCell_self (b : d.Cell) : M.castCell d d b = b := dif_pos rfl

theorem number_f32_ofNat (x : PyFloat) :
    MlxDtype.f32.number (.ofNat _ (x.pattern Ieee.f32)) = .ofPattern Ieee.f32 (x.pattern Ieee.f32) := by
  have hlt : x.pattern Ieee.f32 < 2 ^ (8 * MlxDtype.f32.elementSize) := PyFloat.pattern_lt (by decide) x
  rw [MlxDtype.number, BitVec.toNat_ofNat, Nat.mod_eq_of_lt hlt]

theorem number_f64_ofNat (x : PyFloat) :
    MlxDtype.f64.number (.ofNat _ (x.pattern Ieee.f64)) = .ofPattern Ieee.f64 (x.pattern Ieee.f64) := by
  have hlt : x.pattern Ieee.f64 < 2 ^ (8 * MlxDtype.f64.elementSize) := PyFloat.pattern_lt (by decide) x
  rw [MlxDtype.number, BitVec.toNat_ofNat, Nat.mod_eq_of_lt hlt]

/-- A number that is a Float32 survives the cast to one, also through a double. -/
theorem number_castCell_f32 {b : s.Cell} (h : ∃ c, MlxDtype.f32.number c = s.number b) :
    MlxDtype.f32.number (M.castCell s .f32 b) = s.number b := by
  obtain ⟨c, hc⟩ := h
  by_cases hs : s = .f32
  · subst hs
    rw [castCell_self]
  · have hcast : M.castCell s .f32 b = .ofNat _ ((s.number b).pattern Ieee.f32) := dif_neg hs
    rw [hcast, number_f32_ofNat, ← hc]
    exact PyFloat.ofPattern_pattern (by decide) _

theorem number_double_of_f32 {x : PyFloat} (h : ∃ c, MlxDtype.f32.number c = x) :
    MlxDtype.f64.number (.ofNat _ (x.pattern Ieee.f64)) = x := by
  obtain ⟨c, rfl⟩ := h
  have hwiden : MlxDtype.f32.number c = .ofPattern Ieee.f64 (Ieee.widen c.toNat) :=
    (PyFloat.ofPattern_widen _).symm
  rw [number_f64_ofNat, hwiden]
  exact PyFloat.ofPattern_pattern (by decide) _

theorem castCell_int (hs : s.isInt = true) (hd : d.isInt = true) (b : s.Cell) :
    M.castCell s d b = .ofInt _ (s.intOf b) := by
  by_cases h : s = d
  · subst h
    rw [castCell_self, MlxDtype.ofInt_intOf]
  · have htrunc : (s.number b).truncate = some (s.intOf b) := by
      rw [MlxDtype.number_of_isInt hs, PyFloat.truncate, Rat.num_intCast, Rat.den_intCast,
        Nat.cast_one, Int.tdiv_one]
    unfold Numpy.castCell
    rw [dif_neg h]
    cases d <;> first | (simp only [htrunc, hs, true_or, if_true]; done) | cases hd

end Casts

/-! Literals. -/

theorem roundToDouble_of_lt {n : ℤ} (h : n.natAbs < 2 ^ 53) : roundToDouble n = n := by
  have hshift : n.natAbs.log2 - 52 = 0 := by
    by_cases h0 : n.natAbs = 0
    · rw [h0]
      rfl
    · have := (Nat.log2_lt h0).2 h
      omega
  simp only [roundToDouble, hshift, pow_zero, Nat.mod_one, Nat.shiftRight_zero]
  rw [if_neg (by omega), Nat.mul_one]
  exact Int.sign_mul_natAbs n

/-- A 64-bit integer rounds to a double of its own sign, at most `2 ^ 64` in size. -/
theorem roundToDouble_bounds {n : ℤ} (h : n.natAbs < 2 ^ 64) :
    ∃ r : ℕ, r ≤ 2 ^ 64 ∧ roundToDouble n = n.sign * r := by
  refine ⟨_, ?_, rfl⟩
  have hlog : n.natAbs.log2 ≤ 63 := by
    by_cases h0 : n.natAbs = 0
    · rw [h0]
      decide
    · have := (Nat.log2_lt h0).2 h
      omega
  have hq : n.natAbs >>> (n.natAbs.log2 - 52) + 1 ≤ 2 ^ 53 := by
    rw [Nat.shiftRight_eq_div_pow]
    refine Nat.div_lt_of_lt_mul (lt_of_lt_of_le Nat.lt_log2_self ?_)
    rw [← pow_add]
    exact Nat.pow_le_pow_right (by decide) (by omega)
  calc _ ≤ 2 ^ 53 * 2 ^ (n.natAbs.log2 - 52) := Nat.mul_le_mul_right _ (by split_ifs <;> omega)
    _ = 2 ^ (53 + (n.natAbs.log2 - 52)) := (pow_add _ _ _).symm
    _ ≤ 2 ^ 64 := Nat.pow_le_pow_right (by decide) (by omega)

theorem pyEq_finite_iff {x : PyFloat} {q : ℚ} :
    x.pyEq (.finite q) = true ↔ x = .finite q ∨ x = .negZero ∧ q = 0 := by
  cases x <;> simp [PyFloat.pyEq]

theorem truncate_of_pyEq {x : PyFloat} {n : ℤ} (h : x.pyEq (.finite n) = true) :
    x.truncate = some n := by
  rcases pyEq_finite_iff.1 h with rfl | ⟨rfl, hn⟩
  · rw [PyFloat.truncate, Rat.num_intCast, Rat.den_intCast, Nat.cast_one, Int.tdiv_one]
  · have hn : n = 0 := by exact_mod_cast hn
    rw [hn]
    rfl

theorem npScalar_int {d : MlxDtype} (hd : d.isInt = true) {x : PyFloat} {c : d.Cell}
    (h : npScalar d x = some c) :
    ∃ n : ℤ, x.truncate = some n ∧ -2 ^ 63 ≤ n ∧ n < 2 ^ 64 ∧ (d.isSigned = true → n < 2 ^ 63) ∧
      c = .ofInt _ n := by
  have hrun : (x.truncate.bind (fun n =>
      if -2 ^ 63 ≤ n ∧ n < (if d = .u32 ∨ d = .u64 then 2 ^ 64 else 2 ^ 63) then
        some (BitVec.ofInt _ n)
      else none)) = some c := by
    cases d <;> first | exact h | cases hd
  obtain ⟨n, hn, hrun⟩ := Option.bind_eq_some_iff.1 hrun
  split_ifs at hrun with hwide hrange hrange
  · refine ⟨n, hn, hrange.1, hrange.2, ?_, (Option.some.inj hrun).symm⟩
    rcases hwide with rfl | rfl <;> (intro hs; cases hs)
  · exact ⟨n, hn, hrange.1, by omega, fun _ => hrange.2, (Option.some.inj hrun).symm⟩

/-- An integer of the dtype that the double behind it still shows is the double. -/
theorem roundToDouble_eq_of_modEq {d : MlxDtype} (hd : d.isInt = true) {n : ℤ} (hn : d.InRange n)
    (hmod : roundToDouble n ≡ n [ZMOD 2 ^ (8 * d.elementSize)]) : roundToDouble n = n := by
  by_cases hsmall : n.natAbs < 2 ^ 53
  · exact roundToDouble_of_lt hsmall
  -- only a 64-bit dtype holds more than a double's digits
  have hwide : 8 * d.elementSize = 64 := by
    by_contra hne
    have hsize : 8 * d.elementSize ≤ 32 := by
      cases d <;> first | decide | exact absurd rfl hne
    have hpow : (2 : ℤ) ^ (8 * d.elementSize) ≤ 2 ^ 32 := pow_le_pow_right₀ (by decide) hsize
    have hpow' : (2 : ℤ) ^ (8 * d.elementSize - 1) ≤ 2 ^ 32 :=
      pow_le_pow_right₀ (by decide) (by omega)
    unfold MlxDtype.InRange at hn
    split_ifs at hn <;> omega
  have hbound : n.natAbs < 2 ^ 64 := by
    unfold MlxDtype.InRange at hn
    rw [hwide] at hn
    split_ifs at hn <;> omega
  obtain ⟨r, hr, heq⟩ := roundToDouble_bounds hbound
  rw [hwide, Int.modEq_iff_dvd] at hmod
  rcases lt_trichotomy n 0 with hneg | rfl | hpos
  · rw [Int.sign_eq_neg_one_of_neg hneg] at heq
    omega
  · exact absurd (by decide) hsmall
  · rw [Int.sign_eq_one_of_pos hpos] at heq
    omega

end PolarsMetal.Fusion
