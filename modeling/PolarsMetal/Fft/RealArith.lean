import PolarsMetal.Fft.PlanarSpec
import Mathlib.Analysis.SpecialFunctions.Trigonometric.Chebyshev.RootsExtrema
import Mathlib.RingTheory.RootsOfUnity.Complex

/-! The kernels' arithmetic without rounding: samples, twiddles, chirps and literals over the real
numbers, read as complex numbers. -/

namespace PolarsMetal.Fft
open Dft Finset

noncomputable section

def toComplex : Float2 ℝ →+* ℂ where
  toFun v := ⟨v.x, v.y⟩
  map_zero' := rfl
  map_one' := rfl
  map_add' _ _ := rfl
  map_mul' _ _ := rfl

theorem toComplex_injective : Function.Injective toComplex := fun _ _ h =>
  Float2.ext (congrArg Complex.re h) (congrArg Complex.im h)

/-- `float2(cos(theta), sin(theta))` -/
def onCircle (θ : ℝ) : Float2 ℝ := ⟨Real.cos θ, Real.sin θ⟩

theorem onCircle_zero : onCircle 0 = 1 := Float2.ext Real.cos_zero Real.sin_zero

theorem onCircle_add (θ φ : ℝ) : onCircle (θ + φ) = onCircle θ * onCircle φ := by
  refine Float2.ext (Real.cos_add θ φ) ?_
  show Real.sin (θ + φ) = Real.cos θ * Real.sin φ + Real.sin θ * Real.cos φ
  rw [Real.sin_add, add_comm]

theorem onCircle_pow (θ : ℝ) (k : ℕ) : onCircle θ ^ k = onCircle (k * θ) := by
  induction k with
  | zero => rw [pow_zero, Nat.cast_zero, zero_mul, onCircle_zero]
  | succ k ih => rw [pow_succ, ih, ← onCircle_add, Nat.cast_succ, add_mul, one_mul]

theorem star_onCircle (θ : ℝ) : star (onCircle θ) = onCircle (-θ) :=
  Float2.ext (Real.cos_neg θ).symm (Real.sin_neg θ).symm

theorem star_mul_onCircle (θ : ℝ) : star (onCircle θ) * onCircle θ = 1 := by
  rw [star_onCircle, ← onCircle_add, neg_add_cancel, onCircle_zero]

theorem toComplex_onCircle (θ : ℝ) : toComplex (onCircle θ) = Complex.exp (θ * Complex.I) := by
  refine Complex.ext ?_ ?_
  · show Real.cos θ = _
    rw [Complex.exp_ofReal_mul_I_re]
  · show Real.sin θ = _
    rw [Complex.exp_ofReal_mul_I_im]

/-- `twiddle`, `1 / n` and the chirp of `bluestein`. -/
def realArith : Arith (Float2 ℝ) where
  twiddle k p inverse := onCircle ((if inverse then ((2 : ℕ) : ℝ) else -((2 : ℕ) : ℝ)) * k * Real.pi / p)
  recip n := ⟨1 / n, 0⟩

def realChirp (m n : ℕ) : Float2 ℝ := onCircle (-Real.pi * m / n)

/-! Roots of unity. -/

def rootOf (n : ℕ) (inverse : Bool) : Float2 ℝ :=
  onCircle ((if inverse then ((2 : ℕ) : ℝ) else -((2 : ℕ) : ℝ)) * Real.pi / n)

theorem rootOf_eq (n : ℕ) (inverse : Bool) :
    rootOf n inverse = onCircle ((if inverse then 2 else -2) * Real.pi / n) := rfl

section Roots

variable {n : ℕ}

theorem rootOf_conj (n : ℕ) : star (rootOf n false) = rootOf n true := by
  rw [rootOf_eq, rootOf_eq, star_onCircle, if_neg Bool.false_ne_true, if_pos rfl]
  congr 1
  ring

theorem star_mul_rootOf (n : ℕ) (inverse : Bool) : star (rootOf n inverse) * rootOf n inverse = 1 :=
  star_mul_onCircle _

theorem rootOf_back (n : ℕ) : rootOf n true * rootOf n false = 1 := by
  rw [← rootOf_conj]
  exact star_mul_rootOf n false

theorem rootOf_pow_div {r : ℕ} (hr : r ∣ n) (hn : 0 < n) (inverse : Bool) :
    rootOf n inverse ^ (n / r) = rootOf r inverse := by
  obtain ⟨q, rfl⟩ := hr
  have hr : 0 < r := Nat.pos_of_mul_pos_right hn
  have hq : (q : ℝ) ≠ 0 := Nat.cast_ne_zero.2 (Nat.pos_of_mul_pos_left hn).ne'
  have hr' : (r : ℝ) ≠ 0 := Nat.cast_ne_zero.2 hr.ne'
  rw [rootOf_eq, rootOf_eq, onCircle_pow, Nat.mul_div_cancel_left _ hr, Nat.cast_mul]
  congr 1
  field_simp

theorem rootOf_pow_eq_one (hn : 0 < n) (inverse : Bool) : rootOf n inverse ^ n = 1 := by
  have h := rootOf_pow_div (one_dvd n) hn inverse
  rw [Nat.div_one] at h
  rw [h]
  cases inverse with
  | false => exact Float2.ext (by simp [rootOf_eq, onCircle]) (by simp [rootOf_eq, onCircle])
  | true => exact Float2.ext (by simp [rootOf_eq, onCircle]) (by simp [rootOf_eq, onCircle])

theorem toComplex_rootOf (n : ℕ) (inverse : Bool) : toComplex (rootOf n inverse) =
    Complex.exp ((if inverse then 2 else -2) * Real.pi * Complex.I / n) := by
  rw [rootOf_eq, toComplex_onCircle]
  cases inverse with
  | false =>
    congr 1
    simp only [Bool.false_eq_true, if_false]
    push_cast
    ring
  | true =>
    congr 1
    simp only [if_true]
    push_cast
    ring

theorem realArith_exact (hn : 0 < n) (inverse : Bool) :
    realArith.Exact inverse (rootOf n inverse) n := by
  intro k p hp
  obtain ⟨q, rfl⟩ := hp
  have hp : 0 < p := Nat.pos_of_mul_pos_right hn
  have hq : (q : ℝ) ≠ 0 := Nat.cast_ne_zero.2 (Nat.pos_of_mul_pos_left hn).ne'
  have hp' : (p : ℝ) ≠ 0 := Nat.cast_ne_zero.2 hp.ne'
  rw [rootOf_eq, onCircle_pow, Nat.mul_div_cancel_left _ hp]
  show onCircle _ = onCircle _
  congr 1
  push_cast
  field_simp

theorem rootOf_isPow2Root (e : ℕ) (inverse : Bool) : IsPow2Root (rootOf (2 ^ e) inverse) e := by
  cases e with
  | zero =>
    have h := rootOf_pow_eq_one Nat.one_pos inverse
    rwa [pow_one] at h
  | succ e =>
    have h := rootOf_pow_div ⟨2 ^ e, pow_succ' 2 e⟩ (Nat.two_pow_pos (e + 1)) inverse
    rw [pow_succ', Nat.mul_div_cancel_left _ Nat.two_pos, ← pow_succ'] at h
    refine h.trans ?_
    cases inverse with
    | false => exact Float2.ext (by simp [rootOf_eq, onCircle, neg_div]) (by simp [rootOf_eq, onCircle, neg_div])
    | true => exact Float2.ext (by simp [rootOf_eq, onCircle]) (by simp [rootOf_eq, onCircle])

theorem rootOf_principal (hn : 0 < n) (inverse : Bool) : Principal (rootOf n inverse) n := by
  refine ⟨rootOf_pow_eq_one hn inverse, fun k hk hlt => ?_⟩
  have hprimitive : IsPrimitiveRoot (toComplex (rootOf n true)) n := by
    have hexp : toComplex (rootOf n true) = Complex.exp (2 * Real.pi * Complex.I / n) := by
      rw [toComplex_rootOf, if_pos rfl]
    rw [hexp]
    exact Complex.isPrimitiveRoot_exp n hn.ne'
  have hroot : IsPrimitiveRoot (toComplex (rootOf n inverse)) n := by
    cases inverse with
    | true => exact hprimitive
    | false =>
      have hinv : toComplex (rootOf n false) = (toComplex (rootOf n true))⁻¹ := by
        refine eq_inv_of_mul_eq_one_right ?_
        rw [← map_mul, rootOf_back, map_one]
      rw [hinv]
      exact hprimitive.inv
  refine toComplex_injective ?_
  rw [map_sum, map_zero]
  have hne : toComplex (rootOf n inverse) ^ k ≠ 1 := hroot.pow_ne_one_of_pos_of_lt hk.ne' hlt
  have hgeom := mul_neg_geom_sum (toComplex (rootOf n inverse) ^ k) n
  rw [← pow_mul, Nat.mul_comm k, pow_mul, hroot.pow_eq_one, one_pow, sub_self] at hgeom
  refine (Finset.sum_congr rfl fun j _ => ?_).trans
    ((mul_eq_zero.1 hgeom).resolve_left (sub_ne_zero.2 hne.symm))
  rw [map_pow, ← pow_mul, Nat.mul_comm]

end Roots

/-! The literals. -/

/-- The numbers that the seventh roots give in the order of Rader's algorithm. -/
def rader (q : ℕ) : Float2 ℝ :=
  dft (rootOf 6 false) 6 (fun p => rootOf 7 false ^ raderOrder.getD p 0) q

def realLiterals : Literals ℝ where
  half := 1 / (2 : ℕ)
  quarter := 1 / (4 : ℕ)
  sixth := 1 / (6 : ℕ)
  pi23 := -Real.sin (Real.pi / (3 : ℕ))
  sinPi3 := Real.sin (Real.pi / (3 : ℕ))
  root54 := √((5 : ℕ) : ℝ) / (4 : ℕ)
  sin2pi5 := Real.sin ((2 : ℕ) * Real.pi / (5 : ℕ))
  sin1pi5 := Real.sin (Real.pi / (5 : ℕ))
  cosPi4 := Real.cos (Real.pi / (4 : ℕ))
  b1x := (rader 1).x
  b1y := -(rader 1).y
  b2x := (rader 2).x
  b2y := -(rader 2).y
  b3y := -(rader 3).y

theorem rootOf_two : rootOf 2 false = -1 := by
  have h := rootOf_isPow2Root 1 false
  exact (pow_one _).symm.trans h

theorem rootOf_false (r : ℕ) :
    rootOf r false = ⟨Real.cos (2 * Real.pi / r), -Real.sin (2 * Real.pi / r)⟩ := by
  rw [rootOf_eq, if_neg Bool.false_ne_true, ← Real.cos_neg, ← Real.sin_neg]
  have hangle : (-2 : ℝ) * Real.pi / r = -(2 * Real.pi / r) := by ring
  rw [hangle]
  rfl

/-- Rader's numbers come in pairs, conjugate up to sign. -/
theorem rader_pairs : rader 5 = -star (rader 1) ∧ rader 4 = star (rader 2) ∧
    rader 3 = -star (rader 3) := by
  have h7 : rootOf 7 false ^ 7 = 1 := rootOf_pow_eq_one (by decide) false
  have hstar : ∀ {a b : ℕ}, a + b = 7 → star (rootOf 7 false ^ b) = rootOf 7 false ^ a := fun hab =>
    (pow_eq_star h7 (star_mul_rootOf 7 false) hab).symm
  have hthree : rootOf 6 false ^ 3 = -1 := by
    have h := @rootOf_pow_div 6 2 ⟨3, rfl⟩ (by decide) false
    exact h.trans rootOf_two
  have hstar6 : star (rootOf 6 false) = -rootOf 6 false ^ 2 := by
    have h := pow_eq_star (rootOf_pow_eq_one (by decide : 0 < 6) false) (star_mul_rootOf 6 false)
      (show 5 + 1 = 6 from rfl)
    rw [pow_one] at h
    rw [← h]
    linear_combination rootOf 6 false ^ 2 * hthree
  have hsum : ∀ q, rader q = rootOf 7 false + rootOf 7 false ^ 5 * rootOf 6 false ^ q +
      rootOf 7 false ^ 4 * rootOf 6 false ^ (2 * q) + rootOf 7 false ^ 6 * rootOf 6 false ^ (3 * q) +
      rootOf 7 false ^ 2 * rootOf 6 false ^ (4 * q) + rootOf 7 false ^ 3 * rootOf 6 false ^ (5 * q) := by
    intro q
    unfold rader dft
    simp [Finset.sum_range_succ, raderOrder]
  have hconj : ∀ q, star (rader q) = rootOf 7 false ^ 6 +
      rootOf 7 false ^ 2 * (-rootOf 6 false ^ 2) ^ q +
      rootOf 7 false ^ 3 * (-rootOf 6 false ^ 2) ^ (2 * q) +
      rootOf 7 false * (-rootOf 6 false ^ 2) ^ (3 * q) +
      rootOf 7 false ^ 5 * (-rootOf 6 false ^ 2) ^ (4 * q) +
      rootOf 7 false ^ 4 * (-rootOf 6 false ^ 2) ^ (5 * q) := by
    intro q
    have hone : star (rootOf 7 false) = rootOf 7 false ^ 6 := by
      rw [← hstar (show 6 + 1 = 7 from rfl), pow_one]
    have hsix : star (rootOf 7 false ^ 6) = rootOf 7 false := by
      rw [hstar (show 1 + 6 = 7 from rfl), pow_one]
    rw [hsum]
    simp only [star_add, star_mul', hone, hsix, hstar (show 2 + 5 = 7 from rfl),
      hstar (show 3 + 4 = 7 from rfl), hstar (show 5 + 2 = 7 from rfl),
      hstar (show 4 + 3 = 7 from rfl), star_pow (rootOf 6 false), hstar6]
  obtain ⟨ω, hω⟩ : ∃ ω, ω = rootOf 7 false := ⟨_, rfl⟩
  obtain ⟨ζ, hζ⟩ : ∃ ζ, ζ = rootOf 6 false := ⟨_, rfl⟩
  rw [hconj, hconj, hconj, hsum, hsum, hsum, ← hω, ← hζ]
  rw [← hζ] at hthree
  have hred : ∀ m k, ζ ^ (3 * m + k) = (-1) ^ m * ζ ^ k := fun m k => by
    rw [pow_add, pow_mul, hthree]
  refine ⟨?_, ?_, ?_⟩
  · linear_combination ω ^ 5 * hred 1 2 + ω ^ 4 * hred 3 1 + ω ^ 6 * hred 5 0 + ω ^ 2 * hred 6 2 +
      ω ^ 3 * hred 8 1 + ω ^ 3 * hred 1 1 - ω * hred 2 0 + ω ^ 5 * hred 2 2 - ω ^ 4 * hred 3 1
  · linear_combination ω ^ 5 * hred 1 1 + ω ^ 4 * hred 2 2 + ω ^ 6 * hred 4 0 + ω ^ 2 * hred 5 1 +
      ω ^ 3 * hred 6 2 - ω ^ 2 * hred 1 1 - ω ^ 3 * hred 2 2 - ω * hred 4 0 - ω ^ 5 * hred 5 1 -
      ω ^ 4 * hred 6 2
  · linear_combination ω ^ 5 * hred 1 0 + ω ^ 4 * hred 2 0 + ω ^ 6 * hred 3 0 + ω ^ 2 * hred 4 0 +
      ω ^ 3 * hred 5 0 - ω ^ 2 * hred 2 0 + ω ^ 3 * hred 4 0 - ω * hred 6 0 + ω ^ 5 * hred 8 0 -
      ω ^ 4 * hred 10 0

theorem rader_zero : rader 0 = -1 := by
  have hsum := (rootOf_principal (by decide : 0 < 7) false).sum_eq_zero 1 Nat.one_pos (by decide)
  unfold rader dft
  simp only [Finset.sum_range_succ, Finset.sum_range_zero, raderOrder, Nat.mul_zero,
    pow_zero, mul_one, zero_add, List.getD_cons_zero, List.getD_cons_succ, pow_one] at hsum ⊢
  linear_combination hsum

theorem cos_two_pi_div_five : Real.cos (2 * Real.pi / 5) = √5 / 4 - 1 / 4 := by
  have hsq : √5 ^ 2 = 5 := Real.sq_sqrt (by norm_num)
  rw [mul_div_assoc, Real.cos_two_mul, Real.cos_pi_div_five]
  linear_combination hsq / 8

theorem rootOf_six : rootOf 6 false = ⟨1 / 2, -Real.sin (Real.pi / 3)⟩ := by
  have hangle : 2 * Real.pi / (6 : ℕ) = Real.pi / 3 := by
    push_cast
    ring
  rw [rootOf_false, hangle, Real.cos_pi_div_three]

theorem rootOf_three : rootOf 3 false = ⟨-(1 / 2), -Real.sin (Real.pi / 3)⟩ := by
  have hangle : 2 * Real.pi / (3 : ℕ) = Real.pi - Real.pi / 3 := by
    push_cast
    ring
  rw [rootOf_false, hangle, Real.cos_pi_sub, Real.sin_pi_sub, Real.cos_pi_div_three]

theorem rootOf_four : rootOf 4 false = ⟨0, -1⟩ := by
  have hangle : 2 * Real.pi / (4 : ℕ) = Real.pi / 2 := by
    push_cast
    ring
  rw [rootOf_false, hangle, Real.cos_pi_div_two, Real.sin_pi_div_two]

theorem rootOf_eight : rootOf 8 false = ⟨Real.cos (Real.pi / 4), -Real.cos (Real.pi / 4)⟩ := by
  have hangle : 2 * Real.pi / (8 : ℕ) = Real.pi / 4 := by
    push_cast
    ring
  rw [rootOf_false, hangle, Real.sin_pi_div_four, Real.cos_pi_div_four]

theorem rootOf_five : rootOf 5 false = ⟨√5 / 4 - 1 / 4, -Real.sin (2 * Real.pi / 5)⟩ ∧
    rootOf 5 false ^ 2 = ⟨-(√5 / 4) - 1 / 4, -Real.sin (Real.pi / 5)⟩ := by
  refine ⟨?_, ?_⟩
  · rw [rootOf_false, ← cos_two_pi_div_five]
    rfl
  · have hangle : (2 : ℕ) * ((if false = true then 2 else -2) * Real.pi / (5 : ℕ)) =
        -(Real.pi - Real.pi / 5) := by
      rw [if_neg Bool.false_ne_true]
      push_cast
      ring
    rw [rootOf_eq, onCircle_pow, hangle, ← star_onCircle]
    refine Float2.ext ?_ ?_
    · show Real.cos (Real.pi - Real.pi / 5) = -(√5 / 4) - 1 / 4
      rw [Real.cos_pi_sub, Real.cos_pi_div_five]
      ring
    · show -Real.sin (Real.pi - Real.pi / 5) = -Real.sin (Real.pi / 5)
      rw [Real.sin_pi_sub]

theorem realLiterals_b {q : ℕ} (hq : q < 6) : thread realLiterals.b q = rader q := by
  obtain ⟨h5, h4, h3⟩ := rader_pairs
  have hx := congrArg Float2.x h3
  change (rader 3).x = -(rader 3).x at hx
  interval_cases q
  · rw [rader_zero]
    exact Float2.ext rfl neg_zero.symm
  · exact Float2.ext rfl (neg_neg _)
  · exact Float2.ext rfl (neg_neg _)
  · refine Float2.ext ?_ (neg_neg _)
    show 0 = (rader 3).x
    linarith
  · rw [h4]
    rfl
  · rw [h5]
    exact Float2.ext rfl rfl

/-- The literals of every codelet stand for the parts of roots of unity. -/
theorem realLiterals_exact {r : ℕ} (hlo : 2 ≤ r) (hhi : r ≤ 8) :
    realLiterals.Exact (rootOf r false) r := by
  have hhalf : (2 : ℝ) * (1 / 2) = 1 := by norm_num
  interval_cases r
  · exact rootOf_two.trans (Float2.ext rfl neg_zero)
  · exact rootOf_three
  · exact rootOf_four
  · exact rootOf_five
  · exact ⟨hhalf, rootOf_six⟩
  · refine ⟨hhalf, mul_one_div_cancel (by norm_num), ?_, fun q hq => ?_⟩
    · have h := Real.cos_sq_add_sin_sq (Real.pi / 3)
      rwa [Real.cos_pi_div_three] at h
    · rw [realLiterals_b hq]
      unfold rader
      rw [rootOf_six]
      rfl
  · exact rootOf_eight

end

end PolarsMetal.Fft
