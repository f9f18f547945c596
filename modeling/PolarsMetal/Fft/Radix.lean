import PolarsMetal.Lib.Dft
import Mathlib.Algebra.Star.Basic

/-! `float2` as a complex number, and the radix codelets. The literals in the codelets are numbers of
any commutative ring; a codelet is a short transform when they are the numbers that they stand for. -/

namespace PolarsMetal.Fft
open Dft Finset

@[ext]
structure Float2 (R : Type*) where
  x : R
  y : R
deriving DecidableEq

namespace Float2

variable {R : Type*} [CommRing R]

instance : Zero (Float2 R) := ⟨⟨0, 0⟩⟩

instance : One (Float2 R) := ⟨⟨1, 0⟩⟩

instance : Add (Float2 R) := ⟨fun a b => ⟨a.x + b.x, a.y + b.y⟩⟩

instance : Neg (Float2 R) := ⟨fun a => ⟨-a.x, -a.y⟩⟩

instance : Sub (Float2 R) := ⟨fun a b => ⟨a.x - b.x, a.y - b.y⟩⟩

/-- `cmul` -/
instance : Mul (Float2 R) := ⟨fun a b => ⟨a.x * b.x - a.y * b.y, a.x * b.y + a.y * b.x⟩⟩

@[simp] theorem zero_x : (0 : Float2 R).x = 0 := rfl
@[simp] theorem zero_y : (0 : Float2 R).y = 0 := rfl
@[simp] theorem one_x : (1 : Float2 R).x = 1 := rfl
@[simp] theorem one_y : (1 : Float2 R).y = 0 := rfl
@[simp] theorem add_x (a b : Float2 R) : (a + b).x = a.x + b.x := rfl
@[simp] theorem add_y (a b : Float2 R) : (a + b).y = a.y + b.y := rfl
@[simp] theorem neg_x (a : Float2 R) : (-a).x = -a.x := rfl
@[simp] theorem neg_y (a : Float2 R) : (-a).y = -a.y := rfl
@[simp] theorem sub_x (a b : Float2 R) : (a - b).x = a.x - b.x := rfl
@[simp] theorem sub_y (a b : Float2 R) : (a - b).y = a.y - b.y := rfl
@[simp] theorem mul_x (a b : Float2 R) : (a * b).x = a.x * b.x - a.y * b.y := rfl
@[simp] theorem mul_y (a b : Float2 R) : (a * b).y = a.x * b.y + a.y * b.x := rfl

instance : CommRing (Float2 R) where
  add_assoc a b c := by ext <;> simp [add_assoc]
  zero_add a := by ext <;> simp
  add_zero a := by ext <;> simp
  add_comm a b := by ext <;> simp [add_comm]
  neg_add_cancel a := by ext <;> simp
  sub_eq_add_neg a b := by ext <;> simp [sub_eq_add_neg]
  zero_mul a := by ext <;> simp
  mul_zero a := by ext <;> simp
  one_mul a := by ext <;> simp
  mul_one a := by ext <;> simp
  mul_assoc a b c := by ext <;> simp <;> ring
  mul_comm a b := by ext <;> simp <;> ring
  left_distrib a b c := by ext <;> simp <;> ring
  right_distrib a b c := by ext <;> simp <;> ring
  nsmul := nsmulRec
  zsmul := zsmulRec

/-- Conjugation, `float2(v.x, -v.y)`. -/
instance : StarRing (Float2 R) where
  star a := ⟨a.x, -a.y⟩
  star_involutive a := by ext <;> simp
  star_mul a b := by ext <;> simp <;> ring
  star_add a b := by ext <;> simp [add_comm]

@[simp] theorem star_x (a : Float2 R) : (star a).x = a.x := rfl
@[simp] theorem star_y (a : Float2 R) : (star a).y = -a.y := rfl

/-- A scalar times a `float2`. -/
def scale (c : R) (a : Float2 R) : Float2 R := ⟨c * a.x, c * a.y⟩

/-- The product of two `float2` component by component. -/
def both (a b : Float2 R) : Float2 R := ⟨a.x * b.x, a.y * b.y⟩

/-- `cmulconj` -/
def cmulconj (a b : Float2 R) : Float2 R := ⟨a.x * b.x - a.y * b.y, -a.x * b.y - a.y * b.x⟩

theorem cmulconj_eq (a b : Float2 R) : cmulconj a b = star (a * b) := by
  ext
  · rfl
  · show -a.x * b.y - a.y * b.x = -(a.x * b.y + a.y * b.x)
    ring

end Float2

/-- The codelets' literals. -/
structure Literals (R : Type*) where
  half : R
  quarter : R
  sixth : R
  /-- `pi_2_3` of `radix3` -/
  pi23 : R
  /-- `sin_pi_3` of `radix6` -/
  sinPi3 : R
  /-- `root_5_4`, `sin_2pi_5` and `sin_1pi_5` of `radix5` -/
  root54 : R
  sin2pi5 : R
  sin1pi5 : R
  /-- `cos_pi_4` of `radix8` -/
  cosPi4 : R
  /-- `2.44013336`, `1.02261879`, `2.37046941`, `1.17510629` and `2.64575131` of `radix7` -/
  b1x : R
  b1y : R
  b2x : R
  b2y : R
  b3y : R

variable {R : Type*} [CommRing R] (c : Literals R)

/-- An array of `float2` in thread memory. -/
def thread (l : List (Float2 R)) (i : ℕ) : Float2 R := l.getD i 0

def radix2 (x : ℕ → Float2 R) : ℕ → Float2 R := thread [x 0 + x 1, x 0 - x 1]

def radix3 (x : ℕ → Float2 R) : ℕ → Float2 R :=
  let a1 := x 1 + x 2
  let a2 := x 1 - x 2
  let b1 := x 0 - a1.scale c.half
  let b2 := a2.scale c.pi23
  let b2j : Float2 R := ⟨-b2.y, b2.x⟩
  thread [x 0 + a1, b1 + b2j, b1 - b2j]

def radix4 (x : ℕ → Float2 R) : ℕ → Float2 R :=
  let z0 := x 0 + x 2
  let z1 := x 0 - x 2
  let z2 := x 1 + x 3
  let z3 := x 1 - x 3
  let z3i : Float2 R := ⟨z3.y, -z3.x⟩
  thread [z0 + z2, z1 + z3i, z0 - z2, z1 - z3i]

def radix5 (x : ℕ → Float2 R) : ℕ → Float2 R :=
  let a1 := x 1 + x 4
  let a2 := x 2 + x 3
  let a3 := x 1 - x 4
  let a4 := x 2 - x 3
  let a5 := a1 + a2
  let a6 := (a1 - a2).scale c.root54
  let a7 := x 0 - a5.scale c.quarter
  let a8 := a7 + a6
  let a9 := a7 - a6
  let a10 := a3.scale c.sin2pi5 + a4.scale c.sin1pi5
  let a11 := a3.scale c.sin1pi5 - a4.scale c.sin2pi5
  let a10j : Float2 R := ⟨a10.y, -a10.x⟩
  let a11j : Float2 R := ⟨a11.y, -a11.x⟩
  thread [x 0 + a5, a8 + a10j, a9 + a11j, a9 - a11j, a8 - a10j]

def radix6 (x : ℕ → Float2 R) : ℕ → Float2 R :=
  let a1 := x 2 + x 4
  let a2 := x 0 - a1.scale c.half
  let a3 := (x 2 - x 4).scale c.sinPi3
  let a4 := x 5 + x 1
  let a5 := x 3 - a4.scale c.half
  let a6 := (x 5 - x 1).scale c.sinPi3
  let a7 := x 0 + a1
  let a3i : Float2 R := ⟨a3.y, -a3.x⟩
  let a6i : Float2 R := ⟨a6.y, -a6.x⟩
  let a8 := a2 + a3i
  let a9 := a2 - a3i
  let a10 := x 3 + a4
  let a11 := a5 + a6i
  let a12 := a5 - a6i
  thread [a7 + a10, a8 - a11, a9 + a12, a7 - a10, a8 + a11, a9 - a12]

/-- The `b_q` of `radix7`. -/
def Literals.b : List (Float2 R) :=
  [⟨-1, 0⟩, ⟨c.b1x, -c.b1y⟩, ⟨c.b2x, -c.b2y⟩, ⟨0, -c.b3y⟩, ⟨c.b2x, c.b2y⟩, ⟨-c.b1x, -c.b1y⟩]

def radix7 (x : ℕ → Float2 R) : ℕ → Float2 R :=
  let inv : Float2 R := ⟨c.sixth, -c.sixth⟩
  let in1 := thread [x 1, x 3, x 2, x 6, x 4, x 5]
  let y := radix6 c in1
  let y0 := y 0 + x 0
  let z := fun q => Float2.cmulconj (y q) (thread c.b q)
  let w := radix6 c z
  thread [y0, (w 0).both inv + x 0, (w 4).both inv + x 0, (w 5).both inv + x 0,
    (w 2).both inv + x 0, (w 1).both inv + x 0, (w 3).both inv + x 0]

def radix8 (x : ℕ → Float2 R) : ℕ → Float2 R :=
  let w0 : Float2 R := ⟨c.cosPi4, -c.cosPi4⟩
  let w1 : Float2 R := ⟨-c.cosPi4, -c.cosPi4⟩
  let u := radix4 (thread [x 0, x 2, x 4, x 6])
  let v := radix4 (thread [x 1, x 3, x 5, x 7])
  let x5 := v 1 * w0
  let x6 : Float2 R := ⟨(v 2).y, -(v 2).x⟩
  let x7 := v 3 * w1
  thread [u 0 + v 0, u 1 + x5, u 2 + x6, u 3 + x7, u 0 - v 0, u 1 - x5, u 2 - x6, u 3 - x7]

/-- `radix_dispatch`; `y` is what the output held. -/
def radixDispatch (r : ℕ) (x y : ℕ → Float2 R) : ℕ → Float2 R :=
  match r with
  | 2 => radix2 x
  | 3 => radix3 c x
  | 4 => radix4 x
  | 5 => radix5 c x
  | 6 => radix6 c x
  | 7 => radix7 c x
  | 8 => radix8 c x
  | _ => y

/-- The powers of the root of the seventh in the order in which `radix7` takes its outputs. -/
def raderOrder : List ℕ := [1, 5, 4, 6, 2, 3]

/-- The literals of the codelet for `r` points stand for the parts of powers of `ω`, the `r`-th root
of unity. -/
def Literals.Exact (ω : Float2 R) : ℕ → Prop
  | 2 => ω = ⟨-1, 0⟩
  | 3 => ω = ⟨-c.half, c.pi23⟩
  | 4 => ω = ⟨0, -1⟩
  | 5 => ω = ⟨c.root54 - c.quarter, -c.sin2pi5⟩ ∧ ω ^ 2 = ⟨-c.root54 - c.quarter, -c.sin1pi5⟩
  | 6 => 2 * c.half = 1 ∧ ω = ⟨c.half, -c.sinPi3⟩
  | 7 => 2 * c.half = 1 ∧ 6 * c.sixth = 1 ∧ c.half ^ 2 + c.sinPi3 ^ 2 = 1 ∧
      ∀ q < 6, thread c.b q =
        dft ⟨c.half, -c.sinPi3⟩ 6 (fun p => ω ^ raderOrder.getD p 0) q
  | 8 => ω = ⟨c.cosPi4, -c.cosPi4⟩
  | _ => False

/-! Each codelet is a transform. -/

theorem dft_mod {ω : Float2 R} {n : ℕ} (hω : ω ^ n = 1) (x : ℕ → Float2 R) (k : ℕ) :
    dft ω n x k = ∑ j ∈ range n, x j * ω ^ (j * k % n) := by
  refine sum_congr rfl fun j _ => ?_
  congr 1
  calc ω ^ (j * k) = ω ^ (j * k % n + n * (j * k / n)) := by rw [Nat.mod_add_div]
    _ = ω ^ (j * k % n) := by rw [pow_add, pow_mul, hω, one_pow, mul_one]

/-- A root on the unit circle turns back by conjugation. -/
theorem pow_eq_star {ω : Float2 R} {n a b : ℕ} (hω : ω ^ n = 1) (hunit : star ω * ω = 1)
    (hab : a + b = n) : ω ^ a = star (ω ^ b) := by
  have hback : star (ω ^ b) * ω ^ b = 1 := by
    rw [star_pow, ← mul_pow, hunit, one_pow]
  calc ω ^ a = star (ω ^ b) * ω ^ b * ω ^ a := by rw [hback, one_mul]
    _ = star (ω ^ b) * ω ^ (a + b) := by ring
    _ = star (ω ^ b) := by rw [hab, hω, mul_one]

variable {c} {ω : Float2 R} (x : ℕ → Float2 R)

theorem radix2_dft (h : c.Exact ω 2) {t : ℕ} (ht : t < 2) : radix2 x t = dft ω 2 x t := by
  have hω : ω = -1 := h.trans (by ext <;> simp)
  rw [dft_two, hω]
  interval_cases t
  · simp [radix2, thread]
  · simp [radix2, thread, sub_eq_add_neg]

theorem radix3_dft (hω : ω ^ 3 = 1) (hunit : star ω * ω = 1) (h : c.Exact ω 3) {t : ℕ}
    (ht : t < 3) : radix3 c x t = dft ω 3 x t := by
  have h1 : ω = ⟨-c.half, c.pi23⟩ := h
  have h2 : ω ^ 2 = star ω := by simpa using pow_eq_star hω hunit (show 2 + 1 = 3 from rfl)
  rw [dft_mod hω]
  interval_cases t <;> simp only [sum_range_succ, range_zero, sum_empty, Nat.reduceMul,
    Nat.reduceMod, pow_zero, pow_one, h2] <;> ext <;>
    simp [radix3, thread, Float2.scale, h1] <;> ring

theorem radix4_dft (h : c.Exact ω 4) {t : ℕ} (ht : t < 4) : radix4 x t = dft ω 4 x t := by
  have h1 : ω = ⟨0, -1⟩ := h
  have h2 : ω ^ 2 = -1 := by rw [h1, pow_two]; ext <;> simp
  have h3 : ω ^ 3 = -ω := by rw [pow_succ, h2, neg_one_mul]
  have h4 : ω ^ 4 = 1 := by rw [show 4 = 2 * 2 from rfl, pow_mul, h2, neg_one_sq]
  rw [dft_mod h4]
  interval_cases t <;> simp only [sum_range_succ, range_zero, sum_empty, Nat.reduceMul,
    Nat.reduceMod, pow_zero, pow_one, h2, h3] <;> ext <;>
    simp [radix4, thread, h1] <;> ring

theorem radix5_dft (hω : ω ^ 5 = 1) (hunit : star ω * ω = 1) (h : c.Exact ω 5) {t : ℕ}
    (ht : t < 5) : radix5 c x t = dft ω 5 x t := by
  obtain ⟨h1, h2⟩ := h
  have h3 : ω ^ 3 = star (ω ^ 2) := pow_eq_star hω hunit rfl
  have h4 : ω ^ 4 = star ω := by simpa using pow_eq_star hω hunit (show 4 + 1 = 5 from rfl)
  rw [dft_mod hω]
  interval_cases t <;> simp only [sum_range_succ, range_zero, sum_empty, Nat.reduceMul,
    Nat.reduceMod, pow_zero, pow_one, h4, h3, h2] <;> ext <;>
    simp [radix5, thread, Float2.scale, h1] <;> ring

/-- The powers of the root of `radix6`. -/
theorem sixth_pow (hhalf : 2 * c.half = 1) (hunit : c.half ^ 2 + c.sinPi3 ^ 2 = 1) :
    (⟨c.half, -c.sinPi3⟩ : Float2 R) ^ 2 = ⟨-c.half, -c.sinPi3⟩ ∧
      (⟨c.half, -c.sinPi3⟩ : Float2 R) ^ 3 = -1 ∧
      (⟨c.half, -c.sinPi3⟩ : Float2 R) ^ 4 = ⟨-c.half, c.sinPi3⟩ ∧
      (⟨c.half, -c.sinPi3⟩ : Float2 R) ^ 5 = ⟨c.half, c.sinPi3⟩ ∧
      (⟨c.half, -c.sinPi3⟩ : Float2 R) ^ 6 = 1 := by
  have h2 : (⟨c.half, -c.sinPi3⟩ : Float2 R) ^ 2 = ⟨-c.half, -c.sinPi3⟩ := by
    rw [pow_two]
    ext
    · show c.half * c.half - -c.sinPi3 * -c.sinPi3 = -c.half
      linear_combination (c.half + 1) * hhalf - hunit
    · show c.half * -c.sinPi3 + -c.sinPi3 * c.half = -c.sinPi3
      linear_combination -c.sinPi3 * hhalf
  have h3 : (⟨c.half, -c.sinPi3⟩ : Float2 R) ^ 3 = -1 := by
    rw [pow_succ, h2]
    ext
    · show -c.half * c.half - -c.sinPi3 * -c.sinPi3 = -1
      linear_combination -hunit
    · show -c.half * -c.sinPi3 + -c.sinPi3 * c.half = -0
      ring
  refine ⟨h2, h3, ?_, ?_, ?_⟩
  · rw [pow_succ, h3]
    ext <;> simp
  · rw [show 5 = 3 + 2 from rfl, pow_add, h3, h2]
    ext <;> simp
  · rw [show 6 = 3 * 2 from rfl, pow_mul, h3, neg_one_sq]

theorem radix6_dft (hhalf : 2 * c.half = 1) (hunit : c.half ^ 2 + c.sinPi3 ^ 2 = 1) {t : ℕ}
    (ht : t < 6) : radix6 c x t = dft ⟨c.half, -c.sinPi3⟩ 6 x t := by
  obtain ⟨h2, h3, h4, h5, h6⟩ := sixth_pow hhalf hunit
  rw [dft_mod h6]
  interval_cases t <;> simp only [sum_range_succ, range_zero, sum_empty, Nat.reduceMul,
    Nat.reduceMod, pow_zero, pow_one, h5, h4, h3, h2] <;> ext <;>
    simp [radix6, thread, Float2.scale] <;> ring

theorem sixth_principal (hhalf : 2 * c.half = 1) (hunit : c.half ^ 2 + c.sinPi3 ^ 2 = 1) :
    Principal (⟨c.half, -c.sinPi3⟩ : Float2 R) 6 := by
  obtain ⟨h2, h3, h4, h5, h6⟩ := sixth_pow hhalf hunit
  refine ⟨h6, fun k h0 hk => ?_⟩
  have hmod := dft_mod h6 (fun _ => (1 : Float2 R)) k
  simp only [dft, one_mul] at hmod
  rw [hmod]
  interval_cases k <;> simp only [sum_range_succ, range_zero, sum_empty, Nat.reduceMul,
    Nat.reduceMod, pow_zero, pow_one, h5, h4, h3, h2] <;> ext <;> simp <;>
    linear_combination (-2 : R) * hhalf

/-- The last pass of `radix7` is six times a convolution, conjugated. -/
theorem radix7_lag (h : c.Exact ω 7) {q : ℕ} (hq : q < 6) :
    (radix6 c (fun q => Float2.cmulconj
      (radix6 c (thread [x 1, x 3, x 2, x 6, x 4, x 5]) q) (thread c.b q)) q).both
        ⟨c.sixth, -c.sixth⟩ =
      circ 6 (thread [x 1, x 3, x 2, x 6, x 4, x 5]) (fun p => ω ^ raderOrder.getD p 0) q := by
  obtain ⟨hhalf, hsixth, hunit, hb⟩ := h
  have hback : (⟨c.half, -c.sinPi3⟩ : Float2 R) * star ⟨c.half, -c.sinPi3⟩ = 1 := by
    ext
    · show c.half * c.half - -c.sinPi3 * - -c.sinPi3 = 1
      linear_combination hunit
    · show c.half * - -c.sinPi3 + -c.sinPi3 * c.half = 0
      ring
  have hlast : radix6 c (fun q => Float2.cmulconj
      (radix6 c (thread [x 1, x 3, x 2, x 6, x 4, x 5]) q) (thread c.b q)) q =
      star (6 * circ 6 (thread [x 1, x 3, x 2, x 6, x 4, x 5])
        (fun p => ω ^ raderOrder.getD p 0) q) := by
    have hconv := dft_mul_dft (sixth_principal hhalf hunit) hback
      (thread [x 1, x 3, x 2, x 6, x 4, x 5]) (fun p => ω ^ raderOrder.getD p 0) hq
    have hstar := map_dft (starRingEnd (Float2 R)) (star ⟨c.half, -c.sinPi3⟩) 6
      (fun i => dft ⟨c.half, -c.sinPi3⟩ 6 (thread [x 1, x 3, x 2, x 6, x 4, x 5]) i *
        dft ⟨c.half, -c.sinPi3⟩ 6 (fun p => ω ^ raderOrder.getD p 0) i) q
    rw [hconv] at hstar
    rw [radix6_dft _ hhalf hunit hq]
    refine Eq.trans ?_ hstar.symm
    rw [starRingEnd_apply, star_star]
    refine dft_congr (fun p hp => ?_) q
    rw [Float2.cmulconj_eq, radix6_dft _ hhalf hunit hp, hb p hp]
    rfl
  rw [hlast]
  generalize circ 6 (thread [x 1, x 3, x 2, x 6, x 4, x 5]) (fun p => ω ^ raderOrder.getD p 0) q = z
  have hsix : (6 : Float2 R) = ⟨6, 0⟩ := by
    rw [show (6 : Float2 R) = 1 + 1 + 1 + 1 + 1 + 1 by norm_num]
    ext
    · show (1 : R) + 1 + 1 + 1 + 1 + 1 = 6
      norm_num
    · simp
  rw [hsix]
  ext
  · show (6 * z.x - 0 * z.y) * c.sixth = z.x
    linear_combination z.x * hsixth
  · show -(6 * z.y + 0 * z.x) * -c.sixth = z.y
    linear_combination z.y * hsixth

theorem radix7_dft (hω : ω ^ 7 = 1) (h : c.Exact ω 7) {t : ℕ} (ht : t < 7) :
    radix7 c x t = dft ω 7 x t := by
  have hlag := fun q (hq : q < 6) => radix7_lag x h hq
  have hfirst := @radix6_dft R _ c (thread [x 1, x 3, x 2, x 6, x 4, x 5]) h.1 h.2.2.1 0 (by omega)
  rw [dft_mod hω]
  unfold radix7
  interval_cases t
  · simp [thread, hfirst, dft, sum_range_succ]
    ring
  all_goals
    simp only [thread, List.getD_cons_succ, List.getD_cons_zero] at hlag ⊢
    rw [hlag _ (by omega)]
    simp [circ, raderOrder, thread, sum_range_succ]
    ring

theorem radix8_dft (hunit : star ω * ω = 1) (h : c.Exact ω 8) {t : ℕ} (ht : t < 8) :
    radix8 c x t = dft ω 8 x t := by
  have h1 : ω = ⟨c.cosPi4, -c.cosPi4⟩ := h
  have hsq : c.cosPi4 * c.cosPi4 + c.cosPi4 * c.cosPi4 = 1 := by
    have := congrArg Float2.x hunit
    rw [h1] at this
    simpa using this
  have h2 : ω ^ 2 = ⟨0, -1⟩ := by
    rw [h1, pow_two]
    ext
    · simp
    · show c.cosPi4 * -c.cosPi4 + -c.cosPi4 * c.cosPi4 = -1
      linear_combination -hsq
  have h3 : ω ^ 3 = ⟨-c.cosPi4, -c.cosPi4⟩ := by
    rw [pow_succ, h2, h1]
    ext <;> simp
  have h4 : ω ^ 4 = -1 := by
    rw [show 4 = 2 * 2 from rfl, pow_mul, h2, pow_two]
    ext <;> simp
  have h5 : ω ^ 5 = -ω := by rw [pow_succ, h4, neg_one_mul]
  have h6 : ω ^ 6 = -⟨0, -1⟩ := by rw [show 6 = 4 + 2 from rfl, pow_add, h4, h2, neg_one_mul]
  have h7 : ω ^ 7 = -⟨-c.cosPi4, -c.cosPi4⟩ := by
    rw [show 7 = 4 + 3 from rfl, pow_add, h4, h3, neg_one_mul]
  have h8 : ω ^ 8 = 1 := by rw [show 8 = 4 * 2 from rfl, pow_mul, h4, neg_one_sq]
  rw [dft_mod h8]
  interval_cases t <;> simp only [sum_range_succ, range_zero, sum_empty, Nat.reduceMul,
    Nat.reduceMod, pow_zero, pow_one, h7, h6, h5, h4, h3, h2] <;> ext <;>
    simp [radix8, radix4, thread, h1] <;> ring

/-- The codelet that the dispatch picks is the transform. -/
theorem radixDispatch_dft {r : ℕ} (hω : ω ^ r = 1) (hunit : star ω * ω = 1) (h : c.Exact ω r)
    (y : ℕ → Float2 R) {t : ℕ} (ht : t < r) : radixDispatch c r x y t = dft ω r x t := by
  unfold radixDispatch
  split
  · exact radix2_dft x h ht
  · exact radix3_dft x hω hunit h ht
  · exact radix4_dft x h ht
  · exact radix5_dft x hω hunit h ht
  · obtain ⟨hhalf, rfl⟩ := h
    have hsq : c.half ^ 2 + c.sinPi3 ^ 2 = 1 := by
      have hx := congrArg Float2.x hunit
      have hx' : c.half * c.half - - -c.sinPi3 * -c.sinPi3 = 1 := hx
      linear_combination hx'
    exact radix6_dft x hhalf hsq ht
  · exact radix7_dft x hω h ht
  · exact radix8_dft x hunit h ht
  · rename_i h2 h3 h4 h5 h6 h7 h8
    exfalso
    unfold Literals.Exact at h
    split at h <;> simp_all

end PolarsMetal.Fft
