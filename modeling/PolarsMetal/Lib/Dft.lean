import Mathlib.Algebra.BigOperators.Ring.Finset
import Mathlib.Algebra.BigOperators.Intervals
import Mathlib.Tactic

/-! The discrete Fourier transform over a commutative ring: the transform of a grid of points from
the transforms of its columns and rows, and the product of two transforms as a circular
convolution. -/

namespace Dft
open Finset

variable {K : Type*} [CommRing K]

/-- Entry `k` of the transform of the first `n` points of `x`. -/
def dft (ω : K) (n : ℕ) (x : ℕ → K) (k : ℕ) : K := ∑ j ∈ range n, x j * ω ^ (j * k)

theorem dft_congr {ω : K} {n : ℕ} {x y : ℕ → K} (h : ∀ j < n, x j = y j) (k : ℕ) :
    dft ω n x k = dft ω n y k :=
  sum_congr rfl fun j hj => by rw [h j (mem_range.1 hj)]

theorem dft_one (ω : K) (x : ℕ → K) : dft ω 1 x 0 = x 0 := by
  simp [dft]

theorem dft_two (ω : K) (x : ℕ → K) (k : ℕ) : dft ω 2 x k = x 0 + x 1 * ω ^ k := by
  simp [dft, sum_range_succ]

theorem map_dft {L : Type*} [CommRing L] (f : K →+* L) (ω : K) (n : ℕ) (x : ℕ → K) (k : ℕ) :
    f (dft ω n x k) = dft (f ω) n (fun j => f (x j)) k := by
  unfold dft
  rw [map_sum]
  exact sum_congr rfl fun j _ => by rw [map_mul, map_pow]

/-- A sum over a grid, column by column. -/
theorem sum_range_grid (f : ℕ → K) (r p : ℕ) :
    ∑ v ∈ range (r * p), f v = ∑ s ∈ range r, ∑ u ∈ range p, f (s + u * r) := by
  induction p with
  | zero => simp
  | succ p ih =>
    rw [Nat.mul_succ, sum_range_add, ih, ← sum_add_distrib]
    refine sum_congr rfl fun s _ => ?_
    rw [sum_range_succ, Nat.add_comm (r * p) s, Nat.mul_comm r p]

/-- The transform of `r` columns of `p` points: the columns' transforms, twiddled, and then the
rows'. -/
theorem dft_grid {ω : K} {r p : ℕ} (hω : ω ^ (r * p) = 1) (x : ℕ → K) (k t : ℕ) :
    dft ω (r * p) x (k + t * p) =
      dft (ω ^ p) r (fun s => ω ^ (s * k) * dft (ω ^ r) p (fun u => x (s + u * r)) k) t := by
  unfold dft
  rw [sum_range_grid]
  refine sum_congr rfl fun s _ => ?_
  beta_reduce
  rw [mul_sum, sum_mul]
  refine sum_congr rfl fun u _ => ?_
  have hexp : ω ^ ((s + u * r) * (k + t * p)) =
      ω ^ (s * k) * (ω ^ r) ^ (u * k) * (ω ^ p) ^ (s * t) := by
    calc ω ^ ((s + u * r) * (k + t * p))
        = ω ^ (s * k + r * (u * k) + p * (s * t) + r * p * (u * t)) := by congr 1; ring
      _ = ω ^ (s * k) * (ω ^ r) ^ (u * k) * (ω ^ p) ^ (s * t) * (ω ^ (r * p)) ^ (u * t) := by
          rw [pow_add, pow_add, pow_add, pow_mul ω r, pow_mul ω p, pow_mul ω (r * p)]
      _ = _ := by rw [hω, one_pow, mul_one]
  rw [hexp]
  ring

/-! Roots of unity. -/

/-- The powers of `ω` cancel over a whole turn. -/
structure Principal (ω : K) (n : ℕ) : Prop where
  pow_eq_one : ω ^ n = 1
  sum_eq_zero : ∀ k, 0 < k → k < n → ∑ j ∈ range n, ω ^ (j * k) = 0

theorem Principal.sum {ω : K} {n : ℕ} (h : Principal ω n) (hn : 0 < n) (e : ℕ) :
    ∑ j ∈ range n, ω ^ (j * e) = if n ∣ e then (n : K) else 0 := by
  have hred : ∀ j, ω ^ (j * e) = ω ^ (j * (e % n)) := by
    intro j
    calc ω ^ (j * e) = ω ^ (j * (e % n) + n * (j * (e / n))) := by
          congr 1
          rw [Nat.mul_left_comm n, ← Nat.mul_add, Nat.mod_add_div]
      _ = ω ^ (j * (e % n)) := by rw [pow_add, pow_mul ω n, h.pow_eq_one, one_pow, mul_one]
  rw [sum_congr rfl fun j _ => hred j]
  split_ifs with hdvd
  · rw [Nat.mod_eq_zero_of_dvd hdvd]
    simp
  · exact h.sum_eq_zero _ (Nat.pos_of_ne_zero fun h0 => hdvd (Nat.dvd_of_mod_eq_zero h0))
      (Nat.mod_lt e hn)

/-- A root of unity for `2 ^ e` points: half way round it is `-1`. -/
def IsPow2Root (ω : K) : ℕ → Prop
  | 0 => ω = 1
  | e + 1 => ω ^ 2 ^ e = -1

instance [DecidableEq K] (ω : K) : (e : ℕ) → Decidable (IsPow2Root ω e)
  | 0 => inferInstanceAs (Decidable (ω = 1))
  | e + 1 => inferInstanceAs (Decidable (ω ^ 2 ^ e = -1))

namespace IsPow2Root

variable {ω : K} {d e : ℕ}

theorem pow_eq_one (h : IsPow2Root ω e) : ω ^ 2 ^ e = 1 := by
  cases e with
  | zero => simpa [IsPow2Root] using h
  | succ e =>
    have hhalf : ω ^ 2 ^ e = -1 := h
    rw [pow_succ 2 e, pow_mul, hhalf, neg_one_sq]

/-- A power of the root is a root for fewer points. -/
theorem pow (h : IsPow2Root ω (d + e)) : IsPow2Root (ω ^ 2 ^ d) e := by
  cases e with
  | zero => exact h.pow_eq_one
  | succ e =>
    have hhalf : ω ^ 2 ^ (d + e) = -1 := h
    show (ω ^ 2 ^ d) ^ 2 ^ e = -1
    rw [← pow_mul, ← pow_add, hhalf]

theorem principal (h : IsPow2Root ω e) : Principal ω (2 ^ e) := by
  refine ⟨h.pow_eq_one, ?_⟩
  induction e generalizing ω with
  | zero => intro k h0 h1; omega
  | succ e ih =>
    intro k h0 hk
    have hhalf : ω ^ 2 ^ e = -1 := h
    rcases Nat.even_or_odd' k with ⟨c, rfl | rfl⟩
    · -- an even frequency goes round twice with the square of the root
      have hsq : IsPow2Root (ω ^ 2 ^ 1) e := by
        have h' : IsPow2Root ω (1 + e) := by rwa [Nat.add_comm]
        exact h'.pow
      have hterm : ∀ j, ω ^ (j * (2 * c)) = (ω ^ 2 ^ 1) ^ (j * c) := by
        intro j
        rw [← pow_mul]
        congr 1
        ring
      have hturn : ∀ j, (ω ^ 2 ^ 1) ^ ((2 ^ e + j) * c) = (ω ^ 2 ^ 1) ^ (j * c) := by
        intro j
        rw [Nat.add_mul, pow_add, pow_mul _ (2 ^ e), hsq.pow_eq_one, one_pow, one_mul]
      rw [pow_succ, Nat.mul_two, sum_range_add, sum_congr rfl fun j _ => hterm j,
        sum_congr rfl fun j _ => hterm (2 ^ e + j), sum_congr rfl fun j _ => hturn j,
        ih hsq c (by omega) (by rw [pow_succ] at hk; omega), add_zero]
    · -- an odd frequency changes sign half way
      have hterm : ∀ j, ω ^ ((2 ^ e + j) * (2 * c + 1)) = -ω ^ (j * (2 * c + 1)) := by
        intro j
        rw [Nat.add_mul, pow_add, pow_mul ω (2 ^ e), hhalf, Odd.neg_one_pow ⟨c, rfl⟩, neg_one_mul]
      rw [pow_succ, Nat.mul_two, sum_range_add, sum_congr rfl fun j _ => hterm j,
        sum_neg_distrib, add_neg_cancel]

end IsPow2Root

/-! Convolution. -/

/-- Circular convolution of `n` points. -/
def circ (n : ℕ) (x y : ℕ → K) (k : ℕ) : K := ∑ a ∈ range n, x a * y ((k + (n - a)) % n)

theorem dvd_iff_lag {n a b k : ℕ} (ha : a < n) (hb : b < n) (hk : k < n) :
    n ∣ a + b + (n - k) ↔ b = (k + (n - a)) % n := by
  have hlag : (k + (n - a)) % n = if a ≤ k then k - a else k + n - a := by
    split_ifs with hle
    · rw [show k + (n - a) = k - a + n by omega, Nat.add_mod_right, Nat.mod_eq_of_lt (by omega)]
    · rw [Nat.mod_eq_of_lt (by omega)]
      omega
  rw [hlag]
  refine ⟨fun ⟨c, hc⟩ => ?_, fun h => ?_⟩
  · have hlt : c < 3 := by
      by_contra hge
      have := Nat.mul_le_mul_left n (Nat.not_lt.1 hge)
      omega
    interval_cases c
    · omega
    · rw [if_pos (by omega)]; omega
    · rw [if_neg (by omega)]; omega
  · split_ifs at h with hle
    · exact ⟨1, by omega⟩
    · exact ⟨2, by omega⟩

/-- Transforming the product of two transforms back gives the circular convolution, `n` times. -/
theorem dft_mul_dft {ω ω' : K} {n : ℕ} (h : Principal ω n) (hinv : ω * ω' = 1) (x y : ℕ → K)
    {k : ℕ} (hk : k < n) :
    dft ω' n (fun i => dft ω n x i * dft ω n y i) k = n * circ n x y k := by
  have hn : 0 < n := by omega
  have hback : ∀ i, ω' ^ (i * k) = ω ^ (i * (n - k)) := by
    intro i
    have hone : ω ^ (i * (n - k)) * ω ^ (i * k) = 1 := by
      rw [← pow_add, ← Nat.mul_add, Nat.sub_add_cancel hk.le, Nat.mul_comm, pow_mul,
        h.pow_eq_one, one_pow]
    calc ω' ^ (i * k) = ω ^ (i * (n - k)) * ω ^ (i * k) * ω' ^ (i * k) := by rw [hone, one_mul]
      _ = ω ^ (i * (n - k)) * (ω * ω') ^ (i * k) := by rw [mul_pow, mul_assoc]
      _ = _ := by rw [hinv, one_pow, mul_one]
  have hpoint : ∀ i, dft ω n x i * dft ω n y i * ω' ^ (i * k) =
      ∑ a ∈ range n, ∑ b ∈ range n, x a * y b * ω ^ (i * (a + b + (n - k))) := by
    intro i
    unfold dft
    rw [sum_mul_sum, hback, sum_mul]
    refine sum_congr rfl fun a _ => ?_
    rw [sum_mul]
    refine sum_congr rfl fun b _ => ?_
    rw [Nat.mul_add, Nat.mul_add, pow_add, pow_add, Nat.mul_comm i a, Nat.mul_comm i b]
    ring
  have hcell : ∀ a ∈ range n, ∑ b ∈ range n, ∑ i ∈ range n, x a * y b * ω ^ (i * (a + b + (n - k)))
      = n * (x a * y ((k + (n - a)) % n)) := by
    intro a ha
    have hrow : ∀ b ∈ range n, ∑ i ∈ range n, x a * y b * ω ^ (i * (a + b + (n - k))) =
        if b = (k + (n - a)) % n then n * (x a * y b) else 0 := by
      intro b hb
      rw [← mul_sum, h.sum hn, mul_ite, mul_zero, mul_comm (x a * y b)]
      exact if_congr (dvd_iff_lag (mem_range.1 ha) (mem_range.1 hb) hk) rfl rfl
    rw [sum_congr rfl hrow, sum_ite_eq' (range n), if_pos (mem_range.2 (Nat.mod_lt _ hn))]
  calc dft ω' n (fun i => dft ω n x i * dft ω n y i) k
      = ∑ i ∈ range n, ∑ a ∈ range n, ∑ b ∈ range n,
          x a * y b * ω ^ (i * (a + b + (n - k))) := sum_congr rfl fun i _ => hpoint i
    _ = ∑ a ∈ range n, ∑ b ∈ range n, ∑ i ∈ range n,
          x a * y b * ω ^ (i * (a + b + (n - k))) := by
        rw [sum_comm]
        exact sum_congr rfl fun a _ => sum_comm
    _ = n * circ n x y k := by
        rw [sum_congr rfl hcell, ← mul_sum]
        rfl

/-- Transforming there and back gives the points, `n` times. -/
theorem dft_dft {ω ω' : K} {n : ℕ} (h : Principal ω n) (hinv : ω * ω' = 1) (x : ℕ → K) {k : ℕ}
    (hk : k < n) : dft ω' n (dft ω n x) k = n * x k := by
  have hpoint : ∀ i, dft ω n x i = dft ω n x i * dft ω n (fun j => if j = 0 then 1 else 0) i := by
    intro i
    have hone : dft ω n (fun j => if j = 0 then 1 else 0) i = 1 := by
      unfold dft
      rw [sum_eq_single_of_mem 0 (mem_range.2 (by omega)) fun j _ hj => by
        beta_reduce
        rw [if_neg hj, zero_mul]]
      simp
    rw [hone, mul_one]
  have hcirc : circ n x (fun j => if j = 0 then 1 else 0) k = x k := by
    unfold circ
    rw [sum_eq_single_of_mem k (mem_range.2 hk) fun a ha hne => ?_]
    · beta_reduce
      rw [Nat.add_sub_cancel' hk.le, Nat.mod_self, if_pos rfl, mul_one]
    · have ha := mem_range.1 ha
      have hlag : 0 = (k + (n - a)) % n ↔ n ∣ a + 0 + (n - k) :=
        (dvd_iff_lag ha (by omega) hk).symm
      beta_reduce
      rw [if_neg, mul_zero]
      intro hzero
      obtain ⟨c, hc⟩ := hlag.1 hzero.symm
      have hone : c = 1 := by
        have hlt : c < 2 := by
          by_contra hge
          have := Nat.mul_le_mul_left n (Nat.not_lt.1 hge)
          omega
        interval_cases c <;> omega
      subst hone
      omega
  calc dft ω' n (dft ω n x) k
      = dft ω' n (fun i => dft ω n x i * dft ω n (fun j => if j = 0 then 1 else 0) i) k :=
        dft_congr (fun i _ => hpoint i) k
    _ = n * x k := by rw [dft_mul_dft h hinv _ _ hk, hcirc]
end Dft
