import PolarsMetal.Fft.RealArith

/-! Every length, in either direction: the planar and the interleaved routine compute the discrete
Fourier transform, or refuse the same lengths. -/

namespace PolarsMetal.Fft
open Dft Finset Barriers Fallible

noncomputable section

/-- `dft_reference`, over the complex numbers. -/
def fourier (x : ℕ → ℂ) (n : ℕ) (inverse : Bool) (k : ℕ) : ℂ :=
  (∑ t ∈ range n, x t * Complex.exp
      ((if inverse then ((2 : ℕ) : ℂ) else -((2 : ℕ) : ℂ)) * Real.pi * Complex.I * (k * t : ℕ) / n)) *
    if inverse then 1 / (n : ℂ) else 1

/-- The same over pairs of real numbers. -/
def spectrum (x : ℕ → Float2 ℝ) (n : ℕ) (inverse : Bool) (k : ℕ) : Float2 ℝ :=
  (dft (rootOf n inverse) n x k).scale (scaleOf realArith n inverse)

theorem spectrum_congr {x y : ℕ → Float2 ℝ} {n : ℕ} (h : ∀ i < n, x i = y i) (inverse : Bool)
    (k : ℕ) : spectrum x n inverse k = spectrum y n inverse k :=
  congrArg (Float2.scale _) (dft_congr h k)

theorem toComplex_scale (c : ℝ) (v : Float2 ℝ) : toComplex (v.scale c) = toComplex v * c := by
  refine Complex.ext ?_ ?_
  · show c * v.x = v.x * c - v.y * 0
    ring
  · show c * v.y = v.x * 0 + v.y * c
    ring

theorem toComplex_spectrum (x : ℕ → Float2 ℝ) (n : ℕ) (inverse : Bool) (k : ℕ) :
    toComplex (spectrum x n inverse k) = fourier (fun t => toComplex (x t)) n inverse k := by
  unfold spectrum fourier
  rw [toComplex_scale, map_dft]
  congr 1
  · refine Finset.sum_congr rfl fun t _ => ?_
    rw [toComplex_rootOf, ← Complex.exp_nat_mul]
    congr 2
    push_cast
    ring
  · unfold scaleOf
    cases inverse with
    | false =>
      rw [if_neg Bool.false_ne_true, if_neg Bool.false_ne_true, Complex.ofReal_one]
    | true =>
      rw [if_pos rfl, if_pos rfl]
      exact (Complex.ofReal_div _ _).trans (by rw [Complex.ofReal_one, Complex.ofReal_natCast])

/-- What the interleaved kernels are known to compute. -/
theorem dftReference_eq_spectrum (x : ℕ → Float2 ℝ) (n : ℕ) (inverse : Bool) (k : ℕ) :
    dftReference (rootOf n) realArith.recip x n inverse k = spectrum x n inverse k := by
  rw [dftReference_eq]
  unfold spectrum scaleOf
  cases inverse with
  | false => exact Float2.ext (by simp [Float2.scale]) (by simp [Float2.scale])
  | true =>
    refine Float2.ext ?_ ?_
    · show _ * (1 / (n : ℝ)) - _ * 0 = 1 / n * _
      ring
    · show _ * 0 + _ * (1 / (n : ℝ)) = 1 / n * _
      ring

/-! The routes. -/

/-- The lengths that have a route. -/
def Supported (n : ℤ) : Prop := 0 < n ∧ (n ≤ 2 ^ 29 ∨ n = 2 ^ 30)

theorem land_pred_eq_zero_iff {n : ℕ} (hn : 0 < n) : n &&& (n - 1) = 0 ↔ ∃ e, n = 2 ^ e :=
  Nat.and_sub_one_eq_zero_iff_isPowerOfTwo hn.ne'

theorem nextPow2_le_iff (x : ℕ) : nextPow2 x ≤ 2 ^ 30 ↔ x ≤ 2 ^ 30 := by
  refine ⟨fun h => (le_nextPow2 h).trans h, fun h => ?_⟩
  unfold nextPow2 leadingZeros
  split_ifs with hsmall
  · exact Nat.one_le_two_pow
  · have hsize : (x - 1).size ≤ 30 := Nat.size_le.2 (by omega)
    rw [Nat.one_shiftLeft]
    exact Nat.pow_le_pow_right (by omega) (by omega)

theorem supported_two_pow (e : ℕ) : Supported (2 ^ e : ℕ) ↔ 2 ^ e ≤ 2 ^ 30 := by
  have hpos := Nat.two_pow_pos e
  constructor
  · intro h
    have hcast := h.2
    rcases hcast with h | h
    · have h' : 2 ^ e ≤ 2 ^ 29 := by exact_mod_cast h
      omega
    · have h' : 2 ^ e = 2 ^ 30 := by exact_mod_cast h
      omega
  · intro h
    refine ⟨by exact_mod_cast hpos, ?_⟩
    rcases Nat.lt_or_ge e 30 with he | he
    · left
      exact_mod_cast Nat.pow_le_pow_right (n := 2) (by omega) (show e ≤ 29 by omega)
    · right
      have heq : e = 30 := by
        have := (Nat.pow_le_pow_iff_right (a := 2) (by omega)).1 h
        omega
      subst heq
      norm_num

theorem supported_of_not_two_pow {n : ℕ} (hn : 0 < n) (hpow : ¬ ∃ e, n = 2 ^ e) :
    Supported n ↔ nextPow2 (2 * n - 1) ≤ 2 ^ 30 := by
  have hne : n ≠ 2 ^ 29 ∧ n ≠ 2 ^ 30 := ⟨fun h => hpow ⟨29, h⟩, fun h => hpow ⟨30, h⟩⟩
  rw [nextPow2_le_iff]
  unfold Supported
  omega

/-! The chirp transform. -/

section Chirp

variable {Ms : ℕ → Machine (Float2 ℝ)}

theorem realChirp_root {n : ℕ} (hn : 0 < n) : realChirp 1 n ^ (2 * n) = 1 ∧
    star (realChirp 1 n) * realChirp 1 n = 1 ∧ (∀ m, realChirp m n = realChirp 1 n ^ m) ∧
    realChirp 1 n ^ 2 = rootOf n false := by
  have hn' : (n : ℝ) ≠ 0 := Nat.cast_ne_zero.2 hn.ne'
  have hpow : ∀ m, realChirp m n = realChirp 1 n ^ m := by
    intro m
    unfold realChirp
    rw [onCircle_pow]
    congr 1
    push_cast
    ring
  have hsq : realChirp 1 n ^ 2 = rootOf n false := by
    unfold realChirp rootOf
    rw [onCircle_pow, if_neg Bool.false_ne_true]
    congr 1
    push_cast
    ring
  refine ⟨?_, star_mul_onCircle _, hpow, hsq⟩
  rw [pow_mul, hsq, rootOf_pow_eq_one hn]

theorem realArith_exactFft (e : ℕ) : ExactFft realArith (rootOf (2 ^ e)) e where
  exact := realArith_exact (Nat.two_pow_pos e)
  isRoot := rootOf_isPow2Root e false
  conj := rootOf_conj _
  back := (mul_comm _ _).trans (rootOf_back _)

theorem realArith_recip (n : ℕ) (hn : 0 < n) : ((n : ℕ) : Float2 ℝ) * realArith.recip n = 1 := by
  have hn' : (n : ℂ) ≠ 0 := Nat.cast_ne_zero.2 hn.ne'
  have hrecip : toComplex (realArith.recip n) = 1 / n := by
    refine Complex.ext ?_ ?_
    · show 1 / (n : ℝ) = ((1 : ℂ) / n).re
      rw [← Complex.ofReal_natCast, ← Complex.ofReal_one, ← Complex.ofReal_div, Complex.ofReal_re]
    · show 0 = ((1 : ℂ) / n).im
      rw [← Complex.ofReal_natCast, ← Complex.ofReal_one, ← Complex.ofReal_div, Complex.ofReal_im]
  refine toComplex_injective ?_
  rw [map_mul, map_natCast, hrecip, map_one, mul_one_div_cancel hn']

theorem bluesteinDispatch_spectrum (hMs : ∀ i, fftBaseMax ≤ (Ms i).maxThreads) {n : ℕ} (hn : 2 ≤ n)
    (input : ℕ → Float2 ℝ) (inverse : Bool) :
    (nextPow2 (2 * n - 1) ≤ 2 ^ 30 →
      ∃ out, bluesteinDispatch Ms realArith realChirp input n inverse = .ok out ∧
        ∀ k < n, out k = spectrum input n inverse k) ∧
    (¬ nextPow2 (2 * n - 1) ≤ 2 ^ 30 →
      bluesteinDispatch Ms realArith realChirp input n inverse = .error (.unsupported n)) := by
  have hnot : ¬ (n : ℤ) < 2 := by omega
  obtain ⟨e, he⟩ := exists_nextPow2 (2 * n - 1)
  obtain ⟨hturn, hunit, hchirp, hsq⟩ := realChirp_root (show 0 < n by omega)
  unfold bluesteinDispatch
  rw [if_neg hnot, Int.toNat_natCast]
  refine ⟨fun hcap => ?_, fun hcap => by rw [if_pos (Nat.not_le.1 hcap)]⟩
  have hforward := bluestein_forward hMs hn hturn hunit (fun m _ => hchirp m) he
    (realArith_exactFft e) (realArith_recip _ (Nat.two_pow_pos e)) (he ▸ hcap)
  rw [if_neg (Nat.not_lt.2 hcap)]
  cases inverse with
  | false =>
    obtain ⟨out, hok, hout⟩ := hforward input
    refine ⟨out, by rw [if_pos Bool.false_ne_true, hok], fun k hk => ?_⟩
    rw [hout k hk, hsq, ← dftReference_eq_spectrum, dftReference_eq, if_neg Bool.false_ne_true,
      mul_one]
  | true =>
    obtain ⟨out, hok, hout⟩ := hforward fun i => star (input i)
    refine ⟨_, by rw [if_neg (by simp)]; exact bind_eq_ok.2 ⟨out, hok, rfl⟩, fun k hk => ?_⟩
    have hmap := map_dft (starRingEnd (Float2 ℝ)) (rootOf n false) n (fun i => star (input i)) k
    simp only [starRingEnd_apply, star_star, rootOf_conj] at hmap
    rw [hout k hk, hsq, ← dftReference_eq_spectrum, dftReference_eq, if_pos rfl, hmap]

end Chirp

/-! The routines. -/

section Cores

variable {M : Machine (Float2 ℝ)} {Ms : ℕ → Machine (Float2 ℝ)} {y₀ : ℕ → Float2 ℝ}

/-- The grid of one full group. -/
theorem one_group (M : Machine (Float2 ℝ)) {tg : ℕ} (hpos : 0 < tg) (hmax : tg ≤ M.maxThreads) :
    max (min tg M.maxThreads) 1 = tg ∧ (tg + tg - 1) / tg = 1 ∧ 0 < min tg (tg - 0 * tg) := by
  refine ⟨by omega, ?_, by omega⟩
  rw [Nat.add_sub_assoc hpos]
  exact Nat.div_eq_of_lt_le (by omega) (by omega)

theorem dispatch_one_group {tg : ℕ} (hpos : 0 < tg) (hmax : tg ≤ M.maxThreads)
    (kernel : ℕ → ℕ → List (Phase (GridMem (Float2 ℝ)))) (out : ℕ → Float2 ℝ)
    {Q : (ℕ → Float2 ℝ) → Prop} (hkernel : ∀ size, 0 < size → Triple size (fun s => s.data = out)
      (kernel 0 size) (fun s => Q s.data)) :
    ∃ out', M.dispatch1dWithTg 0 .base tg tg kernel out = .ok out' ∧ Q out' := by
  obtain ⟨htg, hone, hsize⟩ := one_group M hpos hmax
  unfold Machine.dispatch1dWithTg
  rw [if_neg hpos.ne', htg]
  dsimp only
  rw [hone, runGrid_one]
  exact ⟨_, rfl, (hkernel _ hsize).runGroup ((M.groups 0 .base).turns 0) rfl⟩

theorem dispatchPlanar_one_group {tg : ℕ} (hpos : 0 < tg) (hmax : tg ≤ M.maxThreads)
    (kernel : ℕ → ℕ → List (Phase (PlanarMem ℝ))) (out : Planes ℝ) {Q : Planes ℝ → Prop}
    (hkernel : ∀ size, 0 < size → Triple size (fun s => s.planes = out) (kernel 0 size)
      (fun s => Q s.planes)) :
    ∃ out', M.dispatch1dWithTgPlanar 0 .base tg tg kernel out = .ok out' ∧ Q out' := by
  obtain ⟨htg, hone, hsize⟩ := one_group M hpos hmax
  unfold Machine.dispatch1dWithTgPlanar
  rw [if_neg hpos.ne', htg]
  dsimp only
  rw [hone, runGrid_one]
  exact ⟨_, rfl, (hkernel _ hsize).runGroup ((M.groups 0 .base).turns 0) rfl⟩

/-- The radices of a length that has them. -/
theorem exists_radices {n : ℕ} (hn : 0 < n) (hpow : n &&& (n - 1) ≠ 0)
    (hsmooth : ¬ (factorize n).isNone) : ∃ radices, factorize n = some radices ∧
      radices.prod = n ∧ ∀ r ∈ radices, realLiterals.Exact (rootOf n false ^ (n / r)) r := by
  obtain ⟨radices, hradices⟩ : ∃ radices, factorize n = some radices := by
    rcases h : factorize n with _ | radices
    · exact absurd (h ▸ rfl) hsmooth
    · exact ⟨radices, rfl⟩
  have hne : (n : ℤ) ≠ 1 := by
    intro h
    have hone : n = 1 := by exact_mod_cast h
    subst hone
    exact hpow rfl
  obtain ⟨hprod, hall⟩ := factorize_spec hradices hne
  rw [Int.toNat_natCast] at hprod
  refine ⟨radices, hradices, hprod, fun r hr => ?_⟩
  obtain ⟨hlo, hhi⟩ := hall r hr
  rw [rootOf_pow_div (hprod ▸ List.dvd_prod hr) hn]
  exact realLiterals_exact hlo hhi

/-- What a routine does at a length, given its four routes. -/
theorem routes {Out : Type*} {pow2 recursive chirp : Except FftError Out}
    {mixed : List ℕ → Except FftError Out} {n : ℕ} {Q : Out → Prop}
    (hpow2 : ∀ e, n = 2 ^ e → n ≤ fftBaseMax → ∃ out, pow2 = .ok out ∧ Q out)
    (hrecursive : ∀ e, n = 2 ^ e → n ≤ 2 ^ 30 → ∃ out, recursive = .ok out ∧ Q out)
    (hmixed : ∀ radices, radices.prod = n → n ≤ fftBaseMax →
      (∀ r ∈ radices, realLiterals.Exact (rootOf n false ^ (n / r)) r) →
      ∃ out, mixed radices = .ok out ∧ Q out)
    (hchirp : 2 ≤ n → (nextPow2 (2 * n - 1) ≤ 2 ^ 30 → ∃ out, chirp = .ok out ∧ Q out) ∧
      (¬ nextPow2 (2 * n - 1) ≤ 2 ^ 30 → chirp = .error (.unsupported n)))
    (hn : 0 < n) (result : Except FftError Out)
    (hresult : result =
      if n > fftBaseMax then
        if n &&& (n - 1) = 0 then
          if n > 2 ^ 30 then .error (.unsupported n) else recursive
        else chirp
      else if n &&& (n - 1) ≠ 0 ∧ (factorize n).isNone then chirp
      else if n &&& (n - 1) = 0 then pow2
      else ((factorize n).map mixed).getD (.error (.unsupported n))) :
    (Supported n → ∃ out, result = .ok out ∧ Q out) ∧
      (¬ Supported n → result = .error (.unsupported n)) := by
  subst hresult
  by_cases hpow : n &&& (n - 1) = 0
  · obtain ⟨e, he⟩ := (land_pred_eq_zero_iff hn).1 hpow
    have hsupported : Supported n ↔ n ≤ 2 ^ 30 := he ▸ supported_two_pow e
    by_cases hbig : n > fftBaseMax
    · rw [if_pos hbig, if_pos hpow]
      refine ⟨fun h => ?_, fun h => ?_⟩
      · rw [if_neg (Nat.not_lt.2 (hsupported.1 h))]
        exact hrecursive e he (hsupported.1 h)
      · rw [if_pos (Nat.not_le.1 fun hle => h (hsupported.2 hle))]
    · have hle : n ≤ fftBaseMax := Nat.not_lt.1 hbig
      rw [if_neg hbig, if_neg (fun h => h.1 hpow), if_pos hpow]
      exact ⟨fun _ => hpow2 e he hle, fun h =>
        absurd (hsupported.2 (hle.trans (by decide))) h⟩
  · have hnot : ¬ ∃ e, n = 2 ^ e := fun h => hpow ((land_pred_eq_zero_iff hn).2 h)
    have htwo : 2 ≤ n := by
      by_contra hlt
      obtain rfl : n = 1 := by omega
      exact hpow rfl
    have hsupported := supported_of_not_two_pow hn hnot
    have hroute : (Supported n → ∃ out, chirp = .ok out ∧ Q out) ∧
        (¬ Supported n → chirp = .error (.unsupported n)) := by
      rw [hsupported]
      exact hchirp htwo
    by_cases hbig : n > fftBaseMax
    · rw [if_pos hbig, if_neg hpow]
      exact hroute
    · rw [if_neg hbig]
      by_cases hsmooth : (factorize n).isNone
      · rw [if_pos ⟨hpow, hsmooth⟩]
        exact hroute
      · have hle : n ≤ fftBaseMax := Nat.not_lt.1 hbig
        obtain ⟨radices, hradices, hprod, hlit⟩ := exists_radices hn hpow hsmooth
        rw [if_neg fun h => hsmooth h.2, if_neg hpow, hradices]
        have hsmall : nextPow2 (2 * n - 1) ≤ 2 ^ 30 := (nextPow2_le_iff _).2 (by
          unfold fftBaseMax at hle
          omega)
        exact ⟨fun _ => hmixed radices hprod hle hlit, fun h => absurd (hsupported.2 hsmall) h⟩

theorem fftGpuBuf_natCast (input out : ℕ → Float2 ℝ) {n : ℕ} (hn : 0 < n) (inverse : Bool) :
    fftGpuBuf M Ms realLiterals realArith realChirp y₀ input out n inverse =
      if n > fftBaseMax then
        if n &&& (n - 1) = 0 then
          if n > 2 ^ 30 then .error (.unsupported n)
          else fftRecursiveFourstepBuf M realArith input n inverse
        else bluesteinBridge Ms realArith realChirp input out n inverse
      else if n &&& (n - 1) ≠ 0 ∧ (factorize n).isNone then
        bluesteinBridge Ms realArith realChirp input out n inverse
      else if n &&& (n - 1) = 0 then
        M.dispatch1dWithTg 0 .base (min n fftBaseMax) (min n fftBaseMax)
          (fftStockhamPow2F32 realArith input n inverse) out
      else ((factorize n).map fun radices =>
        M.dispatch1dWithTg 0 .base (min n fftBaseMax) (min n fftBaseMax)
          (fftMixedRadixF32 realLiterals realArith y₀ input n inverse radices) out).getD
          (.error (.unsupported n)) := by
  have hpos : ¬ (n : ℤ) ≤ 0 := by omega
  unfold fftGpuBuf
  rw [if_neg hpos]
  simp only [Int.toNat_natCast]
  rcases factorize n <;> rfl

theorem fftGpuPlanarCore_natCast (input out : Planes ℝ) {n : ℕ} (hn : 0 < n) (inverse : Bool) :
    fftGpuPlanarCore M Ms realLiterals realArith realChirp y₀ input out n inverse =
      if n > fftBaseMax then
        if n &&& (n - 1) = 0 then
          if n > 2 ^ 30 then .error (.unsupported n)
          else fftRecursiveFourstepPlanar M realArith input n inverse
        else bluesteinBridgePlanar Ms realArith realChirp input out n inverse
      else if n &&& (n - 1) ≠ 0 ∧ (factorize n).isNone then
        bluesteinBridgePlanar Ms realArith realChirp input out n inverse
      else if n &&& (n - 1) = 0 then
        M.dispatch1dWithTgPlanar 0 .base (min n fftBaseMax) (min n fftBaseMax)
          (fftStockhamPow2PlanarF32 realArith input n inverse) out
      else ((factorize n).map fun radices =>
        M.dispatch1dWithTgPlanar 0 .base (min n fftBaseMax) (min n fftBaseMax)
          (fftMixedRadixPlanarF32 realArith realLiterals y₀ input n inverse radices) out).getD
          (.error (.unsupported n)) := by
  have hpos : ¬ (n : ℤ) ≤ 0 := by omega
  unfold fftGpuPlanarCore
  rw [if_neg hpos]
  simp only [Int.toNat_natCast]
  rcases factorize n <;> rfl

variable (hM : fftBaseMax ≤ M.maxThreads) (hMs : ∀ i, fftBaseMax ≤ (Ms i).maxThreads)
include hM hMs

theorem fftGpuBuf_spectrum (input out : ℕ → Float2 ℝ) {n : ℕ} (hn : 0 < n) (inverse : Bool) :
    (Supported n → ∃ out', fftGpuBuf M Ms realLiterals realArith realChirp y₀ input out n inverse =
      .ok out' ∧ ∀ k < n, out' k = spectrum input n inverse k) ∧
    (¬ Supported n → fftGpuBuf M Ms realLiterals realArith realChirp y₀ input out n inverse =
      .error (.unsupported n)) := by
  refine routes (fun e he hle => ?_) (fun e he hle => ?_) (fun radices hprod hle hlit => ?_)
    (fun htwo => ?_) hn _ (fftGpuBuf_natCast input out hn inverse)
  · subst he
    rw [Nat.min_eq_left hle]
    refine dispatch_one_group hn (hle.trans hM) _ out fun size hsize => ?_
    have hspec := fftStockhamPow2F32_dft (x := input) (g := 0) hsize
      (realArith_exact hn inverse) (rootOf_isPow2Root e inverse) out
    intro turns s hcomplete hs k hk
    rw [(hspec turns s hcomplete hs).1 k hk, dftReference_eq_spectrum]
  · subst he
    obtain ⟨out', hok, hout⟩ := fftRecursiveFourstepBuf_dft hM (realArith_exact hn false)
      (rootOf_isPow2Root e false) hle (rootOf_conj _) input inverse
    exact ⟨out', hok, fun k hk => (hout k hk).trans (dftReference_eq_spectrum ..)⟩
  · rw [Nat.min_eq_left hle]
    refine dispatch_one_group hn (hle.trans hM) _ out fun size hsize => ?_
    have hspec := @fftMixedRadixF32_dft ℝ _ realLiterals realArith y₀ input (rootOf n) inverse n 0 size
      radices hsize hprod hn (rootOf_pow_eq_one hn false) (rootOf_conj n) (rootOf_back n)
      (realArith_exact hn false) hlit out
    intro turns s hcomplete hs k hk
    rw [(hspec turns s hcomplete hs).1 k hk, dftReference_eq_spectrum]
  · obtain ⟨hok, herror⟩ := bluesteinDispatch_spectrum hMs htwo input inverse
    unfold bluesteinBridge
    refine ⟨fun hcap => ?_, fun hcap => by rw [herror hcap]; rfl⟩
    obtain ⟨result, hresult, hout⟩ := hok hcap
    refine ⟨_, bind_eq_ok.2 ⟨result, hresult, rfl⟩, fun k hk => ?_⟩
    exact (if_pos hk).trans (hout k hk)

theorem fftGpuPlanarCore_spectrum (input out : Planes ℝ) {n : ℕ} (hn : 0 < n) (inverse : Bool) :
    (Supported n →
      ∃ out', fftGpuPlanarCore M Ms realLiterals realArith realChirp y₀ input out n inverse =
        .ok out' ∧ ∀ k < n, out'.point k = spectrum input.point n inverse k) ∧
    (¬ Supported n → fftGpuPlanarCore M Ms realLiterals realArith realChirp y₀ input out n inverse =
      .error (.unsupported n)) := by
  have hstar : (if inverse then star (rootOf n false) else rootOf n false) = rootOf n inverse := by
    cases inverse with
    | false => rfl
    | true => exact rootOf_conj n
  refine routes (fun e he hle => ?_) (fun e he hle => ?_) (fun radices hprod hle hlit => ?_)
    (fun htwo => ?_) hn _ (fftGpuPlanarCore_natCast input out hn inverse)
  · subst he
    rw [Nat.min_eq_left hle]
    exact dispatchPlanar_one_group hn (hle.trans hM) _ out fun size hsize =>
      fftStockhamPow2PlanarF32_dft hsize (realArith_exact hn inverse) (rootOf_isPow2Root e inverse) out
  · subst he
    obtain ⟨out', hok, hout⟩ := fftRecursiveFourstepPlanar_dft hM (realArith_exact hn false)
      (rootOf_isPow2Root e false) hle input inverse
    refine ⟨out', hok, fun k hk => ?_⟩
    rw [hout k hk, hstar]
    rfl
  · rw [Nat.min_eq_left hle]
    have hspec := fun size (hsize : 0 < size) => @fftMixedRadixPlanarF32_dft ℝ _ realArith _
      realLiterals y₀ input inverse n 0 size radices hsize hprod hn (rootOf_pow_eq_one hn false)
      (star_mul_rootOf n false) (realArith_exact hn false) hlit out
    rw [hstar] at hspec
    exact dispatchPlanar_one_group hn (hle.trans hM) _ out hspec
  · obtain ⟨hok, herror⟩ := bluesteinDispatch_spectrum hMs htwo
      (fun i => if i < n then input.point i else 0) inverse
    unfold bluesteinBridgePlanar
    dsimp only
    rw [Int.toNat_natCast]
    refine ⟨fun hcap => ?_, fun hcap => by rw [herror hcap]; rfl⟩
    obtain ⟨result, hresult, hout⟩ := hok hcap
    refine ⟨_, bind_eq_ok.2 ⟨result, hresult, rfl⟩, fun k hk => ?_⟩
    have hpoint : result k = spectrum input.point n inverse k :=
      (hout k hk).trans (spectrum_congr (fun i hi => if_pos hi) inverse k)
    refine Eq.trans (Float2.ext ?_ ?_) hpoint
    · exact if_pos hk
    · exact if_pos hk

theorem fftGpuPlanarCore_int (input out : Planes ℝ) (n : ℤ) (inverse : Bool) :
    (Supported n →
      ∃ out', fftGpuPlanarCore M Ms realLiterals realArith realChirp y₀ input out n inverse =
        .ok out' ∧ ∀ k < n.toNat, out'.point k = spectrum input.point n.toNat inverse k) ∧
    (¬ Supported n → fftGpuPlanarCore M Ms realLiterals realArith realChirp y₀ input out n inverse =
      .error (.unsupported n)) := by
  by_cases hn : n ≤ 0
  · refine ⟨fun h => absurd h.1 (Int.not_lt.2 hn), fun _ => ?_⟩
    unfold fftGpuPlanarCore
    rw [if_pos hn]
  · obtain ⟨len, rfl⟩ := Int.eq_ofNat_of_zero_le (show 0 ≤ n by omega)
    exact fftGpuPlanarCore_spectrum hM hMs input out (by omega) inverse

theorem fftGpuBuf_int (input out : ℕ → Float2 ℝ) (n : ℤ) (inverse : Bool) :
    (Supported n → ∃ out', fftGpuBuf M Ms realLiterals realArith realChirp y₀ input out n inverse =
      .ok out' ∧ ∀ k < n.toNat, out' k = spectrum input n.toNat inverse k) ∧
    (¬ Supported n → fftGpuBuf M Ms realLiterals realArith realChirp y₀ input out n inverse =
      .error (.unsupported n)) := by
  by_cases hn : n ≤ 0
  · refine ⟨fun h => absurd h.1 (Int.not_lt.2 hn), fun _ => ?_⟩
    unfold fftGpuBuf
    rw [if_pos hn]
  · obtain ⟨len, rfl⟩ := Int.eq_ofNat_of_zero_le (show 0 ≤ n by omega)
    exact fftGpuBuf_spectrum hM hMs input out (by omega) inverse

end Cores

/-- Without rounding, the planar routine computes the transform of every length that has a route,
whatever turns groups and threads take and whatever memory held; the other lengths it refuses. -/
theorem fftGpuPlanarCore_fourier {M : Machine (Float2 ℝ)} {Ms : ℕ → Machine (Float2 ℝ)}
    {y₀ : ℕ → Float2 ℝ} (hM : fftBaseMax ≤ M.maxThreads) (hMs : ∀ i, fftBaseMax ≤ (Ms i).maxThreads)
    (input out : Planes ℝ) (n : ℤ) (inverse : Bool) :
    (Supported n →
      ∃ out', fftGpuPlanarCore M Ms realLiterals realArith realChirp y₀ input out n inverse =
        .ok out' ∧ ∀ k < n.toNat, toComplex (out'.point k) =
          fourier (fun t => toComplex (input.point t)) n.toNat inverse k) ∧
    (¬ Supported n → fftGpuPlanarCore M Ms realLiterals realArith realChirp y₀ input out n inverse =
      .error (.unsupported n)) := by
  obtain ⟨hok, herror⟩ := @fftGpuPlanarCore_int M Ms y₀ hM hMs input out n inverse
  refine ⟨fun h => ?_, herror⟩
  obtain ⟨out', hout', hpoint⟩ := hok h
  exact ⟨out', hout', fun k hk => by rw [hpoint k hk, toComplex_spectrum]⟩

theorem fftGpuPlanarCore_fourier_twelve :
    ∃ out', fftGpuPlanarCore (oneByOne 1024) (fun _ => oneByOne 1024) realLiterals realArith realChirp
        (fun _ => 0) ⟨fun i => i, fun _ => 1⟩ ⟨fun _ => 0, fun _ => 0⟩ 12 true = .ok out' ∧
      ∀ k < 12, toComplex (out'.point k) = fourier (fun t => toComplex ⟨t, 1⟩) 12 true k :=
  (@fftGpuPlanarCore_fourier (oneByOne 1024) (fun _ => oneByOne 1024) (fun _ => 0) (by decide)
    (fun _ => by decide) ⟨fun i => i, fun _ => 1⟩ ⟨fun _ => 0, fun _ => 0⟩ 12 true).1
    ⟨by decide, .inl (by decide)⟩

/-- The planar and the interleaved routine, on machines of their own, return the same points or
refuse the same lengths. -/
theorem fftGpuPlanarCore_agrees {M M' : Machine (Float2 ℝ)} {Ms Ms' : ℕ → Machine (Float2 ℝ)}
    {y₀ y₀' : ℕ → Float2 ℝ} (hM : fftBaseMax ≤ M.maxThreads)
    (hMs : ∀ i, fftBaseMax ≤ (Ms i).maxThreads) (hM' : fftBaseMax ≤ M'.maxThreads)
    (hMs' : ∀ i, fftBaseMax ≤ (Ms' i).maxThreads) (input out : Planes ℝ)
    (input' out' : ℕ → Float2 ℝ) (n : ℤ) (inverse : Bool)
    (hinput : ∀ i < n.toNat, input' i = input.point i) :
    (fftGpuPlanarCore M Ms realLiterals realArith realChirp y₀ input out n inverse).map
        (fun p => (List.range n.toNat).map p.point) =
      (fftGpuBuf M' Ms' realLiterals realArith realChirp y₀' input' out' n inverse).map
        (fun q => (List.range n.toNat).map q) := by
  obtain ⟨hok, herror⟩ := @fftGpuPlanarCore_int M Ms y₀ hM hMs input out n inverse
  obtain ⟨hok', herror'⟩ := @fftGpuBuf_int M' Ms' y₀' hM' hMs' input' out' n inverse
  by_cases h : Supported n
  · obtain ⟨p, hp, hpoint⟩ := hok h
    obtain ⟨q, hq, hpoint'⟩ := hok' h
    rw [hp, hq]
    refine congrArg Except.ok (List.map_congr_left fun k hk => ?_)
    have hk := List.mem_range.1 hk
    rw [hpoint k hk, hpoint' k hk]
    exact (spectrum_congr hinput inverse k).symm
  · rw [herror h, herror' h]
    rfl

theorem fftGpuPlanarCore_agrees_eleven :
    (fftGpuPlanarCore (oneByOne 1024) (fun _ => oneByOne 1024) realLiterals realArith realChirp
        (fun _ => 0) ⟨fun i => i, fun _ => 1⟩ ⟨fun _ => 0, fun _ => 0⟩ 11 false).map
        (fun p => (List.range 11).map p.point) =
      (fftGpuBuf (oneByOne 2048) (fun _ => oneByOne 1024) realLiterals realArith realChirp
        (fun _ => 1) (fun i => ⟨i, 1⟩) (fun _ => 1) 11 false).map (fun q => (List.range 11).map q) :=
  @fftGpuPlanarCore_agrees (oneByOne 1024) (oneByOne 2048) (fun _ => oneByOne 1024)
    (fun _ => oneByOne 1024) (fun _ => 0) (fun _ => 1) (by decide) (fun _ => by decide) (by decide)
    (fun _ => by decide) ⟨fun i => i, fun _ => 1⟩ ⟨fun _ => 0, fun _ => 0⟩ (fun i => ⟨i, 1⟩)
    (fun _ => 1) 11 false (fun _ _ => rfl)

end

end PolarsMetal.Fft
