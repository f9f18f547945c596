import PolarsMetal.Fft.FourStepSpec
import PolarsMetal.Fft.Radix
import Mathlib.Analysis.SpecialFunctions.Trigonometric.Basic
import Mathlib.Data.Nat.Size

/-! The transform of any length as a convolution with a chirp, by transforms of a power of two at
least twice as long. -/

namespace PolarsMetal.Fft
open Interleave Barriers Dft Fallible

variable {K : Type*} [CommRing K] [StarRing K]

/-- `fft_gpu` at a power of two: one threadgroup, or four steps. -/
def fftGpuPow2 (M : Machine K) (A : Arith K) (input : ℕ → K) (n : ℕ) (inverse : Bool) :
    Except FftError (ℕ → K) :=
  if n > fftBaseMax then
    if n > 2 ^ 30 then .error (.unsupported n) else fftRecursiveFourstepBuf M A input n inverse
  else
    let tg := min n fftBaseMax
    M.dispatch1dWithTg 0 .base tg tg (fftStockhamPow2F32 A input n inverse) fun _ => 0

/-- `leading_zeros` of a 64-bit word. -/
def leadingZeros (x : ℕ) : ℕ := 64 - x.size

def nextPow2 (x : ℕ) : ℕ := if x ≤ 1 then 1 else 1 <<< (64 - leadingZeros (x - 1))

section Driver

-- `M` is the machine in each of the three transforms; `chirp m n` stands for `e^(-πi m / n)`
variable (M : ℕ → Machine K) (A : Arith K) (chirp : ℕ → ℕ → K)

/-- The filter, with the negative lags at the top. -/
def filter (n m : ℕ) (b : ℕ → K) : ℕ → K :=
  (List.range' 1 (n - 1)).foldl
    (fun h mi => Function.update (Function.update h mi (star (b mi))) (m - mi) (star (b mi)))
    (Function.update (fun _ => 0) 0 (star (b 0)))

def bluestein (input : ℕ → K) (n : ℕ) : Except FftError (ℕ → K) := do
  let m := nextPow2 (2 * n - 1)
  let twoN := 2 * n
  let b := fun mi => chirp (mi * mi % twoN) n
  let a := fun i => if i < n then input i * b i else 0
  let h := filter n m b
  let fa ← fftGpuPow2 (M 0) A a m false
  let fh ← fftGpuPow2 (M 1) A h m false
  let c := fun i => fa i * fh i
  let conv ← fftGpuPow2 (M 2) A c m true
  .ok fun k => b k * conv k

def bluesteinDispatch (input : ℕ → K) (n : ℤ) (inverse : Bool) : Except FftError (ℕ → K) :=
  if n < 2 then .error (.unsupported n)
  else
    let m := nextPow2 (2 * n.toNat - 1)
    if m > 2 ^ 30 then .error (.unsupported n)
    else if ¬ inverse then bluestein M A chirp input n.toNat
    else do
      let out ← bluestein M A chirp (fun i => star (input i)) n.toNat
      .ok fun k => star (out k) * A.recip n.toNat

end Driver

/-! The lengths. -/

theorem exists_nextPow2 (x : ℕ) : ∃ e, nextPow2 x = 2 ^ e := by
  unfold nextPow2
  split_ifs with h
  · exact ⟨0, rfl⟩
  · exact ⟨_, Nat.one_shiftLeft _⟩

theorem le_nextPow2 {x : ℕ} (hcap : nextPow2 x ≤ 2 ^ 30) : x ≤ nextPow2 x := by
  unfold nextPow2 leadingZeros at hcap ⊢
  split_ifs at hcap ⊢ with h
  · exact h
  · rw [Nat.one_shiftLeft] at hcap ⊢
    have hlog := (Nat.pow_le_pow_iff_right (a := 2) (by omega)).1 hcap
    have hsize : (x - 1).size ≤ 64 := by omega
    have hlt := Nat.lt_size_self (x - 1)
    rw [Nat.sub_sub_self hsize]
    omega

/-! The filter. -/

omit [CommRing K] [StarRing K] in
/-- What the writes of the two halves leave, when they do not meet. -/
theorem foldl_halves {n m : ℕ} (hm : 2 * n - 1 ≤ m) (v : ℕ → K) (h : ℕ → K) {len : ℕ}
    (hlen : len < n) (i : ℕ) :
    ((List.range' 1 len).foldl
      (fun h mi => Function.update (Function.update h mi (v mi)) (m - mi) (v mi)) h) i =
      if 1 ≤ i ∧ i ≤ len then v i else if m - len ≤ i ∧ i < m then v (m - i) else h i := by
  induction len with
  | zero =>
    rw [if_neg (by omega), if_neg (by omega)]
    rfl
  | succ len ih =>
    rw [List.range'_concat, List.foldl_concat, Nat.one_mul]
    have hprev := ih (by omega)
    by_cases htop : i = m - (1 + len)
    · subst htop
      rw [Function.update_self, if_neg (by omega), if_pos (by omega)]
      congr 1
      omega
    · rw [Function.update_of_ne htop]
      by_cases hlow : i = 1 + len
      · subst hlow
        rw [Function.update_self, if_pos (by omega)]
      · rw [Function.update_of_ne hlow, hprev]
        have hfirst : (1 ≤ i ∧ i ≤ len) ↔ 1 ≤ i ∧ i ≤ len + 1 := by omega
        have hsecond : (m - len ≤ i ∧ i < m) ↔ m - (len + 1) ≤ i ∧ i < m := by omega
        rw [if_congr hfirst rfl (if_congr hsecond rfl rfl)]

theorem filter_eq {n m : ℕ} (hn : 0 < n) (hm : 2 * n - 1 ≤ m) (b : ℕ → K) {i : ℕ} (hi : i < m) :
    filter n m b i =
      if i < n then star (b i) else if m - n < i then star (b (m - i)) else 0 := by
  unfold filter
  rw [foldl_halves hm (fun i => star (b i)) _ (show n - 1 < n by omega)]
  by_cases hzero : i = 0
  · subst hzero
    rw [if_neg (by omega), if_neg (by omega), Function.update_self, if_pos hn]
  · by_cases hlow : i < n
    · rw [if_pos (by omega), if_pos hlow]
    · rw [if_neg (by omega), if_neg hlow]
      by_cases htop : m - n < i
      · rw [if_pos (by omega), if_pos htop]
      · rw [if_neg (by omega), if_neg htop, Function.update_of_ne hzero]

/-! The transforms of a power of two. -/

section Spec

variable {A : Arith K} {root : Bool → K} {e : ℕ}

/-- What the transforms of `2 ^ e` points rest on: exact twiddles in both directions, with roots
that are each other's conjugate and inverse. -/
structure ExactFft (A : Arith K) (root : Bool → K) (e : ℕ) : Prop where
  exact : ∀ inverse, A.Exact inverse (root inverse) (2 ^ e)
  isRoot : IsPow2Root (root false) e
  conj : star (root false) = root true
  back : root false * root true = 1

theorem ExactFft.isRoot_inverse (h : ExactFft A root e) : IsPow2Root (root true) e := by
  rw [← h.conj]
  cases e with
  | zero =>
    have hone : root false = 1 := h.isRoot
    show star (root false) = 1
    rw [hone, star_one]
  | succ e =>
    have hhalf : root false ^ 2 ^ e = -1 := h.isRoot
    show star (root false) ^ 2 ^ e = -1
    rw [← star_pow, hhalf, star_neg, star_one]

theorem fftGpuPow2_dft {M : Machine K} (hmax : fftBaseMax ≤ M.maxThreads) (h : ExactFft A root e)
    (hcap : 2 ^ e ≤ 2 ^ 30) (input : ℕ → K) (inverse : Bool) :
    ∃ out, fftGpuPow2 M A input (2 ^ e) inverse = .ok out ∧
      ∀ k < 2 ^ e, out k = dftReference root A.recip input (2 ^ e) inverse k := by
  unfold fftGpuPow2
  by_cases hbig : 2 ^ e > fftBaseMax
  · rw [if_pos hbig, if_neg (Nat.not_lt.2 hcap)]
    exact fftRecursiveFourstepBuf_dft hmax (h.exact false) h.isRoot hcap h.conj input inverse
  · have hsmall : 2 ^ e ≤ fftBaseMax := Nat.not_lt.1 hbig
    have hpos := Nat.two_pow_pos e
    have hroot : IsPow2Root (root inverse) e := by
      cases inverse with
      | false => exact h.isRoot
      | true => exact h.isRoot_inverse
    rw [if_neg hbig]
    dsimp only
    rw [Nat.min_eq_left hsmall]
    unfold Machine.dispatch1dWithTg
    rw [if_neg hpos.ne']
    refine ⟨_, rfl, ?_⟩
    have htg : max (min (2 ^ e) M.maxThreads) 1 = 2 ^ e := by omega
    have hone : (2 ^ e + 2 ^ e - 1) / 2 ^ e = 1 := by
      rw [Nat.add_sub_assoc hpos]
      exact Nat.div_eq_of_lt_le (by omega) (by omega)
    rw [htg]
    dsimp only
    rw [hone, runGrid_one]
    have hsize : 0 < min (2 ^ e) (2 ^ e - 0 * 2 ^ e) := by omega
    exact ((fftStockhamPow2F32_dft (g := 0) hsize (h.exact inverse) hroot fun _ => 0).runGroup
      ((M.groups 0 .base).turns 0) rfl).1

/-! The convolution. -/

/-- The circular convolution with the filter does not wrap around below `n`: it is the convolution
with the chirp's conjugate at the distance. -/
theorem circ_filter {n m : ℕ} (hm : 2 * n - 1 ≤ m) (a b : ℕ → K) (ha : ∀ j, n ≤ j → a j = 0)
    {k : ℕ} (hk : k < n) : circ m a (filter n m b) k =
      ∑ j ∈ Finset.range n, a j * star (b (max j k - min j k)) := by
  have hn : 0 < n := by omega
  have hzero : ∀ j ∈ Finset.range m, j ∉ Finset.range n →
      a j * filter n m b ((k + (m - j)) % m) = 0 := by
    intro j _ hj
    rw [ha j (by simpa using hj), zero_mul]
  have hsub : Finset.range n ⊆ Finset.range m := Finset.range_subset_range.2 (by omega)
  unfold circ
  rw [← Finset.sum_subset hsub hzero]
  refine Finset.sum_congr rfl fun j hj => ?_
  have hj := Finset.mem_range.1 hj
  congr 1
  by_cases hle : j ≤ k
  · have hlag : (k + (m - j)) % m = k - j := by
      rw [show k + (m - j) = k - j + m by omega, Nat.add_mod_right, Nat.mod_eq_of_lt (by omega)]
    rw [hlag, filter_eq hn hm b (by omega), if_pos (by omega), Nat.max_eq_right hle,
      Nat.min_eq_left hle]
  · have hlag : (k + (m - j)) % m = m - (j - k) := by
      rw [Nat.mod_eq_of_lt (by omega)]
      omega
    rw [hlag, filter_eq hn hm b (by omega), if_neg (by omega), if_pos (by omega),
      Nat.max_eq_left (by omega), Nat.min_eq_right (by omega)]
    congr 2
    omega

omit [StarRing K] in
/-- `(k ^ 2 + j ^ 2 - (k - j) ^ 2) / 2 = j * k`, with the squares taken modulo `2 * n`. -/
theorem chirp_mul_chirp {ζ ζ' : K} {n : ℕ} (hζ : ζ ^ (2 * n) = 1) (hback : ζ' * ζ = 1) (j k : ℕ) :
    ζ ^ (k * k % (2 * n)) * (ζ ^ (j * j % (2 * n)) *
        ζ' ^ ((max j k - min j k) * (max j k - min j k) % (2 * n))) = (ζ ^ 2) ^ (j * k) := by
  have hred : ∀ {z : K} (e : ℕ), z ^ (2 * n) = 1 → z ^ (e % (2 * n)) = z ^ e := by
    intro z e hz
    calc z ^ (e % (2 * n)) = z ^ (e % (2 * n)) * (z ^ (2 * n)) ^ (e / (2 * n)) := by
          rw [hz, one_pow, mul_one]
      _ = z ^ e := by rw [← pow_mul, ← pow_add, Nat.mod_add_div]
  have hζ' : ζ' ^ (2 * n) = 1 := by
    calc ζ' ^ (2 * n) = ζ' ^ (2 * n) * ζ ^ (2 * n) := by rw [hζ, mul_one]
      _ = 1 := by rw [← mul_pow, hback, one_pow]
  obtain ⟨d, hd⟩ : ∃ d, d = max j k - min j k := ⟨_, rfl⟩
  have hsq : k * k + j * j = d * d + 2 * (j * k) := by
    rcases Nat.le_total j k with hle | hle
    · obtain ⟨c, rfl⟩ := Nat.exists_eq_add_of_le hle
      rw [Nat.max_eq_right hle, Nat.min_eq_left hle, Nat.add_sub_cancel_left] at hd
      subst hd
      ring
    · obtain ⟨c, rfl⟩ := Nat.exists_eq_add_of_le hle
      rw [Nat.max_eq_left hle, Nat.min_eq_right hle, Nat.add_sub_cancel_left] at hd
      subst hd
      ring
  rw [← hd, hred _ hζ, hred _ hζ, hred _ hζ']
  calc ζ ^ (k * k) * (ζ ^ (j * j) * ζ' ^ (d * d))
      = ζ ^ (k * k + j * j) * ζ' ^ (d * d) := by rw [pow_add, mul_assoc]
    _ = (ζ' * ζ) ^ (d * d) * ζ ^ (2 * (j * k)) := by rw [hsq, pow_add, mul_pow]; ring
    _ = (ζ ^ 2) ^ (j * k) := by rw [hback, one_pow, one_mul, pow_mul]

/-- The forward transform. -/
theorem bluestein_forward {M : ℕ → Machine K} {chirp : ℕ → ℕ → K} {n : ℕ} {ζ : K}
    (hmax : ∀ i, fftBaseMax ≤ (M i).maxThreads) (hn : 2 ≤ n) (hζ : ζ ^ (2 * n) = 1)
    (hunit : star ζ * ζ = 1) (hchirp : ∀ m < 2 * n, chirp m n = ζ ^ m)
    (he : nextPow2 (2 * n - 1) = 2 ^ e) (h : ExactFft A root e)
    (hrecip : ((2 ^ e : ℕ) : K) * A.recip (2 ^ e) = 1) (hcap : 2 ^ e ≤ 2 ^ 30) (input : ℕ → K) :
    ∃ out, bluestein M A chirp input n = .ok out ∧ ∀ k < n, out k = dft (ζ ^ 2) n input k := by
  have hm : 2 * n - 1 ≤ 2 ^ e := he ▸ le_nextPow2 (he.symm ▸ hcap)
  let b := fun mi => chirp (mi * mi % (2 * n)) n
  have hb : ∀ mi, b mi = ζ ^ (mi * mi % (2 * n)) := fun mi =>
    hchirp _ (Nat.mod_lt _ (by omega))
  obtain ⟨fa, hfa, hA⟩ := fftGpuPow2_dft (hmax 0) h hcap
    (fun i => if i < n then input i * b i else 0) false
  obtain ⟨fh, hfh, hH⟩ := fftGpuPow2_dft (hmax 1) h hcap (filter n (2 ^ e) b) false
  obtain ⟨conv, hconv, hC⟩ := fftGpuPow2_dft (hmax 2) h hcap (fun i => fa i * fh i) true
  refine ⟨fun k => b k * conv k, ?_, fun k hk => ?_⟩
  · unfold bluestein
    dsimp only
    rw [he]
    exact bind_eq_ok.2 ⟨fa, hfa, bind_eq_ok.2 ⟨fh, hfh, bind_eq_ok.2 ⟨conv, hconv, rfl⟩⟩⟩
  · have hforward : ∀ {f x : ℕ → K}, (∀ i < 2 ^ e, f i = dftReference root A.recip x (2 ^ e) false i) →
        ∀ i < 2 ^ e, f i = dft (root false) (2 ^ e) x i := by
      intro f x hf i hi
      rw [hf i hi, dftReference_eq, if_neg Bool.false_ne_true, mul_one]
    have hk' : k < 2 ^ e := by omega
    have hlin : conv k = ∑ j ∈ Finset.range n, input j * b j * star (b (max j k - min j k)) := by
      calc conv k = dft (root true) (2 ^ e) (fun i => fa i * fh i) k * A.recip (2 ^ e) := by
            rw [hC k hk', dftReference_eq, if_pos rfl]
        _ = dft (root true) (2 ^ e) (fun i =>
              dft (root false) (2 ^ e) (fun i => if i < n then input i * b i else 0) i *
                dft (root false) (2 ^ e) (filter n (2 ^ e) b) i) k * A.recip (2 ^ e) := by
            rw [dft_congr (fun i hi => by rw [hforward hA i hi, hforward hH i hi]) k]
        _ = circ (2 ^ e) (fun i => if i < n then input i * b i else 0) (filter n (2 ^ e) b) k := by
            rw [dft_mul_dft h.isRoot.principal h.back _ _ hk', mul_right_comm, hrecip, one_mul]
        _ = _ := by
            rw [circ_filter hm _ b (fun j hj => if_neg (by omega)) hk]
            exact Finset.sum_congr rfl fun j hj => by rw [if_pos (Finset.mem_range.1 hj)]
    show b k * conv k = _
    rw [hlin, Finset.mul_sum]
    refine Finset.sum_congr rfl fun j _ => ?_
    rw [hb, hb, hb, star_pow, ← chirp_mul_chirp hζ hunit j k]
    ring

/-- For every length whose transforms are short enough for the kernels' indices, the routine returns
the transform, in either direction, and the filter's two halves do not overwrite each other; a
longer one it refuses. -/
theorem bluesteinDispatch_dft {M : ℕ → Machine K} {chirp : ℕ → ℕ → K} {n : ℕ} {ζ : K}
    (hmax : ∀ i, fftBaseMax ≤ (M i).maxThreads) (hn : 2 ≤ n) (hζ : ζ ^ (2 * n) = 1)
    (hunit : star ζ * ζ = 1) (hchirp : ∀ m < 2 * n, chirp m n = ζ ^ m)
    (he : nextPow2 (2 * n - 1) = 2 ^ e) (h : ExactFft A root e)
    (hrecip : ((2 ^ e : ℕ) : K) * A.recip (2 ^ e) = 1) (input : ℕ → K) (inverse : Bool) :
    (2 ^ e ≤ 2 ^ 30 →
      (∀ (b : ℕ → K), ∀ mi < n, filter n (2 ^ e) b mi = star (b mi) ∧
        (0 < mi → filter n (2 ^ e) b (2 ^ e - mi) = star (b mi))) ∧
      ∃ out, bluesteinDispatch M A chirp input n inverse = .ok out ∧ ∀ k < n, out k =
        dftReference (fun inverse => if inverse then star ζ ^ 2 else ζ ^ 2) A.recip input n inverse k) ∧
    (¬ 2 ^ e ≤ 2 ^ 30 → bluesteinDispatch M A chirp input n inverse = .error (.unsupported n)) := by
  have hnot : ¬ (n : ℤ) < 2 := by omega
  have hroute : bluesteinDispatch M A chirp input n inverse =
      if 2 ^ e > 2 ^ 30 then .error (.unsupported n)
      else if ¬ inverse then bluestein M A chirp input n
      else bluestein M A chirp (fun i => star (input i)) n >>= fun out =>
        .ok fun k => star (out k) * A.recip n := by
    unfold bluesteinDispatch
    rw [if_neg hnot, Int.toNat_natCast, he]
  refine ⟨fun hcap => ⟨fun b mi hmi => ?_, ?_⟩, fun hcap => ?_⟩
  · have hm : 2 * n - 1 ≤ 2 ^ e := he ▸ le_nextPow2 (he.symm ▸ hcap)
    refine ⟨?_, fun hpos => ?_⟩
    · rw [filter_eq (by omega) hm b (by omega), if_pos hmi]
    · rw [filter_eq (by omega) hm b (by omega), if_neg (by omega), if_pos (by omega)]
      congr 2
      omega
  · rw [hroute, if_neg (Nat.not_lt.2 hcap)]
    cases inverse with
    | false =>
      obtain ⟨out, hok, hout⟩ :=
        bluestein_forward hmax hn hζ hunit hchirp he h hrecip hcap input
      refine ⟨out, by rw [if_pos Bool.false_ne_true, hok], fun k hk => ?_⟩
      rw [hout k hk, dftReference_eq, if_neg Bool.false_ne_true, if_neg Bool.false_ne_true, mul_one]
    | true =>
      obtain ⟨out, hok, hout⟩ :=
        bluestein_forward hmax hn hζ hunit hchirp he h hrecip hcap fun i => star (input i)
      refine ⟨_, by rw [if_neg (by simp)]; exact bind_eq_ok.2 ⟨out, hok, rfl⟩, fun k hk => ?_⟩
      have hmap := map_dft (starRingEnd K) (ζ ^ 2) n (fun i => star (input i)) k
      simp only [starRingEnd_apply, star_star, star_pow] at hmap
      rw [hout k hk, hmap, dftReference_eq, if_pos rfl, if_pos rfl]
  · rw [hroute, if_pos (Nat.not_le.1 hcap)]

end Spec

/-- Complex numbers modulo 5, where four has the reciprocal four. -/
def arith5 : Arith (Float2 (ZMod 5)) where
  twiddle k p inverse := (if inverse then ⟨0, 1⟩ else ⟨0, -1⟩) ^ (k * (4 / p))
  recip _ := ⟨4, 0⟩

/-- Two points, by transforms of four. -/
theorem bluesteinDispatch_dft_two :
    ((4 : ℕ) ≤ 2 ^ 30 →
      (∀ (b : ℕ → Float2 (ZMod 5)), ∀ mi < 2, filter 2 4 b mi = star (b mi) ∧
        (0 < mi → filter 2 4 b (4 - mi) = star (b mi))) ∧
      ∃ out, bluesteinDispatch (fun _ => oneByOne 1024) arith5 (fun m _ => ⟨0, -1⟩ ^ m)
          (fun i => ⟨i, 1⟩) 2 false = .ok out ∧ ∀ k < 2, out k =
        dftReference (fun inverse => if inverse then star ⟨0, -1⟩ ^ 2 else ⟨0, -1⟩ ^ 2) arith5.recip
          (fun i => ⟨i, 1⟩) 2 false k) ∧
    (¬ (4 : ℕ) ≤ 2 ^ 30 → bluesteinDispatch (fun _ => oneByOne 1024) arith5 (fun m _ => ⟨0, -1⟩ ^ m)
      (fun i => ⟨i, 1⟩) 2 false = .error (.unsupported 2)) :=
  @bluesteinDispatch_dft (Float2 (ZMod 5)) _ _ arith5 (fun inverse => if inverse then ⟨0, 1⟩
    else ⟨0, -1⟩) 2 (fun _ => oneByOne 1024) (fun m _ => ⟨0, -1⟩ ^ m) 2 ⟨0, -1⟩ (fun _ => by decide)
    (by decide) (by decide) (by decide) (fun _ _ => rfl) (by decide)
    ⟨fun _ _ _ _ => rfl, by decide, by decide, by decide⟩ (by decide) (fun i => ⟨i, 1⟩) false

/-- With `2 ^ 29 + 1` points the transforms would have `2 ^ 31`. -/
theorem bluesteinDispatch_refuses :
    bluesteinDispatch (fun _ => oneByOne 1024)
        (⟨fun k p inverse => Complex.exp ((if inverse then 2 else -2) * Real.pi * Complex.I * k / p),
          fun n => 1 / n⟩ : Arith ℂ) (fun m n => Complex.exp (-Real.pi * Complex.I * m / n))
        (fun _ => 1) (2 ^ 29 + 1) false = .error (.unsupported (2 ^ 29 + 1)) ∧
      (2 : ℤ) ≤ 2 ^ 29 + 1 := by
  refine ⟨?_, by decide⟩
  unfold bluesteinDispatch
  rw [if_neg (by decide), if_pos]
  unfold nextPow2 leadingZeros
  rw [if_neg (by decide)]
  decide

end PolarsMetal.Fft
