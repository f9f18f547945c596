import PolarsMetal.Fft.Radix
import PolarsMetal.Fft.StockhamSpec

/-! The mixed-radix Stockham kernel and the factorization that drives it. -/

namespace PolarsMetal.Fft
open Interleave Barriers Dft

/-- `while rem % r == 0` -/
def peel (r rem : ℕ) : List ℕ × ℕ :=
  if 1 < r ∧ 0 < rem ∧ rem % r = 0 then
    let rest := peel r (rem / r)
    (r :: rest.1, rest.2)
  else ([], rem)
termination_by rem
decreasing_by exact Nat.div_lt_self (by omega) (by omega)

def factorize (n : ℤ) : Option (List ℕ) :=
  if n ≤ 0 then none
  else if n = 1 then some [1]
  else
    let (out, rem) := [8, 7, 6, 5, 4, 3, 2].foldl (fun (out, rem) r =>
      let peeled := peel r rem
      (out ++ peeled.1, peeled.2)) (([] : List ℕ), n.toNat)
    if rem ≠ 1 then none else some out

theorem peel_spec (r rem : ℕ) : (peel r rem).1.prod * (peel r rem).2 = rem ∧
    ∀ s ∈ (peel r rem).1, s = r := by
  fun_induction peel r rem with
  | case1 rem h rest ih =>
    obtain ⟨hprod, hall⟩ := ih
    refine ⟨?_, fun s hs => (List.mem_cons.1 hs).elim id (hall s)⟩
    rw [List.prod_cons, Nat.mul_assoc, hprod]
    exact Nat.mul_div_cancel' (Nat.dvd_of_mod_eq_zero h.2.2)
  | case2 rem h => simp

theorem foldl_peel_spec (rs : List ℕ) (out : List ℕ) (rem : ℕ) :
    (rs.foldl (fun (out, rem) r =>
        let peeled := peel r rem
        (out ++ peeled.1, peeled.2)) (out, rem)).1.prod *
      (rs.foldl (fun (out, rem) r =>
        let peeled := peel r rem
        (out ++ peeled.1, peeled.2)) (out, rem)).2 = out.prod * rem ∧
    ∀ s ∈ (rs.foldl (fun (out, rem) r =>
        let peeled := peel r rem
        (out ++ peeled.1, peeled.2)) (out, rem)).1, s ∈ out ∨ s ∈ rs := by
  induction rs generalizing out rem with
  | nil => exact ⟨rfl, fun s hs => .inl hs⟩
  | cons r rs ih =>
    obtain ⟨hprod, hall⟩ := ih (out ++ (peel r rem).1) (peel r rem).2
    obtain ⟨hpeel, hr⟩ := peel_spec r rem
    refine ⟨?_, fun s hs => ?_⟩
    · refine hprod.trans ?_
      rw [List.prod_append, Nat.mul_assoc, hpeel]
    · rcases hall s hs with h | h
      · rcases List.mem_append.1 h with h | h
        · exact .inl h
        · exact .inr (hr s h ▸ List.mem_cons_self)
      · exact .inr (List.mem_cons_of_mem _ h)

/-- The radices of a length above one are small and multiply up to it. -/
theorem factorize_spec {n : ℤ} {radices : List ℕ} (h : factorize n = some radices) (hn : n ≠ 1) :
    radices.prod = n.toNat ∧ ∀ r ∈ radices, 2 ≤ r ∧ r ≤ 8 := by
  unfold factorize at h
  by_cases hpos : n ≤ 0
  · rw [if_pos hpos] at h
    cases h
  · rw [if_neg hpos, if_neg hn] at h
    obtain ⟨hprod, hall⟩ := foldl_peel_spec [8, 7, 6, 5, 4, 3, 2] [] n.toNat
    simp only [ne_eq, ite_not] at h
    split_ifs at h with hrem
    obtain rfl := Option.some.inj h
    rw [hrem, Nat.mul_one, List.prod_nil, Nat.one_mul] at hprod
    refine ⟨hprod, fun r hr => ?_⟩
    rcases hall r hr with h | h
    · cases h
    · have hsmall : ∀ r ∈ [8, 7, 6, 5, 4, 3, 2], 2 ≤ r ∧ r ≤ 8 := by decide
      exact hsmall r h

/-! The kernel. -/

section Kernel

variable {R : Type*} [CommRing R] (c : Literals R) (A : Arith (Float2 R)) (y₀ : ℕ → Float2 R)

/-- One stage of radix `r` on transforms of `p` points. -/
def mixedStage (n size : ℕ) (swapped : Bool) (p r : ℕ) : Phase (TgMem (Float2 R)) :=
  let m := n / r
  fun tid => (strided tid size m).flatMap fun i =>
    let k := i % p
    let blk := i / p
    let x := fun (src : ℕ → Float2 R) t =>
      let v := src (i + t * m)
      if t ≠ 0 then v * A.twiddle (t * k) (r * p) false else v
    let y := fun src => radixDispatch c r (x src) y₀
    let base := blk * r * p + k
    (List.range r).map fun t => TgMem.setDst swapped (base + t * p) fun src => y src t

/-- `for (s = 0; s < n_radices; ++s)` -/
def mixedStages (n size : ℕ) : List ℕ → Bool → ℕ → List (Phase (TgMem (Float2 R)))
  | [], _, _ => []
  | r :: radices, swapped, p =>
    mixedStage c A y₀ n size swapped p r :: mixedStages n size radices (!swapped) (p * r)

/-- `fft_mixed_radix_f32`; `data` is the output. -/
def fftMixedRadixF32 (input : ℕ → Float2 R) (n : ℕ) (inverse : Bool) (radices : List ℕ)
    (g size : ℕ) : List (Phase (GridMem (Float2 R))) :=
  let stages := mixedStages c A y₀ n size radices false 1
  let scale := if inverse then A.recip n else 1
  load g size n (fun i _ => if inverse then star (input i) else input i) ::
      stages.map (liftPhase (GridMem.onTg g)) ++
    [storeOut g size n id fun i m =>
      let v := m.src (swaps false stages.length) i
      if inverse then star v * scale else v * scale]

end Kernel

/-! Its stages. -/

section Spec

variable {R : Type*} [CommRing R] {c : Literals R} {A : Arith (Float2 R)} {y₀ : ℕ → Float2 R}
  {ω : Float2 R} {x : ℕ → Float2 R}

theorem mixedStage_advance {size p q r : ℕ} (swapped : Bool) (hsize : 0 < size)
    (hω : ω ^ (p * (r * q)) = 1) (hunit : star ω * ω = 1)
    (hexact : A.Exact false ω (p * (r * q))) (hlit : c.Exact (ω ^ (p * q)) r) :
    Triple size (fun m => Partial ω x p (r * q) (m.src swapped))
      [mixedStage c A y₀ (p * (r * q)) size swapped p r]
      (fun m => Partial ω x (r * p) q (m.src !swapped)) := by
  have hr : 0 < r := Nat.pos_of_ne_zero fun h0 => by subst h0; exact hlit
  have hm : p * (r * q) / r = p * q := by
    rw [Nat.mul_left_comm, Nat.mul_div_cancel_left _ hr]
  refine stage_advance
    (fun i t src => radixDispatch c r (fun s =>
      if s ≠ 0 then src (i + s * (p * q)) * A.twiddle (s * (i % p)) (r * p) false
      else src (i + s * (p * q))) y₀ t)
    hsize hω (fun tid htid op => ?_) fun src i hi t ht => ?_
  · unfold mixedStage
    simp only [List.mem_flatMap, mem_strided htid, hm, List.mem_map, List.mem_range]
    refine ⟨fun ⟨i, ⟨hi, htid⟩, t, ht, hop⟩ => ⟨i, hi, htid, t, ht, ?_⟩,
      fun ⟨i, hi, htid, t, ht, hop⟩ => ⟨i, ⟨hi, htid⟩, t, ht, ?_⟩⟩
    · rw [← hop, slot, Nat.mul_assoc]
    · rw [hop, slot, Nat.mul_assoc]
  · have hp : 0 < p := Nat.pos_of_ne_zero fun h0 => by subst h0; simp at hi
    have hturn : (ω ^ (p * q)) ^ r = 1 := by
      rw [← pow_mul, show p * q * r = p * (r * q) by ring, hω]
    have hcircle : star (ω ^ (p * q)) * ω ^ (p * q) = 1 := by
      rw [star_pow, ← mul_pow, hunit, one_pow]
    rw [radixDispatch_dft _ hturn hcircle hlit y₀ ht]
    refine dft_congr (fun s _ => ?_) t
    have hsplit : p * (r * q) = r * p * q := by ring
    rw [hexact _ (r * p) ⟨q, hsplit⟩, hsplit, Nat.mul_div_cancel_left _ (Nat.mul_pos hr hp)]
    split_ifs with hs
    · rfl
    · obtain rfl : s = 0 := by omega
      simp

theorem length_mixedStages (n size : ℕ) (radices : List ℕ) (swapped : Bool) (p : ℕ) :
    (mixedStages c A y₀ n size radices swapped p).length = radices.length := by
  induction radices generalizing swapped p with
  | nil => rfl
  | cons r radices ih => rw [mixedStages, List.length_cons, List.length_cons, ih]

/-- All stages from transforms of `p` points on. -/
theorem mixedStages_done {n size p : ℕ} {radices : List ℕ} (swapped : Bool) (hsize : 0 < size)
    (hn : p * radices.prod = n) (hω : ω ^ n = 1) (hunit : star ω * ω = 1)
    (hexact : A.Exact false ω n) (hpos : 0 < n)
    (hlit : ∀ r ∈ radices, c.Exact (ω ^ (n / r)) r) :
    Triple size (fun m => Partial ω x p radices.prod (m.src swapped))
      (mixedStages c A y₀ n size radices swapped p)
      (fun m => Partial ω x n 1 (m.src (swaps swapped radices.length))) := by
  induction radices generalizing swapped p with
  | nil =>
    rw [List.prod_nil, Nat.mul_one] at hn
    subst hn
    exact Triple.nil
  | cons r radices ih =>
    rw [List.prod_cons] at hn ⊢
    have hr : 0 < r := Nat.pos_of_ne_zero fun h0 => by subst h0; simp at hn; omega
    have hdiv : n / r = p * radices.prod := by
      rw [← hn, Nat.mul_left_comm, Nat.mul_div_cancel_left _ hr]
    have hfirst := @mixedStage_advance R _ c A y₀ ω x size p radices.prod r swapped hsize
      (hn ▸ hω) hunit (hn ▸ hexact) (hdiv ▸ hlit r List.mem_cons_self)
    rw [hn, Nat.mul_comm r p] at hfirst
    have hrest := ih (p := p * r) (!swapped) (by rw [Nat.mul_assoc, hn])
      fun s hs => hlit s (List.mem_cons_of_mem _ hs)
    exact hfirst.append hrest

/-- The mixed-radix kernel writes the transform of its input. -/
theorem fftMixedRadixF32_dft {root : Bool → Float2 R} {inverse : Bool} {n g size : ℕ}
    {radices : List ℕ} (hsize : 0 < size) (hn : radices.prod = n) (hpos : 0 < n)
    (hω : root false ^ n = 1) (hconj : star (root false) = root true)
    (hunit : root true * root false = 1) (hexact : A.Exact false (root false) n)
    (hlit : ∀ r ∈ radices, c.Exact (root false ^ (n / r)) r) (d : ℕ → Float2 R) :
    Triple size (fun s => s.data = d) (fftMixedRadixF32 c A y₀ x n inverse radices g size)
      (fun s => (∀ k < n, s.data k = dftReference root A.recip x n inverse k) ∧
        ∀ j, n ≤ j → s.data j = d j) := by
  have hstages := @mixedStages_done R _ c A y₀ (root false)
    (fun i => if inverse then star (x i) else x i) n size 1 radices false hsize
    (by rw [Nat.one_mul, hn]) hω (by rw [hconj, hunit]) hexact hpos hlit
  rw [hn] at hstages
  have hgroup := @group_spec (Float2 R) g size n hsize id (fun i _ j _ hij => hij)
    (fun i _ => if inverse then star (x i) else x i) (mixedStages c A y₀ n size radices false 1)
    (fun i m =>
      if inverse then star (m.src (swaps false radices.length) i) *
        (if inverse then A.recip n else 1)
      else m.src (swaps false radices.length) i * if inverse then A.recip n else 1) d
    (dftReference root A.recip x n inverse) (fun turns m hcomplete hm k hk => by
      rw [(hstages turns m hcomplete (Partial.start hm)).done hk, dftReference_eq]
      cases inverse with
      | false => rfl
      | true =>
        have hmap := map_dft (starRingEnd (Float2 R)) (root false) n (fun i => star (x i)) k
        simp only [starRingEnd_apply, star_star, hconj] at hmap
        simp only [if_true, hmap])
  unfold fftMixedRadixF32
  simp only [length_mixedStages]
  intro turns s hcomplete hs
  obtain ⟨hin, hout⟩ := hgroup turns s hcomplete hs
  exact ⟨hin, fun j hj => hout j fun i hi hij => by subst hij; exact absurd hi (by simpa using hj)⟩

end Spec

/-- Whatever the number of threads, whatever turns they take between the barriers and whatever the
buffers held, the radix-2 core, the radix-2 kernel and the mixed-radix kernel compute the transform
in natural order; the radices are any that the codelets have, as `factorize` gives them. -/
theorem fftKernels_dft {K R : Type*} [CommRing K] [CommRing R] {size : ℕ} (hsize : 0 < size)
    (inverse : Bool) (g : ℕ) (turns : ℕ → List ℕ) :
    (∀ (A : Arith K) (root : Bool → K) (e : ℕ) (m : TgMem K),
      A.Exact false (root false) (2 ^ e) → IsPow2Root (root false) e → ∀ k < 2 ^ e,
      (runGroup size (stockhamPow2Tg A (2 ^ e) size) turns m).a k =
        dftReference root A.recip m.a (2 ^ e) false k) ∧
    (∀ (A : Arith K) (root : Bool → K) (x : ℕ → K) (e : ℕ) (s : GridMem K),
      A.Exact inverse (root inverse) (2 ^ e) → IsPow2Root (root inverse) e → ∀ k < 2 ^ e,
      (runGroup size (fftStockhamPow2F32 A x (2 ^ e) inverse g size) turns s).data k =
        dftReference root A.recip x (2 ^ e) inverse k) ∧
    (∀ (c : Literals R) (A : Arith (Float2 R)) (root : Bool → Float2 R) (x y₀ : ℕ → Float2 R)
      (n : ℕ) (radices : List ℕ) (s : GridMem (Float2 R)), radices.prod = n → 0 < n →
      A.Exact false (root false) n → root false ^ n = 1 → star (root false) = root true →
      root true * root false = 1 → (∀ r ∈ radices, c.Exact (root false ^ (n / r)) r) → ∀ k < n,
      (runGroup size (fftMixedRadixF32 c A y₀ x n inverse radices g size) turns s).data k =
        dftReference root A.recip x n inverse k) ∧
    ∀ (n : ℤ) (radices : List ℕ), factorize n = some radices → n ≠ 1 →
      radices.prod = n.toNat ∧ ∀ r ∈ radices, 2 ≤ r ∧ r ≤ 8 := by
  refine ⟨fun A root e m hexact hroot k hk => ?_, fun A root x e s hexact hroot k hk => ?_,
    fun c A root x y₀ n radices s hn hpos hexact hω hconj hunit hlit k hk => ?_,
    fun n radices h hn => factorize_spec h hn⟩
  · rw [dftReference_eq, if_neg Bool.false_ne_true, mul_one]
    exact (stockhamPow2Tg_dft hsize hexact hroot).runGroup turns (fun _ _ => rfl) k hk
  · exact ((fftStockhamPow2F32_dft (g := g) hsize hexact hroot s.data).runGroup turns rfl).1 k hk
  · exact ((fftMixedRadixF32_dft (g := g) hsize hn hpos hω hconj hunit hexact hlit
      s.data).runGroup turns rfl).1 k hk

/-- A half, sixths of a turn and thirds of a turn modulo 13. -/
def literals13 : Literals (ZMod 13) := ⟨7, 10, 11, -(1 + 1), 1 + 1, 0, 0, 0, 0, 0, 0, 0, 0, 0⟩

/-- The sixth roots of unity modulo 13. -/
def root13 (inverse : Bool) : Float2 (ZMod 13) := if inverse then ⟨7, 1 + 1⟩ else ⟨7, -(1 + 1)⟩

def noTg {K : Type*} [CommRing K] : GridMem K := ⟨fun _ => 0, fun _ => ⟨fun _ => 0, fun _ => 0⟩⟩

/-- Two threads, four points of the complex integers, and six points in radices three and two of the
complex numbers modulo 13. -/
theorem fftKernels_dft_small :
    (∀ k < 4, (runGroup 2 (fftStockhamPow2F32 (powersOf (⟨0, -1⟩ : Float2 ℤ) 4) (fun i => ⟨i, 1⟩) 4
        false 0 2) (fun _ => []) noTg).data k =
      dftReference (fun _ => (⟨0, -1⟩ : Float2 ℤ)) (fun _ => 0) (fun i => ⟨i, 1⟩) 4 false k) ∧
    ∀ k < 6, (runGroup 2 (fftMixedRadixF32 literals13 (powersOf (root13 false) 6) (fun _ => 0)
        (fun i => ⟨i, 1⟩) 6 false [3, 2] 0 2) (fun _ => []) noTg).data k =
      dftReference root13 (fun _ => 0) (fun i => ⟨i, 1⟩) 6 false k := by
  obtain ⟨-, hpow2, hmixed, -⟩ :=
    @fftKernels_dft (Float2 ℤ) (ZMod 13) _ _ 2 (by decide) false 0 fun _ => []
  refine ⟨hpow2 (powersOf (⟨0, -1⟩ : Float2 ℤ) 4) (fun _ => ⟨0, -1⟩) _ 2 noTg (fun k p _ => rfl)
      (by decide),
    hmixed literals13 (powersOf (root13 false) 6) root13 _ _ 6 [3, 2] noTg rfl (by decide)
      (fun k p _ => rfl) (by decide) (by decide) (by decide) fun r hr => ?_⟩
  rcases List.mem_pair.1 hr with rfl | rfl
  · show root13 false ^ 2 = _
    decide
  · show root13 false ^ 3 = _
    decide

end PolarsMetal.Fft
