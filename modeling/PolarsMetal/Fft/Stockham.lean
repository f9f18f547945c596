import PolarsMetal.Lib.Dft
import PolarsMetal.Lib.Grid

/-! The radix-2 Stockham kernels. A threadgroup holds its signal in one of two buffers; a stage reads
pairs half a signal apart from the one and scatters their butterflies into the other, and the
buffers change places. Samples are elements of any commutative ring, and the twiddles and the
reciprocal of the length are what the kernels are given for them. -/

namespace PolarsMetal.Fft
open Interleave Barriers Dft

/-- `FFT_BASE_MAX` -/
def fftBaseMax : ℕ := 1024

/-- `twiddle k p inv` stands for `e^(-2πi k / p)`, or `e^(2πi k / p)` if `inv`; `recip n` for
`1 / n`. -/
structure Arith (K : Type*) where
  twiddle : ℕ → ℕ → Bool → K
  recip : ℕ → K

/-- A threadgroup's ping-pong buffers. -/
structure TgMem (K : Type*) where
  a : ℕ → K
  b : ℕ → K

/-- The device buffer that the kernel writes, and the groups' own memories. -/
structure GridMem (K : Type*) where
  data : ℕ → K
  tg : ℕ → TgMem K

variable {K : Type*}

namespace TgMem

/-- The buffer that `src` points to. -/
def src (swapped : Bool) (m : TgMem K) : ℕ → K := if swapped then m.b else m.a

/-- A store through `dst` of a value read through `src`. -/
def setDst (swapped : Bool) (i : ℕ) (value : (ℕ → K) → K) (m : TgMem K) : TgMem K :=
  if swapped then { m with a := Function.update m.a i (value m.b) }
  else { m with b := Function.update m.b i (value m.a) }

def setA (i : ℕ) (value : TgMem K → K) (m : TgMem K) : TgMem K :=
  { m with a := Function.update m.a i (value m) }

@[simp] theorem src_setDst (swapped : Bool) (i : ℕ) (value : (ℕ → K) → K) (m : TgMem K) :
    (setDst swapped i value m).src swapped = m.src swapped := by
  cases swapped <;> rfl

@[simp] theorem src_not_setDst (swapped : Bool) (i : ℕ) (value : (ℕ → K) → K) (m : TgMem K) :
    (setDst swapped i value m).src (!swapped) =
      Function.update (m.src (!swapped)) i (value (m.src swapped)) := by
  cases swapped <;> rfl

end TgMem

namespace GridMem

/-- An operation of group `g` on its own memory. -/
def onTg (g : ℕ) (op : TgMem K → TgMem K) (s : GridMem K) : GridMem K :=
  { s with tg := Function.update s.tg g (op (s.tg g)) }

def setData (i : ℕ) (value : GridMem K → K) (s : GridMem K) : GridMem K :=
  { s with data := Function.update s.data i (value s) }

@[simp] theorem onTg_data (g : ℕ) (op : TgMem K → TgMem K) (s : GridMem K) :
    (onTg g op s).data = s.data := rfl

@[simp] theorem onTg_tg (g : ℕ) (op : TgMem K → TgMem K) (s : GridMem K) :
    (onTg g op s).tg g = op (s.tg g) := Function.update_self ..

theorem onTg_tg_of_ne {g u : ℕ} (h : g ≠ u) (op : TgMem K → TgMem K) (s : GridMem K) :
    (onTg u op s).tg g = s.tg g := Function.update_of_ne h ..

@[simp] theorem setData_data (i : ℕ) (value : GridMem K → K) (s : GridMem K) :
    (setData i value s).data = Function.update s.data i (value s) := rfl

@[simp] theorem setData_tg (i : ℕ) (value : GridMem K → K) (s : GridMem K) :
    (setData i value s).tg = s.tg := rfl

end GridMem

/-- The cooperative load of `a[0 .. n)`. -/
def load (g size n : ℕ) (value : ℕ → (ℕ → K) → K) : Phase (GridMem K) := fun tid =>
  (strided tid size n).map fun i s => s.onTg g (TgMem.setA i fun _ => value i s.data)

/-- The store of `n` values, the `i`-th to `addr i`. -/
def storeOut (g size n : ℕ) (addr : ℕ → ℕ) (value : ℕ → TgMem K → K) : Phase (GridMem K) :=
  fun tid => (strided tid size n).map fun i => GridMem.setData (addr i) fun s => value i (s.tg g)

/-- Which buffer `src` points to after some stages. -/
def swaps (swapped : Bool) : ℕ → Bool
  | 0 => swapped
  | stages + 1 => swaps (!swapped) stages

section Kernels

variable [CommRing K] (A : Arith K)

/-- One pass over the signal; `ns` is the length of the transforms it starts from. -/
def pow2Stage (inverse : Bool) (len size : ℕ) (swapped : Bool) (ns : ℕ) : Phase (TgMem K) :=
  fun tid => (strided tid size (len / 2)).flatMap fun i =>
    let j := i &&& (ns - 1)
    let block := i / ns
    let u := fun src : ℕ → K => src i
    let v := fun src : ℕ → K => src (i + len / 2) * A.twiddle j (2 * ns) inverse
    let out0 := block * (2 * ns) + j
    [TgMem.setDst swapped out0 fun src => u src + v src,
      TgMem.setDst swapped (out0 + ns) fun src => u src - v src]

/-- `for (ns = 1; ns < len; ns <<= 1)` -/
def pow2Stages (inverse : Bool) (len size ns : ℕ) (swapped : Bool) : List (Phase (TgMem K)) :=
  if 0 < ns ∧ ns < len then
    pow2Stage A inverse len size swapped ns :: pow2Stages inverse len size (2 * ns) (!swapped)
  else []
termination_by len - ns

/-- The core shared by the four-step kernels. The result ends in `a`. -/
def stockhamPow2Tg (len size : ℕ) : List (Phase (TgMem K)) :=
  let stages := pow2Stages A false len size 1 false
  if stages.length % 2 ≠ 0 then
    stages ++ [fun tid => (strided tid size len).map fun i => TgMem.setA i fun m => m.b i]
  else stages

/-- `fft_stockham_pow2_f32`; `data` is the output. -/
def fftStockhamPow2F32 (input : ℕ → K) (n : ℕ) (inverse : Bool) (g size : ℕ) :
    List (Phase (GridMem K)) :=
  let stages := pow2Stages A inverse n size 1 false
  let scale := if inverse then A.recip n else 1
  load g size n (fun i _ => input i) :: stages.map (liftPhase (GridMem.onTg g)) ++
    [storeOut g size n id fun i m => m.src (swaps false stages.length) i * scale]

end Kernels

/-- `dft_reference`: `root inverse` is `e^(-2πi / n)`, or `e^(2πi / n)` if `inverse`. -/
def dftReference [CommRing K] (root : Bool → K) (recip : ℕ → K) (input : ℕ → K) (n : ℕ)
    (inverse : Bool) (k : ℕ) : K :=
  (∑ t ∈ Finset.range n, input t * root inverse ^ (k * t)) * if inverse then recip n else 1

theorem dftReference_eq [CommRing K] (root : Bool → K) (recip : ℕ → K) (input : ℕ → K) (n : ℕ)
    (inverse : Bool) (k : ℕ) : dftReference root recip input n inverse k =
      dft (root inverse) n input k * if inverse then recip n else 1 := by
  unfold dftReference dft
  simp only [Nat.mul_comm k]

/-- The twiddles are powers of one root, which has `n` of them to a turn. -/
def Arith.Exact [CommRing K] (A : Arith K) (inverse : Bool) (ω : K) (n : ℕ) : Prop :=
  ∀ k p, p ∣ n → A.twiddle k p inverse = ω ^ (k * (n / p))

end PolarsMetal.Fft
