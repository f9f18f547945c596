import PolarsMetal.Fft.Bluestein
import PolarsMetal.Fft.MixedRadix
import PolarsMetal.Lib.Strided

/-! The transform on separate planes of real and imaginary parts. The kernels compute in a
threadgroup's memory as the interleaved ones do; every access of the device's memory is one of each
plane. -/

namespace PolarsMetal.Fft
open Interleave Barriers Dft

structure Planes (R : Type*) where
  re : ℕ → R
  im : ℕ → R

/-- The planes that the kernel writes, and the groups' own memories. -/
structure PlanarMem (R : Type*) where
  planes : Planes R
  tg : ℕ → TgMem (Float2 R)

/-- The planes, and each iteration's `v`. -/
structure TwiddleMem (R : Type*) where
  planes : Planes R
  v : ℕ → Float2 R

variable {R : Type*}

namespace Planes

/-- `float2(re[i], im[i])` -/
def point (p : Planes R) (i : ℕ) : Float2 R := ⟨p.re i, p.im i⟩

def setRe (i : ℕ) (v : R) (p : Planes R) : Planes R := { p with re := Function.update p.re i v }

def setIm (i : ℕ) (v : R) (p : Planes R) : Planes R := { p with im := Function.update p.im i v }

@[simp] theorem setRe_re (i : ℕ) (v : R) (p : Planes R) :
    (setRe i v p).re = Function.update p.re i v := rfl

@[simp] theorem setRe_im (i : ℕ) (v : R) (p : Planes R) : (setRe i v p).im = p.im := rfl

@[simp] theorem setIm_re (i : ℕ) (v : R) (p : Planes R) : (setIm i v p).re = p.re := rfl

@[simp] theorem setIm_im (i : ℕ) (v : R) (p : Planes R) :
    (setIm i v p).im = Function.update p.im i v := rfl

end Planes

namespace PlanarMem

/-- An operation of group `g` on its own memory. -/
def onTg (g : ℕ) (op : TgMem (Float2 R) → TgMem (Float2 R)) (s : PlanarMem R) : PlanarMem R :=
  { s with tg := Function.update s.tg g (op (s.tg g)) }

def setRe (i : ℕ) (value : PlanarMem R → R) (s : PlanarMem R) : PlanarMem R :=
  { s with planes := s.planes.setRe i (value s) }

def setIm (i : ℕ) (value : PlanarMem R → R) (s : PlanarMem R) : PlanarMem R :=
  { s with planes := s.planes.setIm i (value s) }

@[simp] theorem onTg_planes (g : ℕ) (op : TgMem (Float2 R) → TgMem (Float2 R)) (s : PlanarMem R) :
    (onTg g op s).planes = s.planes := rfl

@[simp] theorem onTg_tg (g : ℕ) (op : TgMem (Float2 R) → TgMem (Float2 R)) (s : PlanarMem R) :
    (onTg g op s).tg g = op (s.tg g) := Function.update_self ..

theorem onTg_tg_of_ne {g u : ℕ} (h : g ≠ u) (op : TgMem (Float2 R) → TgMem (Float2 R))
    (s : PlanarMem R) : (onTg u op s).tg g = s.tg g := Function.update_of_ne h ..

@[simp] theorem setRe_planes (i : ℕ) (value : PlanarMem R → R) (s : PlanarMem R) :
    (setRe i value s).planes = s.planes.setRe i (value s) := rfl

@[simp] theorem setRe_tg (i : ℕ) (value : PlanarMem R → R) (s : PlanarMem R) :
    (setRe i value s).tg = s.tg := rfl

@[simp] theorem setIm_planes (i : ℕ) (value : PlanarMem R → R) (s : PlanarMem R) :
    (setIm i value s).planes = s.planes.setIm i (value s) := rfl

@[simp] theorem setIm_tg (i : ℕ) (value : PlanarMem R → R) (s : PlanarMem R) :
    (setIm i value s).tg = s.tg := rfl

end PlanarMem

/-- The cooperative load of `a[0 .. n)`. -/
def loadPlanar (g size n : ℕ) (value : ℕ → Planes R → Float2 R) : Phase (PlanarMem R) :=
  loopPhase size n fun i => [fun s => s.onTg g (TgMem.setA i fun _ => value i s.planes)]

/-- The store of `n` values, the `i`-th to `addr i` of each plane. -/
def storePlanar (g size n : ℕ) (addr : ℕ → ℕ) (value : ℕ → TgMem (Float2 R) → Float2 R) :
    Phase (PlanarMem R) :=
  loopPhase size n fun i =>
    [PlanarMem.setRe (addr i) fun s => (value i (s.tg g)).x,
      PlanarMem.setIm (addr i) fun s => (value i (s.tg g)).y]

/-! The kernels. -/

def fftTransposePlanar (input : Planes R) (l1 l2 batch gridSize : ℕ) : Phase (Planes R) :=
  let len := u32 (l1 * l2)
  loopPhase gridSize (u32 (batch * len)) fun idx =>
    let s := idx / len
    let loc := idx % len
    let i := loc / l2
    let j := loc % l2
    let dst := u32 (s * len + j * l1 + i)
    [Planes.setRe dst (input.re idx), Planes.setIm dst (input.im idx)]

def fftCopyPlanar (input : Planes R) (count gridSize : ℕ) : Phase (Planes R) :=
  loopPhase gridSize count fun idx =>
    [Planes.setRe idx (input.re idx), Planes.setIm idx (input.im idx)]

section Kernels

variable [CommRing R] (A : Arith (Float2 R))

/-- `1 / n` for the inverse, as a scalar. -/
def scaleOf (n : ℕ) (inverse : Bool) : R := if inverse then (A.recip n).x else 1

/-- `fft_stockham_pow2_planar_f32`; the planes are the output. -/
def fftStockhamPow2PlanarF32 (input : Planes R) (n : ℕ) (inverse : Bool) (g size : ℕ) :
    List (Phase (PlanarMem R)) :=
  let stages := pow2Stages A inverse n size 1 false
  let scale := scaleOf A n inverse
  loadPlanar g size n (fun i _ => input.point i) :: stages.map (liftPhase (PlanarMem.onTg g)) ++
    [storePlanar g size n id fun i m => (m.src (swaps false stages.length) i).scale scale]

/-- `fft_mixed_radix_planar_f32`; the planes are the output. -/
def fftMixedRadixPlanarF32 (c : Literals R) (y₀ : ℕ → Float2 R) (input : Planes R) (n : ℕ)
    (inverse : Bool) (radices : List ℕ) (g size : ℕ) : List (Phase (PlanarMem R)) :=
  let stages := mixedStages c A y₀ n size radices false 1
  let scale := scaleOf A n inverse
  loadPlanar g size n
      (fun i _ => if inverse then star (input.point i) else input.point i) ::
      stages.map (liftPhase (PlanarMem.onTg g)) ++
    [storePlanar g size n id fun i m =>
      let v := m.src (swaps false stages.length) i
      if inverse then (star v).scale scale else v.scale scale]

/-- A group that transforms the `n` points at `addr` in place. -/
def inPlacePlanar (addr : ℕ → ℕ) (n g size : ℕ) : List (Phase (PlanarMem R)) :=
  loadPlanar g size n (fun i planes => planes.point (addr i)) ::
      (stockhamPow2Tg A n size).map (liftPhase (PlanarMem.onTg g)) ++
    [storePlanar g size n addr fun i m => m.a i]

def fftStockhamPow2BatchedPlanar (len tgid size : ℕ) : List (Phase (PlanarMem R)) :=
  let base := u32 (tgid * len)
  inPlacePlanar A (fun i => u32 (base + i)) len tgid size

def fftFourstepColsPlanar (l1 l2 tgid size : ℕ) : List (Phase (PlanarMem R)) :=
  let s := tgid / l2
  let col := tgid % l2
  let base := u32 (s * u32 (l1 * l2) + col)
  inPlacePlanar A (fun i => u32 (base + i * l2)) l1 tgid size

def fftTwiddleMulPlanar (l2 len batch gridSize : ℕ) : Phase (TwiddleMem R) :=
  loopPhase gridSize (u32 (batch * len)) fun idx =>
    let loc := idx % len
    let i := loc / l2
    let j := loc % l2
    [fun m => { m with
        v := Function.update m.v idx (m.planes.point idx * A.twiddle (u32 (i * j)) len false) },
      fun m => { m with planes := m.planes.setRe idx (m.v idx).x },
      fun m => { m with planes := m.planes.setIm idx (m.v idx).y }]

end Kernels

/-! The driver. -/

/-- `dispatch_1d_with_tg` -/
def Machine.dispatch1dWithTgPlanar (M : Machine (Float2 R)) (depth : ℕ) (pass : Pass)
    (nThreads width : ℕ) (kernel : ℕ → ℕ → List (Phase (PlanarMem R))) (data : Planes R) :
    Except FftError (Planes R) :=
  if nThreads = 0 then .error .emptyGrid
  else
    let tgWidth := max (min width M.maxThreads) 1
    let groups := (nThreads + tgWidth - 1) / tgWidth
    let size := fun g => min tgWidth (nThreads - g * tgWidth)
    .ok (runGrid groups size (fun g => kernel g (size g)) (M.groups depth pass)
      ⟨data, M.tg depth pass⟩).planes

/-- `dispatch_1d` -/
def Machine.dispatch1dOn {Mem : Type*} (M : Machine (Float2 R)) (depth : ℕ) (pass : Pass)
    (nThreads : ℕ) (kernel : ℕ → Phase Mem) (out : Mem) : Except FftError Mem :=
  if nThreads = 0 then .error .emptyGrid
  else
    .ok (runPhase nThreads (kernel nThreads) out
      (finish nThreads (kernel nThreads) (M.threads depth pass)))

structure PlanarBufs (R : Type*) where
  data : Planes R
  scratch : Planes R

section Driver

variable [CommRing R] (M : Machine (Float2 R)) (A : Arith (Float2 R))

def fftPassPlanar (len batch depth : ℕ) (bufs : PlanarBufs R) : Except FftError (PlanarBufs R) :=
  if depth > fftMaxRecursionDepth then .error (.unsupported len)
  else if len ≤ fftBaseMax then do
    let data ← M.dispatch1dWithTgPlanar depth .base (batch * len) len
      (fftStockhamPow2BatchedPlanar A (u32 len)) bufs.data
    .ok { bufs with data := data }
  else do
    let l1 := fftBaseMax
    let l2 := len / l1
    let data ← M.dispatch1dWithTgPlanar depth .cols (batch * l2 * l1) l1
      (fftFourstepColsPlanar A (u32 l1) (u32 l2)) bufs.data
    let twiddled ← M.dispatch1dOn depth .twiddle (batch * len)
      (fftTwiddleMulPlanar A (u32 l2) (u32 len) (u32 batch)) ⟨data, fun _ => 0⟩
    let bufs ← fftPassPlanar l2 (batch * l1) (depth + 1) { bufs with data := twiddled.planes }
    let scratch ← M.dispatch1dOn depth .transpose (batch * len)
      (fftTransposePlanar bufs.data (u32 l1) (u32 l2) (u32 batch)) bufs.scratch
    let data ← M.dispatch1dOn depth .copy (batch * len) (fftCopyPlanar scratch (u32 (batch * len)))
      bufs.data
    .ok ⟨data, scratch⟩
termination_by len
decreasing_by
  rename_i h
  exact Nat.div_lt_self (by omega) (by decide)

/-- `fft_recursive_fourstep_planar`. The inverse negates the imaginary plane on the way in, and
negates and scales on the way out. -/
def fftRecursiveFourstepPlanar (input : Planes R) (n : ℕ) (inverse : Bool) :
    Except FftError (Planes R) := do
  let staged := if inverse then ⟨input.re, fun i => -input.im i⟩ else input
  let bufs ← fftPassPlanar M A n 1 0 ⟨staged, ⟨fun _ => 0, fun _ => 0⟩⟩
  let scale := (A.recip n).x
  .ok (if inverse then ⟨fun k => bufs.data.re k * scale, fun k => -bufs.data.im k * scale⟩
    else bufs.data)

end Driver

/-! All lengths. -/

section Core

-- `Ms` are the machine's runs in the transforms that a chirp needs
variable [CommRing R] (M : Machine (Float2 R)) (Ms : ℕ → Machine (Float2 R)) (c : Literals R)
  (A : Arith (Float2 R)) (chirp : ℕ → ℕ → Float2 R) (y₀ : ℕ → Float2 R)

/-- `write_f32_into`, of `n` samples. -/
def writeF32Into {K : Type*} (n : ℕ) (result out : ℕ → K) : ℕ → K :=
  fun k => if k < n then result k else out k

def bluesteinBridge (input out : ℕ → Float2 R) (n : ℤ) (inverse : Bool) :
    Except FftError (ℕ → Float2 R) := do
  let result ← bluesteinDispatch Ms A chirp input n inverse
  .ok (writeF32Into n.toNat result out)

def bluesteinBridgePlanar (input out : Planes R) (n : ℤ) (inverse : Bool) :
    Except FftError (Planes R) := do
  let inter := fun i => if i < n.toNat then input.point i else 0
  let result ← bluesteinDispatch Ms A chirp inter n inverse
  .ok ⟨writeF32Into n.toNat (fun k => (result k).x) out.re,
    writeF32Into n.toNat (fun k => (result k).y) out.im⟩

def fftGpuBuf (input out : ℕ → Float2 R) (n : ℤ) (inverse : Bool) :
    Except FftError (ℕ → Float2 R) :=
  if n ≤ 0 then .error (.unsupported n)
  else
    let len := n.toNat
    if len > fftBaseMax then
      if len &&& (len - 1) = 0 then
        if len > 2 ^ 30 then .error (.unsupported n)
        else fftRecursiveFourstepBuf M A input len inverse
      else bluesteinBridge Ms A chirp input out n inverse
    else if len &&& (len - 1) ≠ 0 ∧ (factorize n).isNone then
      bluesteinBridge Ms A chirp input out n inverse
    else
      let tg := min len fftBaseMax
      if len &&& (len - 1) = 0 then
        M.dispatch1dWithTg 0 .base tg tg (fftStockhamPow2F32 A input len inverse) out
      else
        match factorize n with
        | some radices =>
          M.dispatch1dWithTg 0 .base tg tg (fftMixedRadixF32 c A y₀ input len inverse radices) out
        | none => .error (.unsupported n)

def fftGpuPlanarCore (input out : Planes R) (n : ℤ) (inverse : Bool) : Except FftError (Planes R) :=
  if n ≤ 0 then .error (.unsupported n)
  else
    let len := n.toNat
    if len > fftBaseMax then
      if len &&& (len - 1) = 0 then
        if len > 2 ^ 30 then .error (.unsupported n)
        else fftRecursiveFourstepPlanar M A input len inverse
      else bluesteinBridgePlanar Ms A chirp input out n inverse
    else if len &&& (len - 1) ≠ 0 ∧ (factorize n).isNone then
      bluesteinBridgePlanar Ms A chirp input out n inverse
    else
      let tg := min len fftBaseMax
      if len &&& (len - 1) = 0 then
        M.dispatch1dWithTgPlanar 0 .base tg tg (fftStockhamPow2PlanarF32 A input len inverse) out
      else
        match factorize n with
        | some radices =>
          M.dispatch1dWithTgPlanar 0 .base tg tg
            (fftMixedRadixPlanarF32 A c y₀ input len inverse radices) out
        | none => .error (.unsupported n)

end Core

end PolarsMetal.Fft
