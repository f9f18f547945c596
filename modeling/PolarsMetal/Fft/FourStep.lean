import PolarsMetal.Fft.StockhamSpec
import Mathlib.Algebra.Star.Basic

/-! The recursive batched four-step transform. The signals lie one after the other in `data`; a pass
transforms the columns of each, twiddles, transforms the rows by a pass of its own and transposes
through `scratch`. The kernels' indices are 32-bit. -/

namespace PolarsMetal.Fft
open Interleave Barriers Dft

def u32 (x : ℕ) : ℕ := x % 2 ^ 32

theorem u32_of_lt {x : ℕ} (h : x < 2 ^ 32) : u32 x = x := Nat.mod_eq_of_lt h

inductive FftError where
  | unsupported (n : ℤ)
  /-- a dispatch over no threads -/
  | emptyGrid
deriving DecidableEq, Repr

inductive Pass where
  | base | cols | twiddle | transpose | copy
deriving DecidableEq, Repr

/-- The GPU: how wide a threadgroup may be, and for each dispatch, named by its depth and pass, what
the groups' memories hold, and the order in which groups and threads take their turns. -/
structure Machine (K : Type*) where
  maxThreads : ℕ
  tg : ℕ → Pass → ℕ → TgMem K
  groups : ℕ → Pass → Schedule
  threads : ℕ → Pass → List ℕ

variable {K : Type*}

/-- `dispatch_1d_with_tg` -/
def Machine.dispatch1dWithTg (M : Machine K) (depth : ℕ) (pass : Pass) (nThreads width : ℕ)
    (kernel : ℕ → ℕ → List (Phase (GridMem K))) (data : ℕ → K) : Except FftError (ℕ → K) :=
  if nThreads = 0 then .error .emptyGrid
  else
    let tgWidth := max (min width M.maxThreads) 1
    let groups := (nThreads + tgWidth - 1) / tgWidth
    let size := fun g => min tgWidth (nThreads - g * tgWidth)
    .ok (runGrid groups size (fun g => kernel g (size g)) (M.groups depth pass)
      ⟨data, M.tg depth pass⟩).data

/-- `dispatch_1d`, of a kernel without barriers: all threads of the grid take turns. -/
def Machine.dispatch1d (M : Machine K) (depth : ℕ) (pass : Pass) (nThreads : ℕ)
    (kernel : ℕ → Phase (ℕ → K)) (out : ℕ → K) : Except FftError (ℕ → K) :=
  if nThreads = 0 then .error .emptyGrid
  else
    .ok (runPhase nThreads (kernel nThreads) out
      (finish nThreads (kernel nThreads) (M.threads depth pass)))

/-! The kernels. -/

def fftTranspose (input : ℕ → K) (l1 l2 batch gridSize : ℕ) : Phase (ℕ → K) :=
  let len := u32 (l1 * l2)
  fun gid => (strided gid gridSize (u32 (batch * len))).map fun idx out =>
    let s := idx / len
    let loc := idx % len
    let i := loc / l2
    let j := loc % l2
    Function.update out (u32 (s * len + j * l1 + i)) (input idx)

def fftCopy (input : ℕ → K) (count gridSize : ℕ) : Phase (ℕ → K) := fun gid =>
  (strided gid gridSize count).map fun idx out => Function.update out idx (input idx)

section Kernels

variable [CommRing K] (A : Arith K)

/-- A group that transforms the `n` points at `addr` in place. -/
def inPlace (addr : ℕ → ℕ) (n g size : ℕ) : List (Phase (GridMem K)) :=
  load g size n (fun i data => data (addr i)) ::
      (stockhamPow2Tg A n size).map (liftPhase (GridMem.onTg g)) ++
    [storeOut g size n addr fun i m => m.a i]

def fftStockhamPow2Batched (len tgid size : ℕ) : List (Phase (GridMem K)) :=
  let base := u32 (tgid * len)
  inPlace A (fun i => u32 (base + i)) len tgid size

def fftFourstepCols (l1 l2 tgid size : ℕ) : List (Phase (GridMem K)) :=
  let s := tgid / l2
  let col := tgid % l2
  let base := u32 (s * u32 (l1 * l2) + col)
  inPlace A (fun i => u32 (base + i * l2)) l1 tgid size

def fftTwiddleMul (l2 len batch gridSize : ℕ) : Phase (ℕ → K) := fun gid =>
  (strided gid gridSize (u32 (batch * len))).map fun idx data =>
    let loc := idx % len
    let i := loc / l2
    let j := loc % l2
    Function.update data idx (data idx * A.twiddle (u32 (i * j)) len false)

end Kernels

/-! The driver. -/

/-- `FFT_MAX_RECURSION_DEPTH` -/
def fftMaxRecursionDepth : ℕ := 6

structure Bufs (K : Type*) where
  data : ℕ → K
  scratch : ℕ → K

variable [CommRing K] (M : Machine K) (A : Arith K)

def fftPass (len batch depth : ℕ) (bufs : Bufs K) : Except FftError (Bufs K) :=
  if depth > fftMaxRecursionDepth then .error (.unsupported len)
  else if len ≤ fftBaseMax then do
    let data ← M.dispatch1dWithTg depth .base (batch * len) len
      (fftStockhamPow2Batched A (u32 len)) bufs.data
    .ok { bufs with data := data }
  else do
    let l1 := fftBaseMax
    let l2 := len / l1
    let data ← M.dispatch1dWithTg depth .cols (batch * l2 * l1) l1
      (fftFourstepCols A (u32 l1) (u32 l2)) bufs.data
    let data ← M.dispatch1d depth .twiddle (batch * len)
      (fftTwiddleMul A (u32 l2) (u32 len) (u32 batch)) data
    let bufs ← fftPass l2 (batch * l1) (depth + 1) { bufs with data := data }
    let scratch ← M.dispatch1d depth .transpose (batch * len)
      (fftTranspose bufs.data (u32 l1) (u32 l2) (u32 batch)) bufs.scratch
    let data ← M.dispatch1d depth .copy (batch * len) (fftCopy scratch (u32 (batch * len))) bufs.data
    .ok ⟨data, scratch⟩
termination_by len
decreasing_by
  rename_i h
  exact Nat.div_lt_self (by omega) (by decide)

/-- `fft_recursive_fourstep_buf`. The inverse conjugates on the way in, and conjugates and scales on
the way out. -/
def fftRecursiveFourstepBuf [StarRing K] (input : ℕ → K) (n : ℕ) (inverse : Bool) :
    Except FftError (ℕ → K) := do
  let staged := if inverse then fun i => star (input i) else input
  let bufs ← fftPass M A n 1 0 ⟨staged, fun _ => 0⟩
  .ok (if inverse then fun k => star (bufs.data k) * A.recip n else bufs.data)

end PolarsMetal.Fft
