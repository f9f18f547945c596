import PolarsMetal.Fft.Transform
import PolarsMetal.Lib.Reads
import Mathlib.Data.List.ReduceOption

/-! A signal column's transform: its streams, the device's routine, and the CPU where the device
fails. -/

namespace PolarsMetal.Fft
open Dft Barriers Reads

noncomputable section

/-- `_native.execute_fft` and what is below it: `fault` is a device call that reports an error, and
`M`, `Ms` and `y₀` are the device's runs. -/
structure Device where
  fault : Option String
  M : Machine (Float2 ℝ)
  Ms : ℕ → Machine (Float2 ℝ)
  y₀ : ℕ → Float2 ℝ

inductive FftInput where
  | real (re : List ℝ)
  | complex (re im : List ℝ)

inductive FfiError where
  | device (text : String)
  | staging (what : String) (bytes : ℕ)
  | kernel (e : FftError)

def FftInput.planes : FftInput → Planes ℝ
  | .real re => ⟨fun i => re.getD i 0, fun _ => 0⟩
  | .complex re im => ⟨fun i => re.getD i 0, fun i => im.getD i 0⟩

def FftInput.re : FftInput → List ℝ
  | .real re | .complex re _ => re

/-- `fft_core`; the device has no buffers of no bytes. -/
def fftCore (d : Device) (input : FftInput) (n : ℤ) (inverse : Bool) :
    Except FfiError (List ℝ × List ℝ) :=
  match d.fault with
  | some text => .error (.device text)
  | none =>
    if input.re.length = 0 then .error (.staging "fft re staging" 0)
    else do
      let out ← (fftGpuPlanarCore d.M d.Ms realLiterals realArith realChirp d.y₀ input.planes
        ⟨fun _ => 0, fun _ => 0⟩ n inverse).mapError .kernel
      .ok ((List.range n.toNat).map out.re, (List.range n.toNat).map out.im)

inductive PyError where
  | valueError (text : String)
  | runtimeError (e : FfiError)

/-- `n as usize` -/
def asUsize (n : ℤ) : ℕ := (n % 2 ^ 64).toNat

def executeFft (d : Device) (real : List ℝ) (imag : Option (List ℝ)) (n : ℤ) (inverse : Bool) :
    Except PyError (List ℝ × List ℝ) :=
  if real.length ≠ asUsize n then
    .error (.valueError s!"fft: real stream len {real.length} != n {n}")
  else
    match imag with
    | none => (fftCore d (.real real) n inverse).mapError .runtimeError
    | some im =>
      if im.length ≠ asUsize n then
        .error (.valueError s!"fft: imag stream len {im.length} != n {n}")
      else (fftCore d (.complex real im) n inverse).mapError .runtimeError

/-! The column. -/

inductive Signal where
  | float32 (values : List (Option ℝ))
  /-- `Struct{real:Float32, imag:Float32}`; the fields have no nulls -/
  | realImag (rows : List (Option (ℝ × ℝ)))
  | otherStruct (dtype : String) (len nullCount : ℕ)
  | other (dtype : String) (len nullCount : ℕ)

def Signal.len : Signal → ℕ
  | .float32 values => values.length
  | .realImag rows => rows.length
  | .otherStruct _ len _ | .other _ len _ => len

def Signal.nullCount : Signal → ℕ
  | .float32 values => values.countP Option.isNone
  | .realImag rows => rows.countP Option.isNone
  | .otherStruct _ _ nullCount | .other _ _ nullCount => nullCount

def inputStreams (s : Signal) : Except PyError (List ℝ × Option (List ℝ) × ℕ) :=
  if s.nullCount ≠ 0 then
    .error (.valueError "polars_metal: .metal.fft/.ifft input contains nulls")
  else
    match s with
    | .float32 values => .ok (values.reduceOption, none, values.length)
    | .realImag rows => .ok (rows.reduceOption.map Prod.fst, some (rows.reduceOption.map Prod.snd),
        rows.length)
    | .otherStruct dtype _ _ =>
      .error (.valueError ("polars_metal: .metal.ifft struct input must be Struct\x7breal:Float32, " ++
        "imag:Float32\x7d; got " ++ dtype))
    | .other dtype _ _ =>
      .error (.valueError ("polars_metal: .metal.fft/.ifft requires a Float32 column or " ++
        "Struct\x7breal,imag\x7d; got " ++ dtype))

def opFft : ℤ := 0

def opIfft : ℤ := 1

/-- `_cpu_fft`; `numpy inverse` is `np.fft.fft`, or `np.fft.ifft` if `inverse`. -/
def cpuFft (numpy : Bool → List ℂ → List ℂ) (re : List ℝ) (im : Option (List ℝ)) (inverse : Bool) :
    List ℝ × List ℝ :=
  let signal := match im with
    | none => re.map fun x : ℝ => (x : ℂ)
    | some im => (re.zip im).map fun p => ⟨p.1, p.2⟩
  let out := numpy inverse signal
  (out.map Complex.re, out.map Complex.im)

/-- `_run_binding`: the fields `real` and `imag` of the output column. -/
def runBinding (d : Device) (numpy : Bool → List ℂ → List ℂ) (payload : ℤ) (s : Signal) :
    Except PyError (List ℝ × List ℝ) := do
  let (re, im, n) ← inputStreams s
  if n = 0 then return ([], [])
  let inverse := payload == opIfft
  match executeFft d re im n inverse with
  | .ok out => return out
  | .error (.runtimeError _) => return cpuFft numpy re im inverse
  | .error e => .error e

/-! What a column's binding returns. -/

/-- The column holds the samples, and no nulls. -/
def Signal.Holds (xs : List ℂ) : Signal → Prop
  | .float32 values => ∃ re : List ℝ, values = re.map some ∧ xs = re.map fun x : ℝ => (x : ℂ)
  | .realImag rows => rows = xs.map fun z => some (z.re, z.im)
  | _ => False

/-- The transform of a list of samples. -/
def transform (inverse : Bool) (xs : List ℂ) : List ℂ :=
  (List.range xs.length).map (fourier (fun t => xs.getD t 0) xs.length inverse)

/-- The fields of the column of some samples. -/
def fields (xs : List ℂ) : List ℝ × List ℝ := (xs.map Complex.re, xs.map Complex.im)

def fromComplex (z : ℂ) : Float2 ℝ := ⟨z.re, z.im⟩

theorem toComplex_fromComplex (z : ℂ) : toComplex (fromComplex z) = z := rfl

theorem fourier_eq_spectrum (x : ℕ → ℂ) (n : ℕ) (inverse : Bool) (k : ℕ) :
    fourier x n inverse k = toComplex (spectrum (fun t => fromComplex (x t)) n inverse k) := by
  rw [toComplex_spectrum]
  simp only [toComplex_fromComplex]

theorem length_transform (inverse : Bool) (xs : List ℂ) : (transform inverse xs).length = xs.length := by
  unfold transform
  rw [List.length_map, List.length_range]

theorem fourier_congr {x y : ℕ → ℂ} {n : ℕ} (h : ∀ t < n, x t = y t) (inverse : Bool) (k : ℕ) :
    fourier x n inverse k = fourier y n inverse k := by
  rw [fourier_eq_spectrum, fourier_eq_spectrum,
    spectrum_congr (fun t ht => congrArg fromComplex (h t ht))]

/-- The inverse transform undoes the forward one. -/
theorem spectrum_spectrum (x : ℕ → Float2 ℝ) {n k : ℕ} (hk : k < n) :
    spectrum (spectrum x n false) n true k = x k := by
  have hn : 0 < n := by omega
  have hn' : (n : ℝ) ≠ 0 := Nat.cast_ne_zero.2 hn.ne'
  have hforward : ∀ i, spectrum x n false i = dft (rootOf n false) n x i := fun i =>
    Float2.ext (one_mul _) (one_mul _)
  have hback : rootOf n false * rootOf n true = 1 := (mul_comm _ _).trans (rootOf_back n)
  have hcast : ((n : ℕ) : Float2 ℝ) * realArith.recip n = 1 := realArith_recip n hn
  calc spectrum (spectrum x n false) n true k
      = dftReference (rootOf n) realArith.recip (spectrum x n false) n true k :=
        (dftReference_eq_spectrum _ n true k).symm
    _ = dft (rootOf n true) n (dft (rootOf n false) n x) k * realArith.recip n := by
        rw [dftReference_eq, if_pos rfl, dft_congr (fun i _ => hforward i)]
    _ = n * x k * realArith.recip n := by rw [dft_dft (rootOf_principal hn false) hback x hk]
    _ = x k := by rw [mul_right_comm, hcast, one_mul]

theorem getElem_transform (inverse : Bool) (xs : List ℂ) {k : ℕ}
    (hk : k < (transform inverse xs).length) : (transform inverse xs)[k] =
      fourier (fun t => xs.getD t 0) xs.length inverse k := by
  simp only [transform, List.getElem_map, List.getElem_range]

theorem transform_transform (xs : List ℂ) : transform true (transform false xs) = xs := by
  refine List.ext_getElem (by rw [length_transform, length_transform]) fun k hk hk' => ?_
  have hpoint : ∀ t < xs.length, (transform false xs).getD t 0 =
      toComplex (spectrum (fun t => fromComplex (xs.getD t 0)) xs.length false t) := by
    intro t ht
    rw [getD_of_lt _ (by rwa [length_transform]), getElem_transform, fourier_eq_spectrum]
  rw [getElem_transform, length_transform, fourier_congr hpoint, fourier_eq_spectrum]
  have hround := spectrum_spectrum (fun t => fromComplex (xs.getD t 0)) hk'
  refine (congrArg toComplex hround).trans ?_
  rw [toComplex_fromComplex, getD_of_lt _ hk']

section Binding

variable {d : Device} {numpy : Bool → List ℂ → List ℂ} {s : Signal} {xs : List ℂ}

theorem asUsize_natCast {n : ℕ} (hn : n < 2 ^ 63) : asUsize n = n := by
  unfold asUsize
  omega

/-- The routine's lists of the planes' points. -/
theorem fftCore_transform (hM : fftBaseMax ≤ d.M.maxThreads)
    (hMs : ∀ i, fftBaseMax ≤ (d.Ms i).maxThreads) {input : FftInput} (hne : xs ≠ [])
    (hre : input.re.length = xs.length)
    (hplanes : ∀ t < xs.length, input.planes.point t = fromComplex (xs.getD t 0)) (inverse : Bool) :
    (∃ e, fftCore d input xs.length inverse = .error e) ∨
      fftCore d input xs.length inverse = .ok (fields (transform inverse xs)) := by
  unfold fftCore
  rcases d.fault with _ | text
  · have hpos : ¬ input.re.length = 0 := fun h =>
      hne (List.length_eq_zero_iff.1 (hre.symm.trans h))
    dsimp only
    rw [if_neg hpos]
    obtain ⟨hok, herror⟩ := @fftGpuPlanarCore_int d.M d.Ms d.y₀ hM hMs input.planes
      ⟨fun _ => 0, fun _ => 0⟩ xs.length inverse
    by_cases hsize : Supported xs.length
    · obtain ⟨out, hout, hpoint⟩ := hok hsize
      right
      rw [hout]
      refine congrArg Except.ok ?_
      have hcell : ∀ k < xs.length, toComplex (out.point k) =
          fourier (fun t => xs.getD t 0) xs.length inverse k := by
        intro k hk
        rw [hpoint k (by rwa [Int.toNat_natCast]), Int.toNat_natCast, fourier_eq_spectrum,
          spectrum_congr hplanes]
      unfold fields transform
      rw [Int.toNat_natCast, List.map_map, List.map_map]
      refine Prod.ext (List.map_congr_left fun k hk => ?_) (List.map_congr_left fun k hk => ?_)
      · exact congrArg Complex.re (hcell k (List.mem_range.1 hk))
      · exact congrArg Complex.im (hcell k (List.mem_range.1 hk))
    · left
      rw [herror hsize]
      exact ⟨_, rfl⟩
  · exact .inl ⟨_, rfl⟩

theorem reduceOption_some {α : Type} (xs : List α) : (xs.map some).reduceOption = xs := by
  induction xs with
  | nil => rfl
  | cons x xs ih => rw [List.map_cons, List.reduceOption_cons_of_some, ih]

/-- The streams of a column of samples. -/
structure IsStreams (xs : List ℂ) (re : List ℝ) (im : Option (List ℝ)) : Prop where
  re : re = xs.map Complex.re
  im : im = none ∧ (∀ z ∈ xs, z.im = 0) ∨ im = some (xs.map Complex.im)

theorem inputStreams_of_holds (hs : s.Holds xs) :
    ∃ re im, inputStreams s = .ok (re, im, xs.length) ∧ IsStreams xs re im := by
  unfold inputStreams
  cases s with
  | float32 values =>
    obtain ⟨re, rfl, rfl⟩ := hs
    have hnull : (Signal.float32 (re.map some)).nullCount = 0 := by
      refine List.countP_eq_zero.2 fun v hv => ?_
      obtain ⟨x, -, rfl⟩ := List.mem_map.1 hv
      exact Bool.false_ne_true
    rw [if_neg (not_not.2 hnull)]
    refine ⟨re, none, ?_, ?_, .inl ⟨rfl, fun z hz => ?_⟩⟩
    · dsimp only
      rw [reduceOption_some, List.length_map, List.length_map]
    · rw [List.map_map]
      exact (List.map_id re).symm
    · obtain ⟨x, -, rfl⟩ := List.mem_map.1 hz
      exact Complex.ofReal_im x
  | realImag rows =>
    obtain rfl : rows = xs.map fun z => some (z.re, z.im) := hs
    have hrows : (xs.map fun z => some (z.re, z.im)) = (xs.map fun z => (z.re, z.im)).map some := by
      rw [List.map_map]
      rfl
    have hnull : (Signal.realImag (xs.map fun z => some (z.re, z.im))).nullCount = 0 := by
      refine List.countP_eq_zero.2 fun v hv => ?_
      obtain ⟨z, -, rfl⟩ := List.mem_map.1 hv
      exact Bool.false_ne_true
    rw [if_neg (not_not.2 hnull)]
    refine ⟨xs.map Complex.re, some (xs.map Complex.im), ?_, rfl, .inr rfl⟩
    dsimp only
    rw [List.length_map, hrows, reduceOption_some, List.map_map, List.map_map]
    rfl
  | otherStruct | other => exact hs.elim

/-- The call returns the transform, or an error for which there is the CPU. -/
theorem executeFft_transform (hM : fftBaseMax ≤ d.M.maxThreads)
    (hMs : ∀ i, fftBaseMax ≤ (d.Ms i).maxThreads) (hne : xs ≠ []) (hlen : xs.length < 2 ^ 63)
    {re : List ℝ} {im : Option (List ℝ)} (hstreams : IsStreams xs re im) (inverse : Bool) :
    (∃ e, executeFft d re im xs.length inverse = .error (.runtimeError e)) ∨
      executeFft d re im xs.length inverse = .ok (fields (transform inverse xs)) := by
  obtain ⟨rfl, him⟩ := hstreams
  have hguard : ∀ f : ℂ → ℝ, ¬ (xs.map f).length ≠ asUsize xs.length := fun f h =>
    h (by rw [List.length_map, asUsize_natCast hlen])
  have hread : ∀ f : ℂ → ℝ, ∀ t < xs.length, (xs.map f).getD t 0 = f (xs.getD t 0) := by
    intro f t ht
    rw [getD_of_lt _ (by rwa [List.length_map]), getD_of_lt _ ht, List.getElem_map]
  have hcore : ∀ input : FftInput, input.re = xs.map Complex.re →
      (∀ t < xs.length, input.planes.point t = fromComplex (xs.getD t 0)) →
      (∃ e, (fftCore d input xs.length inverse).mapError PyError.runtimeError =
        .error (.runtimeError e)) ∨
      (fftCore d input xs.length inverse).mapError PyError.runtimeError =
        .ok (fields (transform inverse xs)) := by
    intro input hre hplanes
    have hlength : input.re.length = xs.length := by rw [hre, List.length_map]
    rcases fftCore_transform hM hMs hne hlength hplanes inverse with ⟨e, he⟩ | hok
    · exact .inl ⟨e, by rw [he]; rfl⟩
    · exact .inr (by rw [hok]; rfl)
  unfold executeFft
  rw [if_neg (hguard Complex.re)]
  rcases him with ⟨rfl, hzero⟩ | rfl
  · refine hcore (.real _) rfl fun t ht => Float2.ext (hread Complex.re t ht) ?_
    have hmem : xs.getD t 0 ∈ xs := by
      rw [getD_of_lt _ ht]
      exact List.getElem_mem ht
    exact (hzero _ hmem).symm
  · dsimp only
    rw [if_neg (hguard Complex.im)]
    exact hcore (.complex _ _) rfl fun t ht =>
      Float2.ext (hread Complex.re t ht) (hread Complex.im t ht)

theorem cpuFft_transform (hnumpy : ∀ inverse xs, numpy inverse xs = transform inverse xs)
    {re : List ℝ} {im : Option (List ℝ)} (hstreams : IsStreams xs re im) (inverse : Bool) :
    cpuFft numpy re im inverse = fields (transform inverse xs) := by
  obtain ⟨rfl, ⟨rfl, hzero⟩ | rfl⟩ := hstreams
  · have hsignal : (xs.map Complex.re).map (fun x : ℝ => (x : ℂ)) = xs := by
      rw [List.map_map]
      refine (List.map_congr_left fun z hz => ?_).trans (List.map_id xs)
      exact Complex.ext (Complex.ofReal_re _) ((Complex.ofReal_im _).trans (hzero z hz).symm)
    unfold cpuFft
    dsimp only
    rw [hsignal, hnumpy]
    rfl
  · have hsignal : ((xs.map Complex.re).zip (xs.map Complex.im)).map
        (fun p => (⟨p.1, p.2⟩ : ℂ)) = xs := by
      rw [List.zip_map', List.map_map]
      exact List.map_id xs
    unfold cpuFft
    dsimp only
    rw [hsignal, hnumpy]
    rfl

/-- Without nulls the binding returns the transform, from the device or from the CPU. -/
theorem runBinding_transform (hM : fftBaseMax ≤ d.M.maxThreads)
    (hMs : ∀ i, fftBaseMax ≤ (d.Ms i).maxThreads)
    (hnumpy : ∀ inverse xs, numpy inverse xs = transform inverse xs) (hs : s.Holds xs)
    (hlen : xs.length < 2 ^ 63) (payload : ℤ) :
    runBinding d numpy payload s = .ok (fields (transform (payload == opIfft) xs)) := by
  obtain ⟨re, im, hinput, hstreams⟩ := inputStreams_of_holds hs
  unfold runBinding
  rw [hinput]
  by_cases hne : xs = []
  · subst hne
    rfl
  · have hpos : ¬ xs.length = 0 := fun h => hne (List.length_eq_zero_iff.1 h)
    show (if xs.length = 0 then _ else _) = _
    rw [if_neg hpos]
    rcases executeFft_transform hM hMs hne hlen hstreams (payload == opIfft) with ⟨e, he⟩ | hok
    · rw [he]
      exact congrArg Except.ok (cpuFft_transform hnumpy hstreams _)
    · rw [hok]
      rfl

end Binding

/-- The two operations of the namespace undo each other: for every column without nulls, of any
length, the forward binding returns its transform and the inverse binding of that gives the column's
samples, whether the devices serve the calls or the CPU does. -/
theorem fft_ifft {d d' : Device} {numpy : Bool → List ℂ → List ℂ}
    (hM : fftBaseMax ≤ d.M.maxThreads) (hMs : ∀ i, fftBaseMax ≤ (d.Ms i).maxThreads)
    (hM' : fftBaseMax ≤ d'.M.maxThreads) (hMs' : ∀ i, fftBaseMax ≤ (d'.Ms i).maxThreads)
    (hnumpy : ∀ inverse xs, numpy inverse xs = transform inverse xs) {s : Signal} {xs : List ℂ}
    (hs : s.Holds xs) (hlen : xs.length < 2 ^ 63) :
    ∃ ys : List ℂ, ys = transform false xs ∧
      runBinding d numpy opFft s = .ok (fields ys) ∧
      runBinding d' numpy opIfft (.realImag (ys.map fun z => some (z.re, z.im))) =
        .ok (fields xs) := by
  refine ⟨_, rfl, runBinding_transform hM hMs hnumpy hs hlen opFft, ?_⟩
  have hcolumn : (Signal.realImag ((transform false xs).map fun z => some (z.re, z.im))).Holds
      (transform false xs) := rfl
  rw [runBinding_transform hM' hMs' hnumpy hcolumn (by rwa [length_transform])]
  exact congrArg (fun ys => Except.ok (fields ys)) (transform_transform xs)

/-- A device that serves every call and one that serves none. -/
def devices (serves : Bool) : Device :=
  ⟨if serves then none else some "metal device unavailable", oneByOne 1024, fun _ => oneByOne 1024,
    fun _ => 0⟩

theorem fft_ifft_three :
    ∃ ys : List ℂ, ys = transform false [1, 2, 4] ∧
      runBinding (devices true) transform opFft (.float32 [some 1, some 2, some 4]) =
        .ok (fields ys) ∧
      runBinding (devices false) transform opIfft (.realImag (ys.map fun z => some (z.re, z.im))) =
        .ok (fields [1, 2, 4]) :=
  @fft_ifft (devices true) (devices false) transform (Nat.le_refl 1024) (fun _ => Nat.le_refl 1024)
    (Nat.le_refl 1024) (fun _ => Nat.le_refl 1024) (fun _ _ => rfl) (.float32 [some 1, some 2, some 4]) [1, 2, 4]
    ⟨[1, 2, 4], rfl, by simp⟩ (by decide)

end

end PolarsMetal.Fft
