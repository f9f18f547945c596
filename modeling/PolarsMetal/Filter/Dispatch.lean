import PolarsMetal.Filter.PredicateSpec
import PolarsMetal.Lib.TailCalls

/-! The two ways to run a filter. `_dispatch_filter` compacts every column on the device and hands
frames it has no kernel for to `_filter_via_polars`, which lets Polars do the compaction and hands
frames whose predicate it cannot evaluate back. -/

namespace PolarsMetal.Filter
open Fusion Wire TailCalls

/-- `_DTYPE_TO_TAG`, on the name of a dtype. -/
def dtypeToTag : PolarsDtype → Option DtypeTag
  | .int64 => some .i64
  | .float64 => some .f64
  | .boolean => some .bool
  | .int32 => some .i32
  | .float32 => some .f32
  | .string => some .utf8
  | .other name => if name = "Utf8" then some .utf8 else none
  | _ => none

def isString (dtype : PolarsDtype) : Bool := dtype = .string || dtype = .other "Utf8"

/-- The columns the compaction kernels do not take. -/
def uncompactable (dtype : PolarsDtype) : Bool := isString dtype || (dtypeToTag dtype).isNone

inductive DispatchError where
  | predicate (e : PredicateError)
  | wire (e : PyError)
  | native (message : String)
  | unsupportedDtype (dtype : PolarsDtype) (name : String)
  | columnCount (got expected : ℕ)
  | rowCount (name : String) (got expected : ℕ)
  | indexError
deriving DecidableEq

/-- What a call raises; `except Exception` lets interrupts and native panics through. -/
inductive Raised where
  | exception (e : DispatchError)
  | baseException
deriving DecidableEq

/-- The input of a filter node: a scan, or a plan the native executor runs. -/
inductive FilterInput (P : Type) where
  | scan
  | node (plan : P)

structure FilterPlan (P : Type) where
  input : FilterInput P
  predicate : PredicateAst

/-- What the two functions call. The predicate's evaluations are numbered in the order they are
made: a later one may go otherwise than an earlier one. -/
structure Runtime (P : Type) where
  executePlan : PolarsFrame → P → Except Raised PolarsFrame
  evaluatePredicate : ℕ → PolarsFrame → PredicateAst → ℕ → Except Raised Buffers
  polarsFilter : PolarsFrame → List (Option Cell) → Except Raised (List Wire.Series)
  materialize : PolarsSeries → ArrowArray
  executeFilterCompact : Buffers → ℕ → List WireColumn →
    Except Raised (List (List UInt8 × List UInt8 × ℕ))

variable {P : Type} (rt : Runtime P) (df : PolarsFrame) (plan : FilterPlan P)

def resolveUpstream : Except Raised PolarsFrame :=
  match plan.input with
  | .scan => .ok df
  | .node upstreamPlan => rt.executePlan df upstreamPlan

def PolarsFrame.series (df : PolarsFrame) : List Wire.Series :=
  df.columns.map (fun c => ⟨c.1, c.2.cells⟩)

def planDtype : DtypeTag → PlanDtype
  | .i64 => .i64
  | .f64 => .f64
  | .bool => .bool
  | .i32 => .i32
  | .f32 => .f32
  | .i8 => .i8
  | .i16 => .i16
  | .u8 => .u8
  | .u16 => .u16
  | .u32 => .u32
  | .utf8 => .utf8

/-- The buffers of one column to compact. -/
def columnInput (nRows : ℕ) (column : String × PolarsSeries) : Except Raised WireColumn :=
  match dtypeToTag column.2.dtype with
  | none => .error (.exception (.unsupportedDtype column.2.dtype column.1))
  | some tag =>
    match dataAndValidForDtype (rt.materialize column.2) nRows (planDtype tag) with
    | .error e => .error (.exception (.predicate e))
    | .ok b => .ok ⟨column.1, tag, b.1, b.2⟩

/-- One column's survivors, which must be as many as the first column's. -/
def reassembleColumn (nOut : ℕ) (column : WireColumn × List UInt8 × List UInt8 × ℕ) :
    Except Raised Wire.Series :=
  let (c, data, valid, nOutI) := column
  if nOutI ≠ nOut then .error (.exception (.rowCount c.name nOutI nOut))
  else
    match assembleSeries ⟨c.name, c.tag, data, valid⟩ nOut with
    | .error e => .error (.exception (.wire e))
    | .ok s => .ok s

/-- The compaction of `_dispatch_filter`, once the columns are known to be compactable. -/
def compactColumns (upstream : PolarsFrame) (pred : Buffers) : Except Raised (List Wire.Series) := do
  let columnInputs ← upstream.columns.mapM (columnInput rt upstream.height)
  let results ← rt.executeFilterCompact pred upstream.height columnInputs
  if results.length ≠ columnInputs.length then
    throw (.exception (.columnCount results.length columnInputs.length))
  match results with
  | [] => throw (.exception .indexError)
  | first :: _ =>
    let seriesList ← (columnInputs.zip results).mapM (reassembleColumn first.2.2)
    match frameOf seriesList with
    | .error e => throw (.exception (.wire e))
    | .ok frame => return frame

/-- The two functions. -/
inductive FilterFunction where
  | dispatchFilter | filterViaPolars
deriving DecidableEq

/-- A call, with the number of evaluations made before it. -/
structure FilterCall where
  function : FilterFunction
  evaluations : ℕ

abbrev FilterStep := Step FilterCall (Except Raised (List Wire.Series))

def filterViaPolars (evaluations : ℕ) : FilterStep :=
  match resolveUpstream rt df plan with
  | .error e => .done (.error e)
  | .ok upstream =>
    if upstream.height = 0 then .done (.ok upstream.series)
    else
      match rt.evaluatePredicate evaluations upstream plan.predicate upstream.height with
      | .error (.exception _) => .call ⟨.dispatchFilter, evaluations + 1⟩
      | .error .baseException => .done (.error .baseException)
      | .ok pred => .done (rt.polarsFilter upstream (filterMask pred upstream.height))

def dispatchFilter (evaluations : ℕ) : FilterStep :=
  match resolveUpstream rt df plan with
  | .error e => .done (.error e)
  | .ok upstream =>
    if upstream.columns.any (fun c => uncompactable c.2.dtype) then
      .call ⟨.filterViaPolars, evaluations⟩
    else
      match rt.evaluatePredicate evaluations upstream plan.predicate upstream.height with
      | .error e => .done (.error e)
      | .ok pred => .done (compactColumns rt upstream pred)

def filterBody (c : FilterCall) : FilterStep :=
  match c.function with
  | .dispatchFilter => dispatchFilter rt df plan c.evaluations
  | .filterViaPolars => filterViaPolars rt df plan c.evaluations

/-! When the two stop calling each other. -/

/-- The outcome does not send `_filter_via_polars` back to the device. -/
def Raised.Leaves : Except Raised Buffers → Prop
  | .error (.exception _) => False
  | .error .baseException => True
  | .ok _ => True

/-- Nothing keeps the two functions apart: the frame has a column only Polars can filter, rows to
filter, and a predicate no evaluation of which succeeds. -/
def PassedBackAndForth (upstream : PolarsFrame) : Prop :=
  upstream.columns.any (fun c => uncompactable c.2.dtype) = true ∧ upstream.height ≠ 0 ∧
    ∀ k, ¬ Raised.Leaves (rt.evaluatePredicate k upstream plan.predicate upstream.height)

variable {rt df plan}

theorem exception_of_not_leaves {x : Except Raised Buffers} (h : ¬ Raised.Leaves x) :
    ∃ e, x = .error (.exception e) := by
  cases x with
  | ok b => exact absurd trivial h
  | error r =>
    cases r with
    | exception e => exact ⟨e, rfl⟩
    | baseException => exact absurd trivial h

section Upstream

variable {upstream : PolarsFrame} (hup : resolveUpstream rt df plan = .ok upstream)

include hup

theorem filterViaPolars_call {k : ℕ} {next : FilterCall}
    (h : filterViaPolars rt df plan k = .call next) :
    next = ⟨.dispatchFilter, k + 1⟩ ∧ upstream.height ≠ 0 ∧
      ¬ Raised.Leaves (rt.evaluatePredicate k upstream plan.predicate upstream.height) := by
  unfold filterViaPolars at h
  simp only [hup] at h
  split_ifs at h with hrows
  generalize rt.evaluatePredicate k upstream plan.predicate upstream.height = x at h
  match x, h with
  | .error (.exception _), h =>
    injection h with h
    exact ⟨h.symm, hrows, id⟩

theorem dispatchFilter_call {k : ℕ} {next : FilterCall}
    (h : dispatchFilter rt df plan k = .call next) :
    next = ⟨.filterViaPolars, k⟩ ∧
      upstream.columns.any (fun c => uncompactable c.2.dtype) = true := by
  unfold dispatchFilter at h
  simp only [hup] at h
  split_ifs at h with hcol
  · injection h with h
    exact ⟨h.symm, hcol⟩
  · split at h <;> cases h

/-- Such a frame is passed back and forth for ever. -/
theorem not_terminates_of_passed (h : PassedBackAndForth rt plan upstream) (c : FilterCall) :
    ¬ Terminates (filterBody rt df plan) c := by
  obtain ⟨hcol, hrows, heval⟩ := h
  refine @not_terminates _ _ _ (fun _ => True) (fun c _ => ?_) c trivial
  obtain ⟨function, k⟩ := c
  cases function with
  | dispatchFilter =>
    refine ⟨⟨.filterViaPolars, k⟩, ?_, trivial⟩
    simp only [filterBody, dispatchFilter, hup, if_pos hcol]
  | filterViaPolars =>
    obtain ⟨e, he⟩ := exception_of_not_leaves (heval k)
    refine ⟨⟨.dispatchFilter, k + 1⟩, ?_, trivial⟩
    simp only [filterBody, filterViaPolars, hup, if_neg hrows, he]

/-- A frame the device can take is passed on at most once. -/
theorem terminates_of_compactable
    (hcol : ¬ upstream.columns.any (fun c => uncompactable c.2.dtype) = true) (c : FilterCall) :
    Terminates (filterBody rt df plan) c := by
  have hdispatch : ∀ k, Terminates (filterBody rt df plan) ⟨.dispatchFilter, k⟩ := by
    intro k
    cases hbody : filterBody rt df plan ⟨.dispatchFilter, k⟩ with
    | done r => exact terminates_of_done hbody
    | call next => exact absurd (dispatchFilter_call hup hbody).2 hcol
  obtain ⟨function, k⟩ := c
  cases function with
  | dispatchFilter => exact hdispatch k
  | filterViaPolars =>
    cases hbody : filterBody rt df plan ⟨.filterViaPolars, k⟩ with
    | done r => exact terminates_of_done hbody
    | call next =>
      obtain ⟨rfl, -, -⟩ := filterViaPolars_call hup hbody
      exact terminates_of_call hbody (hdispatch (k + 1))

/-- Each round uses up one evaluation, and the `m`-th one is not passed on. -/
theorem terminates_of_leaves {m : ℕ}
    (hm : upstream.height = 0 ∨
      Raised.Leaves (rt.evaluatePredicate m upstream plan.predicate upstream.height))
    (function : FilterFunction) : Terminates (filterBody rt df plan) ⟨function, 0⟩ := by
  refine @terminates_of_measure _ _ _ (fun c : FilterCall => c.evaluations ≤ m)
    (fun c : FilterCall => 2 * (m - c.evaluations) + if c.function = .dispatchFilter then 1 else 0)
    (fun c next hle hbody => ?_) ⟨function, 0⟩ (Nat.zero_le m)
  obtain ⟨f, k⟩ := c
  cases f with
  | dispatchFilter =>
    obtain ⟨rfl, -⟩ := dispatchFilter_call hup hbody
    exact ⟨hle, by simp⟩
  | filterViaPolars =>
    obtain ⟨rfl, hrows, hleaves⟩ := filterViaPolars_call hup hbody
    have hne : k ≠ m := by
      rintro rfl
      exact hm.elim hrows hleaves
    have hlt : k < m := lt_of_le_of_ne hle hne
    refine ⟨hlt, ?_⟩
    simp only [if_true]
    rw [if_neg (by decide)]
    omega

end Upstream

/-- Filter dispatch, entered by either function, ends unless the upstream frame has a column the
device cannot compact and at least one row, and every evaluation of the predicate raises an
exception. -/
theorem filterDispatch_terminates_iff (rt : Runtime P) (df : PolarsFrame) (plan : FilterPlan P)
    (function : FilterFunction) :
    Terminates (filterBody rt df plan) ⟨function, 0⟩ ↔
      ∀ upstream, resolveUpstream rt df plan = .ok upstream → ¬ PassedBackAndForth rt plan upstream := by
  refine ⟨fun h upstream hup hpassed => not_terminates_of_passed hup hpassed _ h, fun h => ?_⟩
  cases hup : resolveUpstream rt df plan with
  | error e =>
    refine @terminates_of_done _ _ _ _ (.error e) ?_
    cases function <;> simp only [filterBody, dispatchFilter, filterViaPolars, hup]
  | ok upstream =>
    by_cases hcol : upstream.columns.any (fun c => uncompactable c.2.dtype) = true
    · have hescape : upstream.height = 0 ∨ ∃ m,
          Raised.Leaves (rt.evaluatePredicate m upstream plan.predicate upstream.height) := by
        by_contra hnot
        push Not at hnot
        exact h upstream hup ⟨hcol, hnot.1, hnot.2⟩
      obtain hrows | ⟨m, hm⟩ := hescape
      · exact @terminates_of_leaves _ _ _ _ _ hup 0 (Or.inl hrows) function
      · exact terminates_of_leaves hup (Or.inr hm) function
    · exact terminates_of_compactable hup hcol _

/-- An integer column beside a date. -/
def datedFrame : PolarsFrame where
  columns := [("a", ⟨.int64, [some (.int 0)]⟩), ("d", ⟨.other "Date", [some (.int 0)]⟩)]
  height := 1
  length_eq := by decide
  typed := by simp [PolarsSeries.Typed, hasDtype, mapDtype, intRange]

/-- `a < 2 ^ 63`; the literal does not fit the comparison kernel's scalar. -/
def wideLiteral : FilterPlan Unit := ⟨.scan, .compare .lt (.column "a" .i64) (.literalI64 (2 ^ 63)) .i64⟩

/-- The predicate evaluator of the source. -/
def sampleRuntime : Runtime Unit where
  executePlan df _ := .ok df
  evaluatePredicate _ upstream pred nRows :=
    match evaluatePredicate upstream nRows sampleSites pred with
    | .ok b => .ok b
    | .error e => .error (.exception (.predicate e))
  polarsFilter upstream _ := .ok upstream.series
  materialize := encodeArrow
  executeFilterCompact _ nRows columns := .ok (columns.map (fun c => (c.data, c.valid, nRows)))

theorem evaluate_wideLiteral : evaluatePredicate datedFrame 1 sampleSites wideLiteral.predicate =
    .error (.literalOverflow (2 ^ 63)) := by
  decide +kernel

theorem filterDispatch_not_total : ¬ ∀ (rt : Runtime Unit) (df : PolarsFrame) (plan : FilterPlan Unit)
    (function : FilterFunction), Terminates (filterBody rt df plan) ⟨function, 0⟩ := by
  intro h
  refine @not_terminates_of_passed _ sampleRuntime datedFrame wideLiteral datedFrame rfl
    ⟨by decide, by decide, fun k => ?_⟩ ⟨.dispatchFilter, 0⟩ (h _ _ _ _)
  have hraise : sampleRuntime.evaluatePredicate k datedFrame wideLiteral.predicate datedFrame.height =
      .error (.exception (.predicate (.literalOverflow (2 ^ 63)))) := by
    simp only [sampleRuntime, show datedFrame.height = 1 from rfl, evaluate_wideLiteral]
  rw [hraise]
  exact id

end PolarsMetal.Filter
