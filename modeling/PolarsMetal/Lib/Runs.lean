import Mathlib.Data.List.Basic

/-! Runs of a transition function. A run reads its steps off a list of labels, so
quantifying over lists quantifies over every order of steps. -/

namespace Runs

variable {S L : Type*}

def run (step : S → L → S) (s : S) (labels : List L) : S := labels.foldl step s

theorem run_append (step : S → L → S) (s : S) (before after : List L) :
    run step s (before ++ after) = run step (run step s before) after :=
  List.foldl_append

theorem run_invariant {step : S → L → S} {I : S → Prop} (hstep : ∀ s l, I s → I (step s l)) {s : S}
    (hs : I s) (labels : List L) : I (run step s labels) := by
  induction labels generalizing s with
  | nil => exact hs
  | cons l labels ih => exact ih (hstep s l hs)

/-- Every step of the run meets `ok` in the state it is taken from. -/
def Throughout (step : S → L → S) (ok : S → L → Prop) : S → List L → Prop
  | _, [] => True
  | s, l :: labels => ok s l ∧ Throughout step ok (step s l) labels

/-- What every permitted step preserves holds after every permitted run. -/
theorem Throughout.invariant {step : S → L → S} {ok : S → L → Prop} {I : S → Prop}
    (hstep : ∀ s l, ok s l → I s → I (step s l)) {s : S} {labels : List L}
    (hrun : Throughout step ok s labels) (hs : I s) : I (run step s labels) := by
  induction labels generalizing s with
  | nil => exact hs
  | cons l labels ih => exact ih hrun.2 (hstep s l hrun.1 hs)

theorem Throughout.and {step : S → L → S} {ok ok' : S → L → Prop} {s : S} {labels : List L}
    (h : Throughout step ok s labels) (h' : Throughout step ok' s labels) :
    Throughout step (fun s l => ok s l ∧ ok' s l) s labels := by
  induction labels generalizing s with
  | nil => trivial
  | cons l labels ih => exact ⟨⟨h.1, h'.1⟩, ih h.2 h'.2⟩

end Runs
