import Mathlib.Tactic

/-! Functions that call one another in tail position. A call either finishes with a result or
becomes another call; it terminates when finitely many calls lead to a result. -/

namespace TailCalls

variable {σ ρ : Type*}

inductive Step (σ ρ : Type*) where
  | done (result : ρ)
  | call (next : σ)

variable (body : σ → Step σ ρ)

/-- What a call comes to within a number of calls. -/
def run : ℕ → σ → Option ρ
  | 0, _ => none
  | fuel + 1, s =>
    match body s with
    | .done r => some r
    | .call next => run fuel next

def Terminates (s : σ) : Prop := ∃ fuel r, run body fuel s = some r

def Returns (s : σ) (r : ρ) : Prop := ∃ fuel, run body fuel s = some r

variable {body}

theorem returns_of_done {s : σ} {r : ρ} (h : body s = .done r) : Returns body s r :=
  ⟨1, by rw [run, h]⟩

theorem returns_of_call {s next : σ} {r : ρ} (h : body s = .call next) (hnext : Returns body next r) :
    Returns body s r := by
  obtain ⟨fuel, hrun⟩ := hnext
  exact ⟨fuel + 1, by rw [run, h]; exact hrun⟩

theorem terminates_of_done {s : σ} {r : ρ} (h : body s = .done r) : Terminates body s :=
  ⟨1, r, by rw [run, h]⟩

theorem terminates_of_call {s next : σ} (h : body s = .call next) (hnext : Terminates body next) :
    Terminates body s := by
  obtain ⟨fuel, r, hrun⟩ := hnext
  exact ⟨fuel + 1, r, by rw [run, h]; exact hrun⟩

/-- A set of calls none of which finishes, closed under what they call. -/
theorem not_terminates {Inv : σ → Prop} (hinv : ∀ s, Inv s → ∃ next, body s = .call next ∧ Inv next)
    {s : σ} (hs : Inv s) : ¬ Terminates body s := by
  have hrun : ∀ fuel s, Inv s → run body fuel s = none := by
    intro fuel
    induction fuel with
    | zero => intro s _; rfl
    | succ fuel ih =>
      intro s hs
      obtain ⟨next, hbody, hnext⟩ := hinv s hs
      rw [run, hbody]
      exact ih next hnext
  intro h
  obtain ⟨fuel, r, hsome⟩ := h
  rw [hrun fuel s hs] at hsome
  cases hsome

/-- A number that falls at every call. -/
theorem terminates_of_measure {Inv : σ → Prop} (measure : σ → ℕ)
    (hstep : ∀ s next, Inv s → body s = .call next → Inv next ∧ measure next < measure s)
    {s : σ} (hs : Inv s) : Terminates body s := by
  induction hn : measure s using Nat.strong_induction_on generalizing s with
  | _ n ih =>
    cases hbody : body s with
    | done r => exact terminates_of_done hbody
    | call next =>
      obtain ⟨hnext, hlt⟩ := hstep s next hs hbody
      exact terminates_of_call hbody (ih _ (hn ▸ hlt) hnext rfl)

end TailCalls
