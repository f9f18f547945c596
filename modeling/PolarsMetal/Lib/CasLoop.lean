import PolarsMetal.Lib.Interleave

/-! Read-modify-write loops by compare-and-swap. A thread reads its cell, computes what to put there,
and swaps that in if the cell still holds what was read; otherwise it computes again from what the
swap found. A weak swap may also fail for no reason. Each loop takes effect at one moment, so a run
of the loops is a run of atomic updates. -/

namespace CasLoop
open Interleave Runs

variable {V : Type*}

/-- An update of a cell; `none` when the loop has nothing to write. -/
structure Update (V : Type*) where
  cell : ℕ
  next : V → Option V

/-- The update done at once. -/
def Update.apply (mem : ℕ → V) (u : Update V) : ℕ → V :=
  match u.next (mem u.cell) with
  | some new => Function.update mem u.cell new
  | none => mem

theorem Update.apply_self (mem : ℕ → V) (u : Update V) :
    u.apply mem u.cell = (u.next (mem u.cell)).getD (mem u.cell) := by
  unfold Update.apply
  cases u.next (mem u.cell) with
  | none => rfl
  | some new => exact Function.update_self ..

theorem Update.apply_of_ne (mem : ℕ → V) {u : Update V} {c : ℕ} (h : c ≠ u.cell) :
    u.apply mem c = mem c := by
  unfold Update.apply
  cases u.next (mem u.cell) with
  | none => rfl
  | some new => exact Function.update_of_ne h ..

/-- `seen t` is what thread `t` last read, in the loop that it is in. -/
structure State (V : Type*) where
  mem : ℕ → V
  taken : ℕ → ℕ
  seen : ℕ → Option V

/-- A thread's turn, and whether a swap in it fails for no reason. -/
structure Turn where
  thread : ℕ
  spurious : Bool

def State.see (s : State V) (t : ℕ) (v : Option V) : State V :=
  { s with seen := Function.update s.seen t v }

def State.finish (s : State V) (t : ℕ) : State V :=
  { s with taken := Function.update s.taken t (s.taken t + 1), seen := Function.update s.seen t none }

variable [DecidableEq V]

/-- The swap: what was seen is still there, or it is seen anew. -/
def State.swap (s : State V) (turn : Turn) (cell : ℕ) (old new : V) : State V :=
  if s.mem cell = old ∧ turn.spurious = false then
    { s with mem := Function.update s.mem cell new }.finish turn.thread
  else s.see turn.thread (some (s.mem cell))

/-- One access to memory: the load before the loop, or a swap in it. -/
def step (ops : ℕ → List (Update V)) (s : State V) (turn : Turn) : State V :=
  match (ops turn.thread)[s.taken turn.thread]? with
  | none => s
  | some u =>
    match s.seen turn.thread with
    | none => s.see turn.thread (some (s.mem u.cell))
    | some old =>
      match u.next old with
      | none => s.finish turn.thread
      | some new => s.swap turn u.cell old new

def exec (ops : ℕ → List (Update V)) (mem : ℕ → V) (turns : List Turn) : State V :=
  run (step ops) ⟨mem, fun _ => 0, fun _ => none⟩ turns

/-- Every one of the first `n` threads is through with its loops. -/
def Done (ops : ℕ → List (Update V)) (n : ℕ) (s : State V) : Prop :=
  ∀ t < n, (ops t).length ≤ s.taken t

/-! A loop takes effect when its swap goes through, or when it reads a value that ends it. -/

/-- Whether the loop that thread `t` is in has read a value that ends it. -/
def settled (ops : ℕ → List (Update V)) (s : State V) (t : ℕ) : Bool :=
  match (ops t)[s.taken t]?, s.seen t with
  | some u, some old => (u.next old).isNone
  | _, _ => false

/-- The loops of thread `t` that have taken effect. -/
def effective (ops : ℕ → List (Update V)) (s : State V) (t : ℕ) : ℕ :=
  s.taken t + (settled ops s t).toNat

/-- The atomic run's state. -/
def atomic (ops : ℕ → List (Update V)) (s : State V) : Interleave.State (ℕ → V) :=
  ⟨s.mem, effective ops s⟩

section Linear

variable {ops : ℕ → List (Update V)} {s s' : State V} {t : ℕ}

omit [DecidableEq V] in
theorem effective_congr (htaken : s'.taken t = s.taken t) (hseen : s'.seen t = s.seen t) :
    effective ops s' t = effective ops s t := by
  unfold effective settled
  rw [htaken, hseen]

omit [DecidableEq V] in
/-- Reading a value settles the loop or leaves it open. -/
theorem atomic_see {u : Update V} (hop : (ops t)[s.taken t]? = some u)
    (hopen : settled ops s t = false) :
    atomic ops (s.see t (some (s.mem u.cell))) = atomic ops s ∨
      atomic ops (s.see t (some (s.mem u.cell))) =
        Interleave.step ops Update.apply (atomic ops s) t := by
  have hself : effective ops s t = s.taken t := by
    unfold effective
    rw [hopen]
    rfl
  have hother : ∀ r, r ≠ t → effective ops (s.see t (some (s.mem u.cell))) r = effective ops s r :=
    fun r hr => effective_congr rfl (Function.update_of_ne hr ..)
  have hsettled : settled ops (s.see t (some (s.mem u.cell))) t = (u.next (s.mem u.cell)).isNone := by
    have hseen : (s.see t (some (s.mem u.cell))).seen t = some (s.mem u.cell) :=
      Function.update_self ..
    have htaken : (s.see t (some (s.mem u.cell))).taken t = s.taken t := rfl
    unfold settled
    rw [hseen, htaken, hop]
  have hstep : Interleave.step ops Update.apply (atomic ops s) t =
      ⟨u.apply s.mem, Function.update (effective ops s) t (s.taken t + 1)⟩ := by
    have hop' : (ops t)[(atomic ops s).taken t]? = some u := by
      show (ops t)[effective ops s t]? = _
      rw [hself, hop]
    rw [Interleave.step_of_some _ hop']
    show (⟨_, Function.update _ t (effective ops s t + 1)⟩ : Interleave.State (ℕ → V)) = _
    rw [hself]
    rfl
  cases hnext : u.next (s.mem u.cell) with
  | none =>
    right
    rw [hstep]
    have hmem : u.apply s.mem = s.mem := by rw [Update.apply, hnext]
    rw [hmem]
    refine congrArg (Interleave.State.mk s.mem) (funext fun r => ?_)
    by_cases hr : r = t
    · subst hr
      rw [Function.update_self, effective, hsettled, hnext]
      rfl
    · rw [Function.update_of_ne hr, hother r hr]
  | some new =>
    left
    refine congrArg (Interleave.State.mk s.mem) (funext fun r => ?_)
    by_cases hr : r = t
    · subst hr
      rw [hself, effective, hsettled, hnext]
      rfl
    · exact hother r hr

/-- A turn is a step of the atomic run, or none. -/
theorem atomic_step (s : State V) (turn : Turn) :
    atomic ops (step ops s turn) = atomic ops s ∨
      atomic ops (step ops s turn) =
        Interleave.step ops Update.apply (atomic ops s) turn.thread := by
  obtain ⟨t, spurious⟩ := turn
  unfold step
  dsimp only
  cases hop : (ops t)[s.taken t]? with
  | none => exact .inl rfl
  | some u =>
    dsimp only
    cases hseen : s.seen t with
    | none =>
      have hopen : settled ops s t = false := by
        unfold settled
        rw [hop, hseen]
      exact atomic_see hop hopen
    | some old =>
      dsimp only
      have hsettled : settled ops s t = (u.next old).isNone := by
        unfold settled
        rw [hop, hseen]
      have hfinish : ∀ mem, settled ops ({ s with mem := mem }.finish t) t = false := by
        intro mem
        unfold settled State.finish
        dsimp only
        rw [Function.update_self, Function.update_self]
        cases (ops t)[s.taken t + 1]? <;> rfl
      have hself : ∀ mem, effective ops ({ s with mem := mem }.finish t) t = s.taken t + 1 := by
        intro mem
        rw [effective, hfinish]
        exact Function.update_self ..
      have hother : ∀ mem r, r ≠ t →
          effective ops ({ s with mem := mem }.finish t) r = effective ops s r :=
        fun mem r hr => effective_congr (Function.update_of_ne hr ..) (Function.update_of_ne hr ..)
      cases hnext : u.next old with
      | none =>
        left
        refine congrArg (Interleave.State.mk s.mem) (funext fun r => ?_)
        by_cases hr : r = t
        · subst hr
          have htaken : effective ops s r = s.taken r + 1 := by
            rw [effective, hsettled, hnext]
            rfl
          exact (hself s.mem).trans htaken.symm
        · exact hother s.mem r hr
      | some new =>
        have hopen : settled ops s t = false := by rw [hsettled, hnext]; rfl
        dsimp only
        unfold State.swap
        split_ifs with hsame
        · right
          have htaken : effective ops s t = s.taken t := by
            rw [effective, hopen]
            rfl
          have hop' : (ops t)[(atomic ops s).taken t]? = some u := by
            show (ops t)[effective ops s t]? = _
            rw [htaken, hop]
          have happly : u.apply s.mem = Function.update s.mem u.cell new := by
            rw [Update.apply, hsame.1, hnext]
          rw [Interleave.step_of_some _ hop']
          show (⟨Function.update s.mem u.cell new, _⟩ : Interleave.State (ℕ → V)) =
            ⟨u.apply s.mem, Function.update (effective ops s) t (effective ops s t + 1)⟩
          rw [happly, htaken]
          refine congrArg (Interleave.State.mk _) (funext fun r => ?_)
          by_cases hr : r = t
          · subst hr
            rw [Function.update_self]
            exact hself _
          · rw [Function.update_of_ne hr]
            exact hother _ r hr
        · exact atomic_see hop hopen

/-- The loops' run is a run of the atomic updates. -/
theorem exists_atomic (ops : ℕ → List (Update V)) (mem : ℕ → V) (turns : List Turn) :
    ∃ order, atomic ops (exec ops mem turns) =
      run (Interleave.step ops Update.apply) ⟨mem, fun _ => 0⟩ order := by
  induction turns using List.reverseRecOn with
  | nil =>
    refine ⟨[], congrArg (Interleave.State.mk mem) (funext fun t => ?_)⟩
    have hopen : settled ops ⟨mem, fun _ => 0, fun _ => none⟩ t = false := by
      unfold settled
      dsimp only
      cases (ops t)[0]? <;> rfl
    show 0 + (settled ops ⟨mem, fun _ => 0, fun _ => none⟩ t).toNat = 0
    rw [hopen]
    rfl
  | append_singleton turns turn ih =>
    obtain ⟨order, hrun⟩ := ih
    have hlast : exec ops mem (turns ++ [turn]) = step ops (exec ops mem turns) turn := by
      unfold exec
      rw [run_append]
      rfl
    rw [hlast]
    rcases @atomic_step _ _ ops (exec ops mem turns) turn with h | h
    · exact ⟨order, h.trans hrun⟩
    · refine ⟨order ++ [turn.thread], ?_⟩
      rw [h, hrun, run_append]
      rfl

/-- Once all are through, the memory is what the updates leave one after the other, each of them done
once. -/
theorem exec_eq_foldl {n : ℕ} (hidle : ∀ t, n ≤ t → ops t = []) {mem : ℕ → V} {turns : List Turn}
    (hdone : Done ops n (exec ops mem turns)) :
    ∃ trace : List (Update V), (exec ops mem turns).mem = trace.foldl Update.apply mem ∧
      trace.Perm ((List.range n).flatMap ops) := by
  obtain ⟨order, hrun⟩ := exists_atomic ops mem turns
  obtain ⟨trace, htrace⟩ := exists_trace Update.apply mem hidle order
  have hmem := htrace.mem_eq
  have htaken := htrace.taken_eq
  rw [← hrun] at hmem htaken
  refine ⟨trace, hmem, htrace.perm.trans (List.Perm.of_eq ?_)⟩
  refine List.flatMap_congr fun t ht => List.take_of_length_le ?_
  have htaken := htaken t
  have hlen := hdone t (List.mem_range.1 ht)
  have heff : (exec ops mem turns).taken t ≤ effective ops (exec ops mem turns) t :=
    Nat.le_add_right ..
  change effective ops (exec ops mem turns) t = _ at htaken
  omega

/-! Loops that are not disturbed end. -/

/-- A whole loop, undisturbed. -/
theorem run_alone {u : Update V} (hop : (ops t)[s.taken t]? = some u) (hseen : s.seen t = none) :
    run (step ops) s [⟨t, false⟩, ⟨t, false⟩] =
      ⟨u.apply s.mem, Function.update s.taken t (s.taken t + 1), s.seen⟩ := by
  have hload : step ops s ⟨t, false⟩ = s.see t (some (s.mem u.cell)) := by
    unfold step
    dsimp only
    rw [hop, hseen]
  have hsaw : (s.see t (some (s.mem u.cell))).seen t = some (s.mem u.cell) := Function.update_self ..
  have hforget : Function.update (s.see t (some (s.mem u.cell))).seen t none = s.seen := by
    unfold State.see
    rw [Function.update_idem, ← hseen, Function.update_eq_self]
  show step ops (step ops s ⟨t, false⟩) ⟨t, false⟩ = _
  rw [hload]
  unfold step
  dsimp only
  rw [show (s.see t (some (s.mem u.cell))).taken t = s.taken t from rfl, hop, hsaw]
  dsimp only
  cases hnext : u.next (s.mem u.cell) with
  | none =>
    have happly : u.apply s.mem = s.mem := by rw [Update.apply, hnext]
    rw [happly]
    unfold State.finish
    rw [hforget]
    rfl
  | some new =>
    have happly : u.apply s.mem = Function.update s.mem u.cell new := by rw [Update.apply, hnext]
    dsimp only
    unfold State.swap
    rw [if_pos ⟨rfl, rfl⟩, happly]
    unfold State.finish
    dsimp only
    rw [hforget]
    rfl

/-- All loops of one thread. -/
theorem exists_through (hseen : s.seen t = none) :
    ∃ turns s', run (step ops) s turns = s' ∧ s'.seen = s.seen ∧ (ops t).length ≤ s'.taken t ∧
      ∀ r, r ≠ t → s'.taken r = s.taken r := by
  induction hleft : (ops t).length - s.taken t generalizing s with
  | zero => exact ⟨[], s, rfl, rfl, by omega, fun _ _ => rfl⟩
  | succ left ih =>
    obtain ⟨u, hop⟩ : ∃ u, (ops t)[s.taken t]? = some u :=
      ⟨_, List.getElem?_eq_getElem (show s.taken t < (ops t).length by omega)⟩
    have hrun := run_alone hop hseen
    obtain ⟨turns, s', hrest, hseen', hlen, hother⟩ := ih
      (s := ⟨u.apply s.mem, Function.update s.taken t (s.taken t + 1), s.seen⟩) hseen (by
        show (ops t).length - Function.update s.taken t (s.taken t + 1) t = left
        rw [Function.update_self]
        omega)
    refine ⟨[⟨t, false⟩, ⟨t, false⟩] ++ turns, s', ?_, hseen', hlen, fun r hr => ?_⟩
    · rw [run_append, hrun]
      exact hrest
    · exact (hother r hr).trans (Function.update_of_ne hr ..)

/-- Some run ends: the threads one after the other. -/
theorem exists_done (ops : ℕ → List (Update V)) (n : ℕ) (mem : ℕ → V) :
    ∃ turns, Done ops n (exec ops mem turns) := by
  have hall : ∃ turns, (exec ops mem turns).seen = (fun _ => none) ∧
      Done ops n (exec ops mem turns) := by
    induction n with
    | zero => exact ⟨[], rfl, fun t ht => absurd ht (Nat.not_lt_zero t)⟩
    | succ n ih =>
      obtain ⟨before, hseen, hdone⟩ := ih
      obtain ⟨turns, s', hrun, hseen', hlen, hother⟩ :=
        @exists_through _ _ ops (exec ops mem before) n (congrFun hseen n)
      have hjoin : exec ops mem (before ++ turns) = s' := by
        unfold exec at hrun ⊢
        rw [run_append, hrun]
      refine ⟨before ++ turns, by rw [hjoin, hseen', hseen], fun t ht => ?_⟩
      rw [hjoin]
      by_cases htn : t = n
      · subst htn
        exact hlen
      · rw [hother t htn]
        exact hdone t (by omega)
  obtain ⟨turns, -, hdone⟩ := hall
  exact ⟨turns, hdone⟩

end Linear

end CasLoop
