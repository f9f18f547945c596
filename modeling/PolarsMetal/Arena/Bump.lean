import PolarsMetal.Lib.Runs
import Mathlib.Tactic

/-! The per-query scratch arena: one backing buffer, and a cursor that hands out aligned views of it.
A view may be refused after the bounds check; the cursor moves only with a view handed out. -/

namespace PolarsMetal.Arena
open Runs

abbrev Usize := BitVec 64

def checkedAdd (a b : Usize) : Option Usize :=
  if a.toNat + b.toNat < 2 ^ 64 then some (a + b) else none

inductive BufferError where
  | allocationFailed (bytes : Usize)
deriving DecidableEq, Repr

/-- A view of the backing buffer. -/
structure View where
  offset : Usize
  len : Usize
deriving DecidableEq, Repr

/-- `metal`: the device makes the buffer. -/
def viewInto (parentLen offset len : Usize) (metal : Bool) : Except BufferError View :=
  if len = 0 then .error (.allocationFailed 0)
  else match checkedAdd offset len with
    | none => .error (.allocationFailed len)
    | some stop =>
      if stop > parentLen then .error (.allocationFailed len)
      else if metal then .ok ⟨offset, len⟩
      else .error (.allocationFailed len)

def arenaAlign : Usize := 16

structure BumpArena where
  backing : Usize
  cursor : Usize
  fits : cursor ≤ backing
deriving Repr

namespace BumpArena

def withCapacity (bytes : Usize) : BumpArena := ⟨bytes, 0, BitVec.le_def.2 (Nat.zero_le _)⟩

def alloc (a : BumpArena) (bytes : Usize) (metal : Bool) : Except BufferError View × BumpArena :=
  if bytes = 0 then (.error (.allocationFailed 0), a)
  else match checkedAdd a.cursor (arenaAlign - 1) with
    | none => (.error (.allocationFailed bytes), a)
    | some padded =>
      let alignedStart := padded &&& ~~~(arenaAlign - 1)
      match checkedAdd alignedStart bytes with
      | none => (.error (.allocationFailed bytes), a)
      | some alignedEnd =>
        if h : alignedEnd > a.backing then (.error (.allocationFailed bytes), a)
        else match viewInto a.backing alignedStart bytes metal with
          | .error e => (.error e, a)
          | .ok view => (.ok view, ⟨a.backing, alignedEnd, BitVec.not_lt.1 h⟩)

end BumpArena

/-! Rounding. -/

theorem checkedAdd_eq_some {a b c : Usize} :
    checkedAdd a b = some c ↔ a.toNat + b.toNat < 2 ^ 64 ∧ c.toNat = a.toNat + b.toNat := by
  unfold checkedAdd
  split_ifs with h
  · rw [Option.some.injEq, BitVec.toNat_eq, BitVec.toNat_add, Nat.mod_eq_of_lt h]
    exact ⟨fun heq => ⟨h, heq.symm⟩, fun heq => heq.2.symm⟩
  · exact ⟨fun heq => (by cases heq), fun heq => absurd heq.1 h⟩

theorem toNat_alignDown (x : Usize) :
    (x &&& ~~~(arenaAlign - 1)).toNat = x.toNat / 16 * 16 := by
  have hshift : x &&& ~~~(arenaAlign - 1) = (x >>> 4) <<< 4 := by
    refine BitVec.eq_of_getLsbD_eq fun i hi => ?_
    have hmask : (arenaAlign - 1).getLsbD i = decide (i < 4) := by
      interval_cases i <;> rfl
    rw [BitVec.getLsbD_and, BitVec.getLsbD_not, hmask, BitVec.getLsbD_shiftLeft,
      BitVec.getLsbD_ushiftRight]
    by_cases h4 : i < 4
    · simp [h4]
    · simp [h4, hi, Nat.add_sub_cancel' (by omega : 4 ≤ i)]
  have hlt := x.isLt
  rw [hshift, BitVec.toNat_shiftLeft, BitVec.toNat_ushiftRight, Nat.shiftRight_eq_div_pow,
    Nat.shiftLeft_eq, Nat.mod_eq_of_lt (by omega)]

/-! One allocation. -/

/-- A view handed out lies past the cursor and inside the arena, and the cursor moves to its end. -/
structure Granted (a a' : BumpArena) (bytes : Usize) (view : View) : Prop where
  len : view.len = bytes
  pos : 0 < view.len.toNat
  start : a.cursor.toNat ≤ view.offset.toNat
  aligned : view.offset.toNat % 16 = 0
  stop : a'.cursor.toNat = view.offset.toNat + view.len.toNat
  inside : view.offset.toNat + view.len.toNat ≤ a.backing.toNat
  backing : a'.backing = a.backing

theorem alloc_cases (a : BumpArena) (bytes : Usize) (metal : Bool) :
    (∃ e, a.alloc bytes metal = (.error e, a)) ∨
      ∃ view a', a.alloc bytes metal = (.ok view, a') ∧ Granted a a' bytes view := by
  unfold BumpArena.alloc
  split_ifs with hzero
  · exact .inl ⟨_, rfl⟩
  cases hpad : checkedAdd a.cursor (arenaAlign - 1) with
  | none => exact .inl ⟨_, rfl⟩
  | some padded =>
    cases hend : checkedAdd (padded &&& ~~~(arenaAlign - 1)) bytes with
    | none => simp only [hend]; exact .inl ⟨_, rfl⟩
    | some alignedEnd =>
      simp only [hend]
      split_ifs with hfits
      · exact .inl ⟨_, rfl⟩
      cases hview : viewInto a.backing (padded &&& ~~~(arenaAlign - 1)) bytes metal with
      | error e => exact .inl ⟨_, rfl⟩
      | ok view =>
        refine .inr ⟨view, _, rfl, ?_⟩
        have hview' : view = ⟨padded &&& ~~~(arenaAlign - 1), bytes⟩ := by
          unfold viewInto at hview
          rw [if_neg hzero, hend] at hview
          simp only [if_neg hfits] at hview
          split_ifs at hview
          exact (Except.ok.inj hview).symm
        obtain ⟨-, hpadded⟩ := checkedAdd_eq_some.1 hpad
        obtain ⟨-, hstop⟩ := checkedAdd_eq_some.1 hend
        have hround := toNat_alignDown padded
        have halign : (arenaAlign - 1).toNat = 15 := rfl
        have hbytes : 0 < bytes.toNat := Nat.pos_of_ne_zero fun h =>
          hzero (BitVec.eq_of_toNat_eq h)
        have hinside := BitVec.le_def.1 (BitVec.not_lt.1 hfits)
        have hoffset : view.offset.toNat = padded.toNat / 16 * 16 := by rw [hview', hround]
        have hlen : view.len = bytes := by rw [hview']
        have hnext : alignedEnd.toNat = view.offset.toNat + view.len.toNat := by
          rw [hstop, hview']
        exact ⟨hlen, hlen ▸ hbytes, by omega, by omega, hnext, by omega, rfl⟩

/-! Runs: the arena with the views it has handed out so far. -/

structure Session where
  arena : BumpArena
  views : List View

/-- A request is a size and whether the device makes the view. -/
def serve (s : Session) (request : Usize × Bool) : Session :=
  match s.arena.alloc request.1 request.2 with
  | (.error _, a) => ⟨a, s.views⟩
  | (.ok view, a) => ⟨a, s.views ++ [view]⟩

def View.covers (v : View) (byte : ℕ) : Prop :=
  v.offset.toNat ≤ byte ∧ byte < v.offset.toNat + v.len.toNat

/-- What every run keeps. -/
structure Apart (capacity : Usize) (s : Session) : Prop where
  backing : s.arena.backing = capacity
  below : ∀ v ∈ s.views, v.offset.toNat + v.len.toNat ≤ s.arena.cursor.toNat
  aligned : ∀ v ∈ s.views, v.offset.toNat % 16 = 0
  ordered : s.views.Pairwise fun v w => v.offset.toNat + v.len.toNat ≤ w.offset.toNat

theorem Apart.serve {capacity : Usize} {s : Session} (h : Apart capacity s)
    (request : Usize × Bool) : Apart capacity (serve s request) := by
  unfold Arena.serve
  obtain ⟨e, heq⟩ | ⟨view, a', heq, hview⟩ := alloc_cases s.arena request.1 request.2
  · rw [heq]
    exact ⟨h.backing, h.below, h.aligned, h.ordered⟩
  · rw [heq]
    have hstart := hview.start
    have hstop := hview.stop
    refine ⟨hview.backing.trans h.backing, fun v hv => ?_, fun v hv => ?_, ?_⟩
    · rcases List.mem_append.1 hv with hv | hv
      · have := h.below v hv
        simp only
        omega
      · rw [List.mem_singleton.1 hv]
        exact hstop.ge
    · rcases List.mem_append.1 hv with hv | hv
      · exact h.aligned v hv
      · rw [List.mem_singleton.1 hv]
        exact hview.aligned
    · refine List.pairwise_append.2 ⟨h.ordered, List.pairwise_singleton _ _, fun v hv w hw => ?_⟩
      rw [List.mem_singleton.1 hw]
      exact (h.below v hv).trans hstart

theorem apart_run (capacity : Usize) (requests : List (Usize × Bool)) :
    Apart capacity (run serve ⟨BumpArena.withCapacity capacity, []⟩ requests) :=
  run_invariant (fun _ request h => h.serve request)
    ⟨rfl, by simp, by simp, List.Pairwise.nil⟩ requests

/-- A request that failed leaves every later state as if it had not been made. -/
theorem run_skip_failed {s : Session} {request : Usize × Bool} {e : BufferError} {a : BumpArena}
    (hfail : s.arena.alloc request.1 request.2 = (.error e, a)) (requests : List (Usize × Bool)) :
    run serve s (request :: requests) = run serve s requests := by
  obtain ⟨e', heq⟩ | ⟨view, a', heq, -⟩ := alloc_cases s.arena request.1 request.2
  · have hserve : serve s request = s := by
      unfold serve
      rw [heq]
    rw [run, List.foldl_cons, hserve, run]
  · rw [heq] at hfail
    cases hfail

/-- Over every run of requests the views handed out share no byte, lie inside the arena and start
aligned; each is as long as was asked, the sums that place it are exact, and a request that fails
changes nothing that follows. -/
theorem alloc_views_apart (capacity : Usize) (requests : List (Usize × Bool)) :
    let s := run serve ⟨BumpArena.withCapacity capacity, []⟩ requests
    (s.views.Pairwise fun v w => ∀ byte, ¬ (v.covers byte ∧ w.covers byte)) ∧
      (∀ v ∈ s.views, v.offset.toNat % 16 = 0 ∧
        v.offset.toNat + v.len.toNat ≤ capacity.toNat) ∧
      ∀ request, (∀ view a, s.arena.alloc request.1 request.2 = (.ok view, a) →
          Granted s.arena a request.1 view) ∧
        ∀ e a, s.arena.alloc request.1 request.2 = (.error e, a) → a = s.arena ∧
          ∀ later, run serve s (request :: later) = run serve s later := by
  intro s
  have h := apart_run capacity requests
  refine ⟨h.ordered.imp fun hvw byte hboth => ?_, fun v hv => ⟨h.aligned v hv, ?_⟩,
    fun request => ⟨fun view a hok => ?_, fun e a hfail => ⟨?_, fun later => ?_⟩⟩⟩
  · obtain ⟨⟨-, hv⟩, hw, -⟩ := hboth
    omega
  · have hfits := BitVec.le_def.1 s.arena.fits
    rw [h.backing] at hfits
    exact (h.below v hv).trans hfits
  · obtain ⟨e, heq⟩ | ⟨view', a', heq, hview⟩ := alloc_cases s.arena request.1 request.2
    · rw [heq] at hok
      cases hok
    · rw [heq] at hok
      cases hok
      exact hview
  · obtain ⟨e', heq⟩ | ⟨view', a', heq, -⟩ := alloc_cases s.arena request.1 request.2
    · rw [heq] at hfail
      exact (congrArg Prod.snd hfail).symm
    · rw [heq] at hfail
      cases hfail
  · exact run_skip_failed hfail later

/-- Of six requests to 100 bytes one is empty, one is refused by the device and one does not fit. -/
example : (run serve ⟨BumpArena.withCapacity 100, []⟩
    [(10, true), (0, true), (20, false), (20, true), (60, true), (50, true)]).views =
      [⟨0, 10⟩, ⟨16, 20⟩, ⟨48, 50⟩] := by decide

end PolarsMetal.Arena
