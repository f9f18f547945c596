import PolarsMetal.Lib.Extended
import PolarsMetal.Rolling.WindowSpec

/-! What a rolling output depends on, on values with infinities and NaN. The variance kernel reads
its window. The sum kernel also adds and takes away what lies left of the window in the tile, which
cancels only where it is finite. -/

namespace PolarsMetal.Rolling
open Extended

variable {V G : Type}

/-- The inputs agree on `i-w+1..=i`. -/
def AgreeOn (input input' : List V) (w i : ℕ) : Prop :=
  ∀ p, i < p + w → p ≤ i → input[p]? = input'[p]?

theorem AgreeOn.window_eq {input input' : List V} {w i : ℕ} (h : AgreeOn input input' w i) :
    window input w i = window input' w i := by
  refine List.ext_getElem? fun k => ?_
  unfold window
  rw [List.getElem?_drop, List.getElem?_drop]
  by_cases hk : i + 1 - w + k < i + 1
  · rw [List.getElem?_take_of_lt hk, List.getElem?_take_of_lt hk]
    exact h _ (by omega) (by omega)
  · rw [List.getElem?_take_eq_none (by omega), List.getElem?_take_eq_none (by omega)]

/-- The window's own sum is NaN. -/
def NanWindow (input : List (Extended G)) (w i : ℕ) : Prop :=
  nan ∈ window input w i ∨ inf true ∈ window input w i ∧ inf false ∈ window input w i

/-- All that lies left of the window in its tile is finite. -/
def LeftFinite (input : List (Extended G)) (w i : ℕ) : Prop :=
  ∀ v ∈ leftOfWindow input w i, v.IsFinite

instance [DecidableEq G] (input : List (Extended G)) (w i : ℕ) : Decidable (NanWindow input w i) :=
  inferInstanceAs (Decidable (_ ∨ _))

instance (input : List (Extended G)) (w i : ℕ) : Decidable (LeftFinite input w i) :=
  inferInstanceAs (Decidable (∀ v ∈ leftOfWindow input w i, v.IsFinite))

section Group

variable [AddCommGroup G]

theorem windowSum_eq (input : List (Extended G)) (w i : ℕ) : windowSum input w i =
    if LeftFinite input w i then (window input w i).sum else nan := by
  rw [windowSum, add_sub_self_left]
  exact if_congr isFinite_sum rfl rfl

theorem windowSum_eq_iff {input input' : List (Extended G)} {w i : ℕ}
    (hagree : AgreeOn input input' w i) : windowSum input w i = windowSum input' w i ↔
      NanWindow input w i ∨ (LeftFinite input w i ↔ LeftFinite input' w i) := by
  unfold NanWindow
  rw [← sum_eq_nan_iff, windowSum_eq, windowSum_eq, ← hagree.window_eq]
  by_cases h : LeftFinite input w i <;> by_cases h' : LeftFinite input' w i <;> simp [h, h', eq_comm]

theorem divBy_windowSum_eq_iff {div : G → ℕ → G} {input input' : List (Extended G)} {w i : ℕ}
    (hagree : AgreeOn input input' w i) :
    divBy div (windowSum input w i) w = divBy div (windowSum input' w i) w ↔
      NanWindow input w i ∨ (LeftFinite input w i ↔ LeftFinite input' w i) := by
  rw [← windowSum_eq_iff hagree, windowSum_eq, windowSum_eq, ← hagree.window_eq]
  -- the two sums are the window's sum or NaN, which stay apart when divided
  by_cases h : LeftFinite input w i <;> by_cases h' : LeftFinite input' w i <;>
    cases (window input w i).sum <;> simp [h, h', divBy]

variable [Mul (Extended G)] {div : G → ℕ → G} {sqrt : Extended G → Extended G} {ddof : ℕ}

theorem output_eq_iff (op : RollingOp) {input input' : List (Extended G)} {w i : ℕ}
    (hagree : AgreeOn input input' w i) :
    op.output (divBy div) sqrt ddof input w i = op.output (divBy div) sqrt ddof input' w i ↔
      op.isVariance ∨ NanWindow input w i ∨ (LeftFinite input w i ↔ LeftFinite input' w i) := by
  have hpadded : paddedWindow input w i = paddedWindow input' w i := by
    rw [paddedWindow, paddedWindow, hagree.window_eq]
  cases op with
  | sum => simpa [RollingOp.output, RollingOp.isVariance] using windowSum_eq_iff hagree
  | mean => simpa [RollingOp.output, RollingOp.isVariance] using divBy_windowSum_eq_iff hagree
  | var => simp [RollingOp.output, RollingOp.isVariance, hpadded]
  | std => simp [RollingOp.output, RollingOp.isVariance, hpadded]

/-- Two inputs that agree on the window of `i` get the same output there, unless the kernel takes a
difference and one of them has an infinity or NaN left of the window in the tile. -/
theorem executeRolling_local_iff (op : RollingOp) {g g' : RollingRun (Extended G)}
    {input input' output output' : List (Extended G)} {w i : ℕ}
    (hlen : input'.length = input.length) (hn : input.length < 2 ^ 32) (hw : 1 ≤ w ∧ w ≤ maxW)
    (hddof : op.isVariance → ddof < w) (hi : i < input.length) (hagree : AgreeOn input input' w i)
    (hout : output.length = input.length) (hout' : output'.length = input'.length)
    (hrun : g.Complete (op.phases ⟨input, input.length, w⟩) input.length)
    (hrun' : g'.Complete (op.phases ⟨input', input'.length, w⟩) input'.length) :
    (executeRolling (divBy div) sqrt g input output w op.code ddof).map (·[i]?) =
        (executeRolling (divBy div) sqrt g' input' output' w op.code ddof).map (·[i]?) ↔
      op.isVariance ∨ NanWindow input w i ∨ (LeftFinite input w i ↔ LeftFinite input' w i) := by
  have hread : ∀ xs : List (Extended G), i < xs.length →
      ((List.range xs.length).map fun i => op.output (divBy div) sqrt ddof xs w i)[i]? =
        some (op.output (divBy div) sqrt ddof xs w i) := fun xs h => by
    rw [List.getElem?_map, List.getElem?_range h, Option.map_some]
  rw [executeRolling_eq op hw hddof hout hn hrun,
    executeRolling_eq op hw hddof hout' (hlen ▸ hn) hrun', Except.map, Except.map,
    hread input hi, hread input' (hlen ▸ hi), Except.ok.injEq, Option.some.injEq,
    output_eq_iff op hagree]

end Group

theorem executeRolling_local_iff_run :
    (executeRolling (divBy fun g n => g / (n : ℤ)) id (steadyRun [val 5, val 1, val 2] 2)
        [val 5, val 1, val 2] (List.replicate 3 0) 2 RollingOp.sum.code 1).map (·[2]?) =
      (executeRolling (divBy fun g n => g / (n : ℤ)) id (steadyRun [val 7, val 1, val 2] 2)
        [val 7, val 1, val 2] (List.replicate 3 0) 2 RollingOp.sum.code 1).map (·[2]?) := by
  have hagree : AgreeOn [val (5 : ℤ), val 1, val 2] [val 7, val 1, val 2] 2 2 := by
    intro p hp hle
    obtain rfl | rfl : p = 1 ∨ p = 2 := by omega
    · rfl
    · rfl
  have hiff := @executeRolling_local_iff ℤ _ _ (fun g n => g / (n : ℤ)) id 1 .sum
    (steadyRun [val 5, val 1, val 2] 2) (steadyRun [val 7, val 1, val 2] 2) [val 5, val 1, val 2]
    [val 7, val 1, val 2] (List.replicate 3 0) (List.replicate 3 0) 2 2 rfl (by simp) (by decide)
    (by decide) (by simp) hagree rfl rfl (steadyRun_complete .sum _ 2)
    (steadyRun_complete .sum _ 2)
  refine hiff.2 (.inr (.inr ?_))
  decide

/-- A NaN left of the window reaches the output. -/
theorem executeRolling_not_local :
    AgreeOn [nan, val (1 : ℤ)] [val 0, val 1] 1 1 ∧
      (executeRolling (divBy fun g n => g / (n : ℤ)) id (steadyRun [nan, val 1] 1) [nan, val 1]
        (List.replicate 2 0) 1 RollingOp.sum.code 1).map (·[1]?) = .ok (some nan) ∧
      (executeRolling (divBy fun g n => g / (n : ℤ)) id (steadyRun [val 0, val 1] 1) [val 0, val 1]
        (List.replicate 2 0) 1 RollingOp.sum.code 1).map (·[1]?) = .ok (some (val 1)) := by
  refine ⟨fun p hp hle => ?_, ?_, ?_⟩
  · obtain rfl : p = 1 := by omega
    rfl
  · exact congrArg (Except.map (·[1]?)) (executeRolling_steady (divBy fun g n => g / (n : ℤ)) id
      .sum [nan, val 1] 1 1 (by decide) (by decide) (by simp))
  · exact congrArg (Except.map (·[1]?)) (executeRolling_steady (divBy fun g n => g / (n : ℤ)) id
      .sum [val 0, val 1] 1 1 (by decide) (by decide) (by simp))

end PolarsMetal.Rolling
