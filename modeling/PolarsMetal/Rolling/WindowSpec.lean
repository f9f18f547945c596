import PolarsMetal.Rolling.KernelSpec

/-! What the rolling kernels write. The sum kernel takes the difference of two prefix sums of its
tile, so it also adds what lies left of the window in the tile; where the values form a group that
cancels, and where they only form a monoid it need not. The variance kernel reads its window. -/

namespace PolarsMetal.Rolling
open Interleave Barriers Finset

variable {V : Type}

/-- `input[max(0, i-w+1)..=i]` -/
def window (input : List V) (w i : ℕ) : List V := (input.take (i + 1)).drop (i + 1 - w)

/-- The window with zeros for what lies before the input. -/
def paddedWindow [Zero V] (input : List V) (w i : ℕ) : List V :=
  List.replicate (w - (i + 1)) 0 ++ window input w i

/-- What the tile of output `i` holds before its window. -/
def leftOfWindow (input : List V) (w i : ℕ) : List V :=
  (input.take (i + 1 - w)).drop (i / tgSize * tgSize - (w - 1))

/-! Sums of slots. -/

theorem sum_take [AddCommMonoid V] (input : List V) (m : ℕ) :
    (input.take m).sum = ∑ k ∈ range m, input.getD k 0 := by
  induction m with
  | zero => simp
  | succ m ih =>
    rw [List.take_add_one, List.sum_append, ih, sum_range_succ, List.getD_eq_getElem?_getD]
    cases input[m]? with
    | none => simp
    | some v => simp

theorem sum_slice [AddCommMonoid V] (input : List V) (c d : ℕ) :
    ∑ p ∈ Ico c d, input.getD p 0 = ((input.take d).drop c).sum := by
  rw [List.drop_take, sum_take, sum_Ico_eq_sum_range]
  refine sum_congr rfl fun k _ => ?_
  rw [List.getD_eq_getElem?_getD, List.getD_eq_getElem?_getD, List.getElem?_drop]

namespace Args

variable (a : Args V)

theorem slot_eq [Zero V] (hn : a.n = a.input.length) (tgid k : ℕ) : a.slot tgid k =
    if a.halo ≤ tgid * tgSize + k then a.input.getD (tgid * tgSize + k - a.halo) 0 else 0 := by
  unfold slot
  by_cases hle : a.halo ≤ tgid * tgSize + k
  · have hsrc : ((tgid * tgSize : ℕ) : ℤ) - (a.halo : ℤ) + (k : ℤ) =
        ((tgid * tgSize + k - a.halo : ℕ) : ℤ) := by
      push_cast [hle]
      ring
    rw [if_pos hle]
    simp only [hsrc, Int.toNat_natCast]
    split_ifs with h
    · rfl
    · have hlen : a.input.length ≤ tgid * tgSize + k - a.halo := by omega
      rw [List.getD_eq_getElem?_getD, List.getElem?_eq_none hlen, Option.getD_none]
  · rw [if_neg hle, if_neg]
    intro h
    omega

/-- The slots a window reads. -/
theorem map_slot [Zero V] (hn : a.n = a.input.length) (hw : 0 < a.w) {i : ℕ} (hi : i < a.n) :
    (List.range a.w).map (fun k => a.slot (i / tgSize) (i % tgSize + k)) =
      paddedWindow a.input a.w i := by
  have hbase : i / tgSize * tgSize + i % tgSize = i := by rw [Nat.mul_comm, Nat.div_add_mod]
  refine List.ext_getElem? fun k => ?_
  by_cases hk : k < a.w
  · rw [List.getElem?_map, List.getElem?_range hk, Option.map_some, a.slot_eq hn, ← Nat.add_assoc,
      hbase, paddedWindow]
    unfold halo
    by_cases hpad : k < a.w - (i + 1)
    · rw [if_neg (by omega), List.getElem?_append_left (by simpa using hpad),
        List.getElem?_replicate_of_lt hpad]
    · have hindex : i + 1 - a.w + (k - (a.w - (i + 1))) = i + k - (a.w - 1) := by omega
      rw [if_pos (by omega), List.getElem?_append_right (by simpa using hpad), List.length_replicate,
        window, List.getElem?_drop, hindex, List.getElem?_take_of_lt (by omega),
        List.getElem?_eq_getElem (by omega), List.getD_eq_getElem?_getD,
        List.getElem?_eq_getElem (by omega), Option.getD_some]
  · rw [List.getElem?_eq_none (by simpa using hk), List.getElem?_eq_none]
    unfold paddedWindow window
    simp
    omega

/-- What the variance kernel computes from its window. -/
def centered [Zero V] [Add V] [Sub V] [Mul V] (div : V → ℕ → V) (sqrt : V → V) (w ddof : ℕ)
    (isStd : Bool) (values : List V) : V :=
  let mu := div (values.foldl (· + ·) 0) w
  let ss := values.foldl (fun ss x => ss + (x - mu) * (x - mu)) 0
  let var := div ss (w - ddof)
  if isStd then sqrt var else var

theorem rollingVar_eq [Zero V] [Add V] [Sub V] [Mul V] (div : V → ℕ → V) (sqrt : V → V) (ddof : ℕ)
    (isStd : Bool) {m : ℕ → TgMem V} {turns : ℕ → ℕ → List ℕ} {i : ℕ} (hn : a.n = a.input.length)
    (hw : 0 < a.w) (hi : i < a.n)
    (hcomplete : CompletePhases tgSize [a.load (i / tgSize)] (turns (i / tgSize))) :
    a.rollingVar div sqrt ddof isStd m turns i =
      centered div sqrt a.w ddof isStd (paddedWindow a.input a.w i) := by
  have htile : ∀ k ∈ List.range a.w, (runPhases tgSize [a.load (i / tgSize)] (turns (i / tgSize))
      (m (i / tgSize))).tile (i % tgSize + k) = a.slot (i / tgSize) (i % tgSize + k) := by
    intro k hk
    have hk := List.mem_range.1 hk
    have hlid : i % tgSize < tgSize := Nat.mod_lt i (by decide)
    refine a.tile_load hcomplete.1 ?_
    unfold loadCount halo
    omega
  unfold rollingVar centered
  simp only [← a.map_slot hn hw hi, List.foldl_map]
  have hsum : ∀ f : V → V → V, (List.range a.w).foldl (fun s k => f s ((runPhases tgSize
      [a.load (i / tgSize)] (turns (i / tgSize)) (m (i / tgSize))).tile (i % tgSize + k))) 0 =
      (List.range a.w).foldl (fun s k => f s (a.slot (i / tgSize) (i % tgSize + k))) 0 := by
    intro f
    refine List.foldl_ext _ _ _ fun s k hk => ?_
    rw [htile k hk]
  rw [hsum fun s x => s + x]
  simp only [hsum fun ss x => ss + (x - div ((List.range a.w).foldl
    (fun s k => s + a.slot (i / tgSize) (i % tgSize + k)) 0) a.w) * (x - div ((List.range a.w).foldl
    (fun s k => s + a.slot (i / tgSize) (i % tgSize + k)) 0) a.w)]

variable [AddCommMonoid V]

theorem sum_slot (hn : a.n = a.input.length) (tgid c d : ℕ) :
    ∑ k ∈ Ico c d, a.slot tgid k = ((a.input.take (tgid * tgSize + d - a.halo)).drop
      (tgid * tgSize + c - a.halo)).sum := by
  rw [← sum_slice]
  symm
  refine sum_of_injOn (fun p => p + a.halo - tgid * tgSize) (fun p hp q hq h => ?_)
    (fun p hp => ?_) (fun k hk hnot => ?_) fun p hp => ?_
  · have hp := mem_Ico.1 hp
    have hq := mem_Ico.1 hq
    simp only at h
    omega
  · have hp := mem_Ico.1 hp
    refine mem_coe.2 (mem_Ico.2 ?_)
    simp only
    omega
  · rw [a.slot_eq hn, if_neg]
    intro hle
    have hk := mem_Ico.1 hk
    refine hnot ⟨tgid * tgSize + k - a.halo, mem_coe.2 (mem_Ico.2 (by omega)), ?_⟩
    simp only
    omega
  · have hp := mem_Ico.1 hp
    have hk : tgid * tgSize + (p + a.halo - tgid * tgSize) = p + a.halo := by omega
    rw [a.slot_eq hn, hk, if_pos (Nat.le_add_left _ _), Nat.add_sub_cancel]

/-- Every output of the sum kernel, from the input alone. -/
theorem rollingSum_eq [Sub V] (div : V → ℕ → V) (isMean : Bool) {m : ℕ → TgMem V}
    {turns : ℕ → ℕ → List ℕ} {i : ℕ} (hn : a.n = a.input.length) (hw : 0 < a.w)
    (hcomplete : CompletePhases tgSize (a.sumPhases (i / tgSize)) (turns (i / tgSize))) :
    a.rollingSum div isMean m turns i =
      let left := (leftOfWindow a.input a.w i).sum
      let windowSum := left + (window a.input a.w i).sum - left
      if isMean then div windowSum a.w else windowSum := by
  have htile := a.sumPhases_spec (i / tgSize) (turns (i / tgSize)) (m (i / tgSize)) hcomplete trivial
  have hi : i / tgSize * tgSize + i % tgSize = i := by rw [Nat.mul_comm, Nat.div_add_mod]
  have hlid : i % tgSize < tgSize := Nat.mod_lt i (by decide)
  have hhalo : a.halo + 1 = a.w := Nat.sub_add_cancel hw
  have hstart : i - a.halo = i + 1 - a.w := by omega
  have hend : i + a.w - a.halo = i + 1 := by omega
  have hleft : ∑ k ∈ range (i % tgSize), a.slot (i / tgSize) k =
      (leftOfWindow a.input a.w i).sum := by
    rw [range_eq_Ico, a.sum_slot hn, hi, Nat.add_zero, hstart]
    rfl
  have hwindow : ∑ k ∈ Ico (i % tgSize) (i % tgSize + a.w), a.slot (i / tgSize) k =
      (window a.input a.w i).sum := by
    rw [a.sum_slot hn, ← Nat.add_assoc, hi, hstart, hend]
    rfl
  have hhi : (runPhases tgSize (a.sumPhases (i / tgSize)) (turns (i / tgSize))
      (m (i / tgSize))).tile (i % tgSize + a.halo) =
      (leftOfWindow a.input a.w i).sum + (window a.input a.w i).sum := by
    rw [htile _ (by unfold loadCount; omega), Nat.add_assoc, hhalo, ← hleft, ← hwindow,
      range_eq_Ico, range_eq_Ico, sum_Ico_consecutive _ (Nat.zero_le _) (Nat.le_add_right _ _)]
  have hprev : (if i % tgSize = 0 then 0 else (runPhases tgSize (a.sumPhases (i / tgSize))
      (turns (i / tgSize)) (m (i / tgSize))).tile (i % tgSize - 1)) =
      (leftOfWindow a.input a.w i).sum := by
    rw [← hleft]
    split_ifs with h0
    · rw [h0, range_zero, sum_empty]
    · rw [htile _ (by unfold loadCount; omega), Nat.sub_add_cancel (by omega)]
  unfold rollingSum
  simp only [hhi, hprev]

end Args

/-! The dispatch. -/

/-- Every thread gets its turns. -/
structure RollingRun.Complete (g : RollingRun V) (phases : ℕ → List (Phase (TgMem V)))
    (n : ℕ) : Prop where
  threadgroups : ∀ i < n, CompletePhases tgSize (phases (i / tgSize)) (g.turns (i / tgSize))
  stores : ∀ i < n, i ∈ g.storeOrder

theorem storeOutputs_eq {n : ℕ} {output : List V} {order : List ℕ} (value : ℕ → V)
    (hlen : output.length = n) (hstores : ∀ i < n, i ∈ order) :
    storeOutputs n value output order = (List.range n).map value := by
  have hgrid : n ≤ (n + tgSize - 1) / tgSize * tgSize := by
    unfold tgSize
    omega
  have hidle : ∀ t, n ≤ t → storeOps n value t = [] := fun t ht => if_neg (by omega)
  have hcomplete : Interleave.Complete (storeOps n value) n order := fun t ht => by
    rw [storeOps, if_pos ⟨by omega, ht⟩]
    exact List.one_le_count_iff.2 (hstores t ht)
  refine List.ext_getElem? fun i => ?_
  by_cases hi : i < n
  · rw [List.getElem?_map, List.getElem?_range hi, Option.map_some, storeOutputs]
    refine getElem?_exec_store hidle hcomplete (by omega) ⟨i, hi, ?_⟩ fun t ht v hv => ?_
    · rw [storeOps, if_pos ⟨by omega, hi⟩]
      exact List.mem_singleton_self _
    · rw [storeOps, if_pos ⟨by omega, ht⟩, List.mem_singleton, Prod.mk.injEq] at hv
      rw [hv.2, hv.1]
  · have hout : (storeOutputs n value output order).length = n := by
      rw [storeOutputs, length_exec_store hidle hcomplete, hlen]
    rw [List.getElem?_eq_none (by omega), List.getElem?_eq_none (by simp; omega)]

section Sum

variable [AddCommMonoid V] [Sub V]

/-- What the sum kernel leaves in output `i`. -/
def windowSum (input : List V) (w i : ℕ) : V :=
  (leftOfWindow input w i).sum + (window input w i).sum - (leftOfWindow input w i).sum

variable {div : V → ℕ → V} {g : RollingRun V} {input output : List V} {w : ℕ}

theorem dispatchRollingSum_eq (isMean : Bool) (hw : 1 ≤ w ∧ w ≤ maxW)
    (hlen : output.length = input.length)
    (hrun : g.Complete (Args.sumPhases ⟨input, input.length, w⟩) input.length) :
    dispatchRollingSumF32Buf div g input output input.length w isMean =
      .ok ((List.range input.length).map fun i =>
        if isMean then div (windowSum input w i) w else windowSum input w i) := by
  unfold dispatchRollingSumF32Buf
  rw [if_neg (by omega)]
  by_cases h0 : input.length = 0
  · rw [if_pos h0, h0, List.range_zero, List.map_nil, List.length_eq_zero_iff.1 (hlen.trans h0)]
  · rw [if_neg h0]
    refine congrArg Except.ok ((storeOutputs_eq _ hlen hrun.stores).trans ?_)
    refine List.map_congr_left fun i hi => ?_
    exact Args.rollingSum_eq _ div isMean rfl hw.1 (hrun.threadgroups i (List.mem_range.1 hi))

end Sum

theorem dispatchRollingVar_eq [Zero V] [Add V] [Sub V] [Mul V] {div : V → ℕ → V} {sqrt : V → V}
    {g : RollingRun V} {input output : List V} {w ddof : ℕ} (isStd : Bool) (hw : 1 ≤ w ∧ w ≤ maxW)
    (hddof : ddof < w) (hlen : output.length = input.length)
    (hrun : g.Complete (fun tgid => [Args.load ⟨input, input.length, w⟩ tgid]) input.length) :
    dispatchRollingVarF32Buf div sqrt g input output input.length w ddof isStd =
      .ok ((List.range input.length).map fun i =>
        Args.centered div sqrt w ddof isStd (paddedWindow input w i)) := by
  unfold dispatchRollingVarF32Buf
  rw [if_neg (by omega), if_neg (by omega)]
  by_cases h0 : input.length = 0
  · rw [if_pos h0, h0, List.range_zero, List.map_nil, List.length_eq_zero_iff.1 (hlen.trans h0)]
  · rw [if_neg h0]
    refine congrArg Except.ok ((storeOutputs_eq _ hlen hrun.stores).trans ?_)
    refine List.map_congr_left fun i hi => ?_
    have hi := List.mem_range.1 hi
    exact Args.rollingVar_eq _ div sqrt ddof isStd rfl hw.1 hi (hrun.threadgroups i hi)

section Execute

variable [AddCommMonoid V] [Sub V] [Mul V]

/-- The phases of the kernel an operation runs. -/
def RollingOp.phases (a : Args V) : RollingOp → ℕ → List (Phase (TgMem V))
  | .sum | .mean => a.sumPhases
  | .var | .std => fun tgid => [a.load tgid]

/-- What output `i` gets from each operation. -/
def RollingOp.output (div : V → ℕ → V) (sqrt : V → V) (ddof : ℕ) (input : List V) (w i : ℕ) :
    RollingOp → V
  | .sum => windowSum input w i
  | .mean => div (windowSum input w i) w
  | .var => Args.centered div sqrt w ddof false (paddedWindow input w i)
  | .std => Args.centered div sqrt w ddof true (paddedWindow input w i)

def RollingOp.isVariance : RollingOp → Bool
  | .sum | .mean => false
  | .var | .std => true

theorem executeRolling_eq {div : V → ℕ → V} {sqrt : V → V} {g : RollingRun V}
    {input output : List V} {w ddof : ℕ} (op : RollingOp) (hw : 1 ≤ w ∧ w ≤ maxW)
    (hddof : op.isVariance → ddof < w) (hlen : output.length = input.length)
    (hn : input.length < 2 ^ 32)
    (hrun : g.Complete (op.phases ⟨input, input.length, w⟩) input.length) :
    executeRolling div sqrt g input output w op.code ddof =
      .ok ((List.range input.length).map fun i => op.output div sqrt ddof input w i) := by
  unfold executeRolling
  rw [if_neg (by omega)]
  by_cases h0 : input.length = 0
  · rw [if_pos h0, h0, List.range_zero, List.map_nil, List.length_eq_zero_iff.1 (hlen.trans h0)]
  · rw [if_neg h0, if_neg (by omega)]
    cases op with
    | sum => simp only [RollingOp.code, dispatchRollingSum_eq false hw hlen hrun]; rfl
    | mean => simp only [RollingOp.code, dispatchRollingSum_eq true hw hlen hrun]; rfl
    | var => simp only [RollingOp.code, dispatchRollingVar_eq false hw (hddof rfl) hlen hrun]; rfl
    | std => simp only [RollingOp.code, dispatchRollingVar_eq true hw (hddof rfl) hlen hrun]; rfl

end Execute

/-! A run in which the threads go round. -/

section Steady

variable [AddCommMonoid V]

def steadyRun (input : List V) (w : ℕ) : RollingRun V :=
  ⟨fun _ => ⟨fun _ => 0, fun _ => 0, fun _ => 0, fun _ => 0⟩,
    fun _ _ => rounds (Args.loadCount ⟨input, input.length, w⟩ + 1) tgSize, List.range input.length⟩

theorem length_strided_le {tid size stop : ℕ} (hsize : 0 < size) :
    (strided tid size stop).length ≤ stop := by
  unfold strided
  rw [List.length_map, List.length_range]
  have hmul := Nat.le_mul_of_pos_left stop hsize
  have hdiv : (stop + size - 1 - tid) / size < stop + 1 := by
    refine Nat.div_lt_of_lt_mul ?_
    rw [Nat.mul_succ]
    omega
  omega

theorem Args.length_load_le (a : Args V) (tgid t : ℕ) : (a.load tgid t).length ≤ a.loadCount := by
  unfold load
  rw [List.length_map]
  exact length_strided_le (by decide)

theorem Args.length_sumPhases_le (a : Args V) (tgid : ℕ) {phase : Phase (TgMem V)}
    (hphase : phase ∈ a.sumPhases tgid) (t : ℕ) : (phase t).length ≤ a.loadCount + 1 := by
  have hend : a.segEnd t ≤ a.loadCount := Nat.min_le_right _ _
  simp only [sumPhases, List.mem_append, List.mem_cons, List.not_mem_nil, or_false,
    List.mem_flatMap, scanPass] at hphase
  rcases hphase with ((rfl | rfl) | ⟨stride, -, rfl | rfl | rfl⟩) | rfl | rfl
  · exact (a.length_load_le tgid t).trans (Nat.le_succ _)
  · unfold phaseA indices
    split_ifs
    · simp
      omega
    · simp
  · simp [scanRead]
  · simp [scanAdd]
  · simp [scanCopy]
  · simp [readOffset]
  · unfold phaseC indices
    split_ifs
    · simp
      omega
    · simp

theorem steadyRun_complete (op : RollingOp) (input : List V) (w : ℕ) :
    (steadyRun input w).Complete (op.phases ⟨input, input.length, w⟩) input.length := by
  refine ⟨fun i _ => completePhases_rounds _ fun phase hphase t _ => ?_, fun i => List.mem_range.2⟩
  cases op with
  | sum => exact Args.length_sumPhases_le _ _ hphase t
  | mean => exact Args.length_sumPhases_le _ _ hphase t
  | var =>
    rw [List.mem_singleton.1 hphase]
    exact (Args.length_load_le _ _ t).trans (Nat.le_succ _)
  | std =>
    rw [List.mem_singleton.1 hphase]
    exact (Args.length_load_le _ _ t).trans (Nat.le_succ _)

theorem executeRolling_steady [Sub V] [Mul V] (div : V → ℕ → V) (sqrt : V → V) (op : RollingOp)
    (input : List V) (w ddof : ℕ) (hw : 1 ≤ w ∧ w ≤ maxW) (hddof : op.isVariance → ddof < w)
    (hn : input.length < 2 ^ 32) : executeRolling div sqrt (steadyRun input w) input
      (List.replicate input.length 0) w op.code ddof =
      .ok ((List.range input.length).map fun i => op.output div sqrt ddof input w i) :=
  executeRolling_eq op hw hddof List.length_replicate hn (steadyRun_complete op input w)

end Steady

/-- In exact arithmetic the sum kernel writes the windowed sum, and the mean kernel its quotient. -/
theorem dispatchRollingSum_group [AddCommGroup V] {div : V → ℕ → V} {g : RollingRun V}
    {input output : List V} {w : ℕ} (isMean : Bool) (hw : 1 ≤ w ∧ w ≤ maxW)
    (hlen : output.length = input.length)
    (hrun : g.Complete (Args.sumPhases ⟨input, input.length, w⟩) input.length) :
    dispatchRollingSumF32Buf div g input output input.length w isMean =
      .ok ((List.range input.length).map fun i =>
        if isMean then div (window input w i).sum w else (window input w i).sum) := by
  rw [dispatchRollingSum_eq isMean hw hlen hrun]
  simp only [windowSum, add_sub_cancel_left]

theorem dispatchRollingSum_group_run :
    dispatchRollingSumF32Buf (fun x w => x / (w : ℤ)) (steadyRun [3, -1, 4, 10] 3) [3, -1, 4, 10]
      [0, 0, 0, 0] 4 3 false = .ok [3, 2, 6, 13] :=
  dispatchRollingSum_group false (by decide) rfl (steadyRun_complete .sum [3, -1, 4, 10] 3)

end PolarsMetal.Rolling
