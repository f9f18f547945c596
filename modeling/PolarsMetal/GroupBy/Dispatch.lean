import PolarsMetal.GroupBy.BuildGpuProgress
import PolarsMetal.GroupBy.KeysFaithful
import PolarsMetal.GroupBy.PerAgg

/-! The build dispatcher: the partitioned GPU build for many rows, the hash map
below the threshold and whenever the GPU build fails. -/

namespace PolarsMetal.GroupBy
open Grouping

def a1RowsThreshold : ℕ := 500000

/-- `deviceOk` is whether the scratch arena and the Metal dispatches are to be had; every error of
the build counts as no result. -/
def tryA1Build (g : GpuRun) (deviceOk : Bool) (encoded : List Lane) : Option BuildOutput :=
  if deviceOk then (partitionAndBuildWithScratch g encoded 16).toOption else none

def dispatchBuild (g : GpuRun) (deviceOk : Bool) (encoded : List Lane) (nRows : ℕ) :
    Except GroupByError BuildOutput :=
  if nRows = 0 then .ok ⟨[], [], 0⟩
  else if encoded.length < nRows then .error (.outputTooShort encoded.length nRows)
  else if nRows ≥ a1RowsThreshold then
    match tryA1Build g deviceOk (encoded.take nRows) with
    | some out => .ok out
    | none => .ok (cpuHashmapBuild (encoded.take nRows))
  else .ok (cpuHashmapBuild (encoded.take nRows))

/-- The GPU build, where it is tried, runs to its end without a spurious failure. -/
def GpuRun.Sound (g : GpuRun) (deviceOk : Bool) (lanes : List Lane) : Prop :=
  a1RowsThreshold ≤ lanes.length → deviceOk = true →
    g.Complete lanes 16 ∧ g.NoSpuriousFailure lanes 16

/-- The host's launch of any table small enough for the row counter can be such a run. -/
theorem exists_sound {lanes : List Lane} (deviceOk : Bool) (hlen : lanes.length + 256 < 2 ^ 32) :
    ∃ schedule, (hostLaunch lanes.length schedule).Sound deviceOk lanes := by
  obtain ⟨schedule, hrun, hcas⟩ := exists_complete 16 hlen
  exact ⟨schedule, fun _ _ => ⟨hrun, hcas⟩⟩

/-- An output of the GPU build means that no partition overflowed. -/
theorem noOverflow_of_ok {g : GpuRun} {keys : List Lane} {nPartitions : ℕ} {out : BuildOutput}
    (h : partitionAndBuildWithScratch g keys nPartitions = .ok out) (hne : keys ≠ []) :
    g.NoOverflow keys nPartitions := by
  rw [partitionAndBuildWithScratch, if_neg hne] at h
  split_ifs at h with hassert hlen hover
  intro p hp
  by_contra hflag
  exact hover ⟨p, List.mem_range.2 hp, by simpa using hflag⟩

theorem tryA1Build_eq_some {g : GpuRun} {deviceOk : Bool} {encoded : List Lane} {out : BuildOutput} :
    tryA1Build g deviceOk encoded = some out ↔
      deviceOk = true ∧ partitionAndBuildWithScratch g encoded 16 = .ok out := by
  unfold tryA1Build
  cases deviceOk with
  | false => simp
  | true =>
    rcases partitionAndBuildWithScratch g encoded 16 with e | out' <;> simp [Except.toOption]

/-- The result is the GPU build's, when there are rows enough and it did not fail, and the hash
map's otherwise. -/
theorem dispatchBuild_cases (g : GpuRun) (deviceOk : Bool) (lanes : List Lane) :
    (a1RowsThreshold ≤ lanes.length ∧ ∃ out, tryA1Build g deviceOk lanes = some out ∧
      dispatchBuild g deviceOk lanes lanes.length = .ok out) ∨
    ((lanes.length < a1RowsThreshold ∨ tryA1Build g deviceOk lanes = none) ∧
      dispatchBuild g deviceOk lanes lanes.length = .ok (cpuHashmapBuild lanes)) := by
  unfold dispatchBuild
  rw [List.take_length]
  by_cases hnil : lanes.length = 0
  · obtain rfl := List.length_eq_zero_iff.1 hnil
    exact Or.inr ⟨Or.inl (by decide), rfl⟩
  rw [if_neg hnil, if_neg (lt_irrefl _)]
  by_cases hrows : lanes.length ≥ a1RowsThreshold
  · rw [if_pos hrows]
    rcases htry : tryA1Build g deviceOk lanes with _ | out
    · exact Or.inr ⟨Or.inr rfl, rfl⟩
    · exact Or.inl ⟨hrows, out, rfl, rfl⟩
  · rw [if_neg hrows]
    exact Or.inr ⟨Or.inl (Nat.lt_of_not_le hrows), rfl⟩

theorem ne_nil_of_threshold {lanes : List Lane} (h : a1RowsThreshold ≤ lanes.length) : lanes ≠ [] := by
  rintro rfl
  exact absurd h (by decide)

/-- Either path groups the rows by key. -/
theorem groups_dispatchBuild {g : GpuRun} {deviceOk : Bool} {lanes : List Lane}
    (hlen : lanes.length < 2 ^ 32) (hrun : g.Sound deviceOk lanes) :
    ∃ out, dispatchBuild g deviceOk lanes lanes.length = .ok out ∧ Groups lanes out := by
  rcases dispatchBuild_cases g deviceOk lanes with ⟨hrows, out, htry, hout⟩ | ⟨-, hout⟩
  · obtain ⟨hdev, ha1⟩ := tryA1Build_eq_some.1 htry
    obtain ⟨hcomplete, hcas⟩ := hrun hrows hdev
    obtain ⟨out', hout', hgroups⟩ := groups_partitionAndBuild
      (show ∃ b, 16 = 2 ^ b from ⟨4, rfl⟩) hlen hcomplete hcas
      (noOverflow_of_ok ha1 (ne_nil_of_threshold hrows))
    rw [ha1] at hout'
    cases hout'
    exact ⟨out, hout, hgroups⟩
  · exact ⟨_, hout, groups_cpuHashmapBuild hlen⟩

end PolarsMetal.GroupBy
