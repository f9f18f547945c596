import PolarsMetal.GroupBy.BuildPartitioned
import PolarsMetal.GroupBy.BuildSort

/-! The router may use any build: all return a grouping of the keys, and two
groupings of the same keys differ only in how the ids are named. -/

namespace PolarsMetal.GroupBy
open Grouping

/-- One renaming of the ids turns one output into the other. -/
def SameUpToIds (a b : BuildOutput) : Prop :=
  b.nGroups = a.nGroups ∧ ∃ σ : ℕ → ℕ, Set.BijOn σ (Set.Iio a.nGroups) (Set.Iio a.nGroups) ∧
    b.rowToGroup = a.rowToGroup.map σ ∧
    ∀ g < a.nGroups, b.firstRowPerGroup[σ g]? = a.firstRowPerGroup[g]?

theorem Groups.agree {keys : List Lane} {a b : BuildOutput} (ha : Groups keys a)
    (hb : Groups keys b) : SameUpToIds a b :=
  IsGrouping.agree ha hb

/-- The recorded first row of a group carries the group's key. -/
theorem Groups.key_firstRow {keys : List Lane} {out : BuildOutput} (h : Groups keys out) {i g : ℕ}
    (hi : i < keys.length) (hg : out.rowToGroup[i]? = some g) :
    ∃ r, out.firstRowPerGroup[g]? = some r ∧ keys[r]? = some keys[i] := by
  have hlt : g < out.nGroups := by
    obtain ⟨hlen, rfl⟩ := List.getElem?_eq_some_iff.1 hg
    exact (h.mem_ids _).1 (List.getElem_mem hlen)
  obtain ⟨r, hr, hleast⟩ := h.least g hlt
  have hrow : out.rowToGroup[r]? = some g := hleast.1
  have hrlen : r < keys.length := by
    rw [← h.length_ids]
    exact (List.getElem?_eq_some_iff.1 hrow).1
  refine ⟨r, hr, ?_⟩
  rw [List.getElem?_eq_getElem hrlen, (h.same_iff r i hrlen hi).1 (hrow.trans hg.symm)]

/-- Every build groups the rows by key, and any two agree up to the ids' names. -/
theorem builds_group_by_key {keys : List Lane} (hlen : keys.length < 2 ^ 31) {nPartitions : ℕ}
    (hpow : ∃ b, nPartitions = 2 ^ b) {threads : List ℕ}
    (hthreads : threads.Perm (List.range keys.length)) :
    ∃ partitioned, cpuPartitionedHash keys nPartitions = some partitioned ∧
      (∀ out ∈ [cpuHashmapBuild keys, partitioned, sortAndSegment keys threads],
        Groups keys out ∧
        ∀ i g (hi : i < keys.length), out.rowToGroup[i]? = some g →
          ∃ r, out.firstRowPerGroup[g]? = some r ∧ keys[r]? = some keys[i]) ∧
      ∀ a ∈ [cpuHashmapBuild keys, partitioned, sortAndSegment keys threads],
        ∀ b ∈ [cpuHashmapBuild keys, partitioned, sortAndSegment keys threads],
          SameUpToIds a b := by
  have h32 : keys.length < 2 ^ 32 := by omega
  obtain ⟨partitioned, hrun, hpart⟩ := groups_cpuPartitionedHash h32 hpow
  have hall : ∀ out ∈ [cpuHashmapBuild keys, partitioned, sortAndSegment keys threads],
      Groups keys out := by
    intro out hout
    simp only [List.mem_cons, List.not_mem_nil, or_false] at hout
    rcases hout with rfl | rfl | rfl
    · exact groups_cpuHashmapBuild h32
    · exact hpart
    · exact groups_sortAndSegment hlen hthreads
  exact ⟨partitioned, hrun, fun out hout => ⟨hall out hout, fun i g hi hg =>
    (hall out hout).key_firstRow hi hg⟩, fun a ha b hb => (hall a ha).agree (hall b hb)⟩

/-- Repeated keys, two partitions, and the boundary kernel's threads run backwards. -/
theorem builds_group_by_key_sample :
    ∃ partitioned, cpuPartitionedHash [5, 7, 5, 9] 2 = some partitioned ∧
      (∀ out ∈ [cpuHashmapBuild [5, 7, 5, 9], partitioned, sortAndSegment [5, 7, 5, 9] [3, 2, 1, 0]],
        Groups [5, 7, 5, 9] out ∧
        ∀ i g (hi : i < ([5, 7, 5, 9] : List Lane).length), out.rowToGroup[i]? = some g →
          ∃ r, out.firstRowPerGroup[g]? = some r ∧
            ([5, 7, 5, 9] : List Lane)[r]? = some ([5, 7, 5, 9] : List Lane)[i]) ∧
      ∀ a ∈ [cpuHashmapBuild [5, 7, 5, 9], partitioned, sortAndSegment [5, 7, 5, 9] [3, 2, 1, 0]],
        ∀ b ∈ [cpuHashmapBuild [5, 7, 5, 9], partitioned,
          sortAndSegment [5, 7, 5, 9] [3, 2, 1, 0]], SameUpToIds a b :=
  builds_group_by_key (by decide) ⟨1, rfl⟩ (by decide)

end PolarsMetal.GroupBy
