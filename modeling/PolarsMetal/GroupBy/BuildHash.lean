import PolarsMetal.GroupBy.Build
import PolarsMetal.Lib.Grouping
import Std.Data.HashMap.Lemmas

/-! The one-pass build numbers keys in order of first appearance. -/

namespace PolarsMetal.GroupBy
open Grouping

/-- A build's output is a grouping of the keys. -/
def Groups (keys : List Lane) (out : BuildOutput) : Prop :=
  IsGrouping keys out.rowToGroup out.firstRowPerGroup out.nGroups

def keyOf (keys : List Lane) (r : ℕ) : Lane := keys.getD r 0

theorem asU32_of_lt {n : ℕ} (h : n < 2 ^ 32) : asU32 n = n := Nat.mod_eq_of_lt h

structure HashMapInv (keys : List Lane) (s : HashMapState) : Prop where
  lookup : ∀ k, s.groupForKey[k]? = if k ∈ keys then some ((firstSeen keys).idxOf k) else none
  next : s.nextGid = (firstSeen keys).length
  rows : s.rowToGroup = idsBy (firstSeen keys) keys
  firsts : s.firstRowPerGroup = firstsBy (firstSeen keys) keys

theorem hashMapInv_step {keys : List Lane} {s : HashMapState} (h : HashMapInv keys s)
    (hlen : keys.length + 1 < 2 ^ 32) (k : Lane) :
    HashMapInv (keys ++ [k]) (hashMapStep s (k, keys.length)) := by
  have hle := length_firstSeen_le keys
  by_cases hk : k ∈ keys
  · have hfs : firstSeen (keys ++ [k]) = firstSeen keys := by
      rw [firstSeen_concat, if_pos ((mem_firstSeen keys k).2 hk)]
    have hstep : hashMapStep s (k, keys.length) =
        { s with rowToGroup := s.rowToGroup ++ [(firstSeen keys).idxOf k] } := by
      simp only [hashMapStep, h.lookup, if_pos hk]
    rw [hstep]
    refine ⟨?_, by rw [hfs]; exact h.next, ?_, ?_⟩
    · intro k'
      rw [hfs, h.lookup]
      by_cases hk' : k' ∈ keys
      · simp [hk']
      · have : k' ≠ k := by rintro rfl; exact hk' hk
        simp [hk', this]
    · rw [idsBy_firstSeen_concat, hfs, ← h.rows]
    · rw [firstsBy_firstSeen_concat, if_pos hk, ← h.firsts]
  · have hidx := idxOf_firstSeen_new hk
    have hstep : hashMapStep s (k, keys.length) =
        { groupForKey := s.groupForKey.insert k s.nextGid
          nextGid := if s.nextGid + 1 < 2 ^ 32 then s.nextGid + 1 else u32Max
          rowToGroup := s.rowToGroup ++ [s.nextGid]
          firstRowPerGroup := s.firstRowPerGroup ++ [asU32 keys.length] } := by
      simp only [hashMapStep, h.lookup, if_neg hk]
    rw [hstep]
    refine ⟨?_, ?_, ?_, ?_⟩
    · intro k'
      rw [Std.HashMap.getElem?_insert]
      by_cases hkk : k = k'
      · subst hkk
        simp [h.next, hidx]
      · rw [h.lookup]
        by_cases hk' : k' ∈ keys
        · simp [hkk, hk', idxOf_firstSeen_concat hk']
        · simp [hkk, hk', Ne.symm hkk]
    · have hnew : k ∉ firstSeen keys := by rwa [mem_firstSeen]
      rw [h.next, if_pos (by omega), firstSeen_concat, if_neg hnew]
      simp
    · rw [idsBy_firstSeen_concat, hidx, h.rows, h.next]
    · rw [firstsBy_firstSeen_concat, if_neg hk, h.firsts, asU32_of_lt (by omega)]

theorem hashMapInv_run {keys : List Lane} (hlen : keys.length < 2 ^ 32) :
    HashMapInv keys (keys.zipIdx.foldl hashMapStep ⟨∅, 0, [], []⟩) := by
  induction keys using List.reverseRecOn with
  | nil => exact ⟨by simp, rfl, rfl, rfl⟩
  | append_singleton keys k ih =>
    rw [List.length_append, List.length_singleton] at hlen
    rw [List.zipIdx_append, List.foldl_append]
    have := hashMapInv_step (ih (by omega)) (by omega) k
    simpa using this

/-- The hash-map build returns the grouping by first appearance. -/
theorem cpuHashmapBuild_eq {keys : List Lane} (hlen : keys.length < 2 ^ 32) :
    cpuHashmapBuild keys =
      ⟨idsBy (firstSeen keys) keys, firstsBy (firstSeen keys) keys, (firstSeen keys).length⟩ := by
  have h := hashMapInv_run hlen
  rw [cpuHashmapBuild, h.rows, h.firsts, h.next]

theorem groups_cpuHashmapBuild {keys : List Lane} (hlen : keys.length < 2 ^ 32) :
    Groups keys (cpuHashmapBuild keys) := by
  rw [cpuHashmapBuild_eq hlen]
  exact (enumerates_firstSeen keys).isGrouping

end PolarsMetal.GroupBy
