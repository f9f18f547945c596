import PolarsMetal.GroupBy.Scatter
import PolarsMetal.GroupBy.BuildGpuSpec
import PolarsMetal.Lib.Placement

/-! The scatter lists every row once, partition by partition, in whatever order the threads take
their turns and whatever earlier builds left in the scratch. The counters record which threads have
been there: a partition's cursor is the number of its rows that hold a place, and the places of its
rows follow one another. -/

namespace PolarsMetal.GroupBy
open Threads Placement Reads

/-! The buffers are as long as the capacities say. -/

structure Fits (s : BuildScratch) : Prop where
  counts : s.capacityPartitions ≤ s.counts.length
  cursors : s.capacityPartitions ≤ s.cursors.length
  offsets : s.capacityPartitions + 1 ≤ s.offsets.length
  overflow : 1 ≤ s.overflow.length
  keys : s.capacityRows ≤ s.keys.length
  rowIdx : s.capacityRows ≤ s.rowIdx.length
  pid : s.capacityRows ≤ s.pid.length

theorem fits_new : Fits .new := by
  refine ⟨?_, ?_, ?_, ?_, ?_, ?_, ?_⟩ <;> decide

theorem length_newBufferZeroed (n : ℕ) : (newBufferZeroed n).length = n := List.length_replicate

/-- However many of the allocations go through. -/
theorem fits_growPartitions {s : BuildScratch} (h : Fits s) {np : ℕ}
    (hnp : s.capacityPartitions ≤ np) (k : ℕ) :
    Fits (((growPartitions np).take k).foldl (fun s alloc => alloc s) s) ∧
      (((growPartitions np).take k).foldl (fun s alloc => alloc s) s).capacityRows =
        s.capacityRows ∧
      (4 ≤ k → (((growPartitions np).take k).foldl (fun s alloc => alloc s) s).capacityPartitions =
        np) := by
  have hlen := length_newBufferZeroed
  obtain ⟨hcounts, hcursors, hoffsets, hoverflow, hkeys, hrow, hpid⟩ := h
  rcases k with _ | _ | _ | _ | k
  · exact ⟨⟨hcounts, hcursors, hoffsets, hoverflow, hkeys, hrow, hpid⟩, rfl, by omega⟩
  · refine ⟨⟨?_, hcursors, hoffsets, hoverflow, hkeys, hrow, hpid⟩, rfl, by omega⟩
    exact (hlen np).symm ▸ hnp
  · refine ⟨⟨?_, ?_, hoffsets, hoverflow, hkeys, hrow, hpid⟩, rfl, by omega⟩
    · exact (hlen np).symm ▸ hnp
    · exact (hlen np).symm ▸ hnp
  · refine ⟨⟨?_, ?_, ?_, hoverflow, hkeys, hrow, hpid⟩, rfl, by omega⟩
    · exact (hlen np).symm ▸ hnp
    · exact (hlen np).symm ▸ hnp
    · exact (hlen (np + 1)).symm ▸ Nat.succ_le_succ hnp
  · have hall : (growPartitions np).take (k + 1 + 1 + 1 + 1) = growPartitions np :=
      List.take_of_length_le (by simp [growPartitions])
    rw [hall]
    refine ⟨⟨?_, ?_, ?_, hoverflow, hkeys, hrow, hpid⟩, rfl, fun _ => rfl⟩
    · exact (hlen np).ge
    · exact (hlen np).ge
    · exact (hlen (np + 1)).ge

theorem fits_growRows {s : BuildScratch} (h : Fits s) {nRows : ℕ}
    (hn : s.capacityRows ≤ nRows) (k : ℕ) :
    Fits (((growRows nRows).take k).foldl (fun s alloc => alloc s) s) ∧
      (((growRows nRows).take k).foldl (fun s alloc => alloc s) s).capacityPartitions =
        s.capacityPartitions ∧
      (4 ≤ k → (((growRows nRows).take k).foldl (fun s alloc => alloc s) s).capacityRows =
        nRows) := by
  have hlen := length_newBufferZeroed
  have hkeys' : (List.replicate nRows (0 : Lane)).length = nRows := List.length_replicate
  obtain ⟨hcounts, hcursors, hoffsets, hoverflow, hkeys, hrow, hpid⟩ := h
  rcases k with _ | _ | _ | _ | k
  · exact ⟨⟨hcounts, hcursors, hoffsets, hoverflow, hkeys, hrow, hpid⟩, rfl, by omega⟩
  · refine ⟨⟨hcounts, hcursors, hoffsets, hoverflow, ?_, hrow, hpid⟩, rfl, by omega⟩
    exact hkeys'.symm ▸ hn
  · refine ⟨⟨hcounts, hcursors, hoffsets, hoverflow, ?_, ?_, hpid⟩, rfl, by omega⟩
    · exact hkeys'.symm ▸ hn
    · exact (hlen nRows).symm ▸ hn
  · refine ⟨⟨hcounts, hcursors, hoffsets, hoverflow, ?_, ?_, ?_⟩, rfl, by omega⟩
    · exact hkeys'.symm ▸ hn
    · exact (hlen nRows).symm ▸ hn
    · exact (hlen nRows).symm ▸ hn
  · have hall : (growRows nRows).take (k + 1 + 1 + 1 + 1) = growRows nRows :=
      List.take_of_length_le (by simp [growRows])
    rw [hall]
    refine ⟨⟨hcounts, hcursors, hoffsets, hoverflow, ?_, ?_, ?_⟩, rfl, fun _ => rfl⟩
    · exact hkeys'.ge
    · exact (hlen nRows).ge
    · exact (hlen nRows).ge

/-- `ensure` keeps the buffers long enough, also when it fails half way. -/
theorem ensure_fits {s : BuildScratch} (h : Fits s) (allocs nRows np : ℕ) :
    Fits (s.ensure allocs nRows np).1 ∧
      ((s.ensure allocs nRows np).2 = true → np ≤ (s.ensure allocs nRows np).1.capacityPartitions ∧
        nRows ≤ (s.ensure allocs nRows np).1.capacityRows) ∧
      (8 ≤ allocs → (s.ensure allocs nRows np).2 = true) := by
  unfold BuildScratch.ensure
  simp only [List.take_append, List.foldl_append, List.length_append, decide_eq_true_eq]
  by_cases hp : np > s.capacityPartitions
  · rw [if_pos hp]
    obtain ⟨hfits, hrows, hcap⟩ := fits_growPartitions h (Nat.le_of_lt hp) allocs
    have h4 : (growPartitions np).length = 4 := rfl
    rw [h4]
    by_cases hn : nRows > s.capacityRows
    · rw [if_pos hn]
      obtain ⟨hfits', hparts', hcap'⟩ := @fits_growRows _ hfits nRows
        (by rw [hrows]; omega) (allocs - 4)
      have h4' : (growRows nRows).length = 4 := rfl
      rw [h4']
      refine ⟨hfits', fun hle => ⟨?_, ?_⟩, fun hle => hle⟩
      · rw [hparts', hcap (by omega)]
      · rw [hcap' (by omega)]
    · rw [if_neg hn, List.take_nil, List.foldl_nil]
      refine ⟨hfits, fun hle => ⟨?_, ?_⟩, fun hle => ?_⟩
      · rw [hcap (by simpa using hle)]
      · rw [hrows]; omega
      · rw [List.length_nil]; omega
  · rw [if_neg hp, List.take_nil, List.foldl_nil, List.length_nil, Nat.zero_add, Nat.sub_zero]
    by_cases hn : nRows > s.capacityRows
    · rw [if_pos hn]
      obtain ⟨hfits', hparts', hcap'⟩ := fits_growRows h (Nat.le_of_lt hn) allocs
      have h4' : (growRows nRows).length = 4 := rfl
      rw [h4']
      refine ⟨hfits', fun hle => ⟨?_, ?_⟩, fun hle => by omega⟩
      · rw [hparts']; omega
      · rw [hcap' hle]
    · rw [if_neg hn, List.take_nil, List.foldl_nil]
      exact ⟨h, fun _ => ⟨by omega, by omega⟩, fun _ => by simp⟩

/-! The counters. -/

/-- The rows of a partition, in the order of the list. -/
def bucket (part : ℕ → ℕ) (rows : List ℕ) (p : ℕ) : List ℕ := rows.filter (fun t => part t = p)

def rowCounts (part : ℕ → ℕ) (n np : ℕ) : List ℕ :=
  (List.range np).map (fun p => (bucket part (List.range n) p).length)

/-- The threads that took their turn at the counters, in that order. -/
structure Tally (part : ℕ → ℕ) (n np : ℕ) (trace : List ℕ) (taken : ℕ → Prop)
    (counter : List ℕ) : Prop where
  nodup : trace.Nodup
  mem : ∀ t, t ∈ trace ↔ t < n ∧ taken t
  fits : np ≤ counter.length
  count : ∀ p < np, counter.getD p 0 = (bucket part trace p).length

section Counters

variable {part : ℕ → ℕ} {n np : ℕ}

theorem bucket_concat (trace : List ℕ) (t p : ℕ) : bucket part (trace ++ [t]) p =
    if part t = p then bucket part trace p ++ [t] else bucket part trace p := by
  unfold bucket
  rw [List.filter_append, List.filter_singleton]
  by_cases h : part t = p
  · rw [if_pos h, decide_eq_true h, cond_true]
  · rw [if_neg h, decide_eq_false h, cond_false, List.append_nil]

theorem mem_bucket {trace : List ℕ} {t p : ℕ} :
    t ∈ bucket part trace p ↔ t ∈ trace ∧ part t = p := by
  unfold bucket
  rw [List.mem_filter, decide_eq_true_eq]

theorem length_rowCounts : (rowCounts part n np).length = np := by
  unfold rowCounts
  rw [List.length_map, List.length_range]

theorem getElem_rowCounts {p : ℕ} (hp : p < (rowCounts part n np).length) :
    (rowCounts part n np)[p] = (bucket part (List.range n) p).length := by
  simp [rowCounts]

/-- No more rows of a partition have been seen than there are. -/
theorem length_bucket_le {trace : List ℕ} (hnodup : trace.Nodup) (hlt : ∀ t ∈ trace, t < n)
    (p : ℕ) : (bucket part trace p).length ≤ (bucket part (List.range n) p).length := by
  have hsub : trace.Subperm (List.range n) :=
    List.subperm_of_subset hnodup fun t ht => List.mem_range.2 (hlt t ht)
  exact (hsub.filter _).length_le

theorem sum_rowCounts (hpart : ∀ t < n, part t < np) : (rowCounts part n np).sum = n := by
  have hflat : ((List.range np).map (fun p => bucket part (List.range n) p)).flatten =
      StableSort.bucketPass np part (List.range n) := rfl
  have hperm := @StableSort.bucketPass_perm _ _ part (List.range n)
    fun t ht => hpart t (List.mem_range.1 ht)
  have hlen := hperm.length_eq
  rw [← hflat, List.length_flatten, List.map_map, List.length_range] at hlen
  exact hlen

/-- A thread's turn at its partition's counter. -/
theorem Tally.add {trace : List ℕ} {taken f : ℕ → Prop} {counter : List ℕ}
    (h : Tally part n np trace taken counter) {t : ℕ} (ht : t < n) (hnew : ¬ taken t)
    (hpart : part t < np) (hn : n < 2 ^ 32) (htaken : ∀ u, f u ↔ taken u ∨ u = t) :
    Tally part n np (trace ++ [t]) f
      (counter.set (part t) (asU32 (counter.getD (part t) 0 + 1))) := by
  have hfresh : t ∉ trace := fun hmem => hnew ((h.mem t).1 hmem).2
  have hnodup : (trace ++ [t]).Nodup := by
    rw [List.nodup_append]
    exact ⟨h.nodup, List.nodup_singleton t, fun a ha b hb heq =>
      hfresh (List.mem_singleton.1 hb ▸ heq ▸ ha)⟩
  have hmem : ∀ u, u ∈ trace ++ [t] ↔ u < n ∧ f u := by
    intro u
    rw [List.mem_append, List.mem_singleton, h.mem, htaken]
    refine ⟨fun hu => ?_, fun ⟨hu, htk⟩ => htk.imp (fun h => ⟨hu, h⟩) id⟩
    rcases hu with ⟨hu, htk⟩ | rfl
    · exact ⟨hu, Or.inl htk⟩
    · exact ⟨ht, Or.inr rfl⟩
  refine ⟨hnodup, hmem, by rw [List.length_set]; exact h.fits, fun p hp => ?_⟩
  have hle := @length_bucket_le part _ _ hnodup (fun u hu => ((hmem u).1 hu).1) p
  have hrange : (bucket part (List.range n) p).length ≤ n :=
    (List.length_filter_le _ _).trans_eq List.length_range
  rw [getD_set _ _ _ _ (hpart.trans_le h.fits), bucket_concat]
  rw [bucket_concat] at hle
  by_cases hp' : part t = p
  · rw [if_pos hp', if_pos hp', List.length_append, List.length_singleton, hp', h.count p hp]
    rw [if_pos hp', List.length_append, List.length_singleton] at hle
    exact asU32_of_lt (by omega)
  · rw [if_neg hp', if_neg hp', h.count p hp]

/-- When every row's thread has taken its turn. -/
theorem Tally.perm {trace : List ℕ} {taken : ℕ → Prop} {counter : List ℕ}
    (h : Tally part n np trace taken counter) (hall : ∀ t < n, taken t) :
    trace.Perm (List.range n) := by
  rw [List.perm_ext_iff_of_nodup h.nodup List.nodup_range]
  intro t
  rw [h.mem, List.mem_range]
  exact ⟨And.left, fun ht => ⟨ht, hall t ht⟩⟩

theorem Tally.take_eq {trace : List ℕ} {taken : ℕ → Prop} {counter : List ℕ}
    (h : Tally part n np trace taken counter) (hall : ∀ t < n, taken t) :
    counter.take np = rowCounts part n np := by
  refine ext_getD 0 ?_ fun p hp => ?_
  · rw [List.length_take, length_rowCounts, Nat.min_eq_left h.fits]
  · have hp : p < np := by
      rw [List.length_take] at hp
      omega
    have hp' : p < (rowCounts part n np).length := by rwa [length_rowCounts]
    rw [List.getD_eq_getElem?_getD, List.getElem?_take_of_lt hp, ← List.getD_eq_getElem?_getD,
      h.count p hp, getD_of_lt _ hp', getElem_rowCounts hp']
    exact ((h.perm hall).filter _).length_eq

end Counters

/-! The first kernel. -/

/-- The partition a thread finds for its row. -/
def rowPart (s : BuildScratch) (t : ℕ) : ℕ :=
  devicePartitionId (s.keys.getD t 0) s.nPartBuf s.log2Buf

/-- With a mask one below a power of two. -/
theorem rowPart_lt {s : BuildScratch} {np : ℕ} (hpart : s.nPartBuf = np) (hpos : 0 < np) (t : ℕ) :
    rowPart s t < np := by
  unfold rowPart devicePartitionId
  rw [hpart]
  have := Nat.and_le_right (n := (hashU128 (s.keys.getD t 0) >>> s.log2Buf).toNat) (m := np - 1)
  omega

theorem length_partitionCount (s : BuildScratch) (counts : List ℕ) (order : List ℕ) :
    (launch (partitionCount s) counts .start order).mem.length = counts.length := by
  induction order using List.reverseRecOn with
  | nil => rfl
  | append_singleton order t ih =>
    rw [launch_concat, turn_mem]
    unfold partitionCount at *
    cases (launch _ counts CountPc.start order).reg t with
    | start =>
      simp only
      split_ifs
      · exact ih
      · rw [List.length_set]
        exact ih
    | done => exact ih

/-- The counters before and after every turn. -/
theorem tally_partitionCount {s : BuildScratch} {np : ℕ} (hpart : s.nPartBuf = np) (hpos : 0 < np)
    (hn : s.nRowsBuf < 2 ^ 32) {counts : List ℕ} (hfits : np ≤ counts.length)
    (hzero : ∀ p < np, counts.getD p 0 = 0) (order : List ℕ) :
    ∃ trace, Tally (rowPart s) s.nRowsBuf np trace
      (fun t => (launch (partitionCount s) counts .start order).reg t = .done)
      (launch (partitionCount s) counts .start order).mem := by
  have hinit : Tally (rowPart s) s.nRowsBuf np [] (fun _ => CountPc.start = .done) counts :=
    ⟨List.nodup_nil, fun t => by simp, hfits, hzero⟩
  refine launch_invariant (I := fun trace (st : State (List ℕ) CountPc) =>
    Tally (rowPart s) s.nRowsBuf np trace (fun t => st.reg t = .done) st.mem) hinit
    (fun trace st t h => ?_) order
  by_cases hpc : st.reg t = .start
  · by_cases ht : t < s.nRowsBuf
    · refine ⟨trace ++ [t], ?_⟩
      have hadd := h.add (f := fun u => (turn (partitionCount s) st t).reg u = .done) ht
        (by rw [hpc]; simp) (rowPart_lt hpart hpos t) hn (fun u => ?_)
      · rw [turn_mem, hpc]
        unfold partitionCount
        simp only [if_neg (show ¬ t ≥ s.nRowsBuf by omega)]
        exact hadd
      · by_cases hu : u = t
        · subst hu
          rw [turn_reg_self, hpc]
          unfold partitionCount
          simp [show ¬ u ≥ s.nRowsBuf by omega]
        · rw [turn_reg_of_ne _ hu]
          simp [hu]
    · refine ⟨trace, h.nodup, fun u => ?_, ?_, ?_⟩
      · rw [h.mem]
        by_cases hu : u = t
        · subst hu
          simp [ht]
        · rw [turn_reg_of_ne _ hu]
      · rw [turn_mem, hpc]
        unfold partitionCount
        simp only [if_pos (show t ≥ s.nRowsBuf by omega)]
        exact h.fits
      · rw [turn_mem, hpc]
        unfold partitionCount
        simp only [if_pos (show t ≥ s.nRowsBuf by omega)]
        exact h.count
  · have hdone : st.reg t = .done := by
      cases hst : st.reg t with
      | start => exact absurd hst hpc
      | done => rfl
    have hstay : turn (partitionCount s) st t = st := by
      unfold turn
      rw [hdone]
      unfold partitionCount
      simp only
      rw [← hdone, Function.update_eq_self]
    exact ⟨trace, by rw [hstay]; exact h⟩

def countLeft : CountPc → ℕ
  | .start => 1
  | .done => 0

theorem countLeft_turn (s : BuildScratch) (t : ℕ) (pc : CountPc) (counts : List ℕ) :
    countLeft (partitionCount s t pc counts).1 ≤ countLeft pc - 1 := by
  unfold partitionCount
  cases pc with
  | start =>
    simp only
    split_ifs <;> exact Nat.le_refl 0
  | done => exact Nat.le_refl 0

/-- Once every row's thread had a turn, the counts are the partitions' sizes. -/
theorem partitionCount_counts {s : BuildScratch} {np : ℕ} (hpart : s.nPartBuf = np) (hpos : 0 < np)
    (hn : s.nRowsBuf < 2 ^ 32) {counts : List ℕ} (hfits : np ≤ counts.length)
    (hzero : ∀ p < np, counts.getD p 0 = 0) {order : List ℕ}
    (horder : ∀ gid < s.nRowsBuf, 1 ≤ order.count gid) :
    (launch (partitionCount s) counts .start order).mem.take np =
      rowCounts (rowPart s) s.nRowsBuf np := by
  obtain ⟨trace, h⟩ := tally_partitionCount hpart hpos hn hfits hzero order
  refine h.take_eq fun t ht => ?_
  have hleft := left_le (countLeft_turn s) counts CountPc.start order t
  have := horder t ht
  cases hreg : (launch (partitionCount s) counts .start order).reg t with
  | start =>
    rw [hreg] at hleft
    simp only [countLeft] at hleft
    omega
  | done => rfl

/-! The second kernel. -/

section Places

variable {part : ℕ → ℕ} {n np : ℕ} {trace : List ℕ}

/-- The place a row took in its partition. -/
def rowSlot (part : ℕ → ℕ) (trace : List ℕ) (t : ℕ) : ℕ := (bucket part trace (part t)).idxOf t

def rowPlace (part : ℕ → ℕ) (n np : ℕ) (trace : List ℕ) (t : ℕ) : ℕ :=
  start (rowCounts part n np) (part t) + rowSlot part trace t

/-- A row keeps its place. -/
theorem rowSlot_concat {t : ℕ} (ht : t ∈ trace) (u : ℕ) :
    rowSlot part (trace ++ [u]) t = rowSlot part trace t := by
  unfold rowSlot
  rw [bucket_concat]
  split_ifs
  · exact List.idxOf_append_of_mem (mem_bucket.2 ⟨ht, rfl⟩)
  · rfl

/-- A new row takes the next place. -/
theorem rowSlot_new {t : ℕ} (ht : t ∉ trace) :
    rowSlot part (trace ++ [t]) t = (bucket part trace (part t)).length := by
  unfold rowSlot
  rw [bucket_concat, if_pos rfl,
    List.idxOf_append_of_notMem fun hmem => ht (mem_bucket.1 hmem).1]
  simp

theorem rowSlot_lt (hnodup : trace.Nodup) (hlt : ∀ t ∈ trace, t < n) {t : ℕ} (ht : t ∈ trace)
    (hp : part t < (rowCounts part n np).length) :
    rowSlot part trace t < (rowCounts part n np)[part t] := by
  rw [getElem_rowCounts hp]
  exact (List.idxOf_lt_length_of_mem (mem_bucket.2 ⟨ht, rfl⟩)).trans_le
    (length_bucket_le hnodup hlt _)

variable (hpart : ∀ t < n, part t < np) (hnodup : trace.Nodup) (hlt : ∀ t ∈ trace, t < n)

include hpart hnodup hlt

theorem rowPlace_lt {t : ℕ} (ht : t ∈ trace) : rowPlace part n np trace t < n := by
  have hp : part t < (rowCounts part n np).length := by
    rw [length_rowCounts]
    exact hpart t (hlt t ht)
  exact (cell_lt hp (rowSlot_lt hnodup hlt ht hp)).trans_eq (sum_rowCounts hpart)

/-- No two rows share a place. -/
theorem rowPlace_inj {t u : ℕ} (ht : t ∈ trace) (hu : u ∈ trace)
    (h : rowPlace part n np trace t = rowPlace part n np trace u) : t = u := by
  have hp : ∀ {v}, v ∈ trace → part v < (rowCounts part n np).length := fun hv => by
    rw [length_rowCounts]
    exact hpart _ (hlt _ hv)
  obtain ⟨hsame, hslot⟩ := cell_inj (hp ht) (hp hu) (rowSlot_lt hnodup hlt ht (hp ht))
    (rowSlot_lt hnodup hlt hu (hp hu)) h
  unfold rowSlot at hslot
  rw [← hsame] at hslot
  exact (List.idxOf_inj (mem_bucket.2 ⟨ht, rfl⟩)).1 hslot

end Places

/-- Where the threads stand and what they have stored. -/
structure ScatterInv (s : BuildScratch) (np : ℕ) (trace : List ℕ)
    (st : State ScatterMem ScatterPc) : Prop where
  tally : Tally (rowPart s) s.nRowsBuf np trace (fun t => st.reg t ≠ .start) st.mem.cursors
  rowsFit : s.nRowsBuf ≤ st.mem.rowIdx.length
  pidsFit : s.nRowsBuf ≤ st.mem.pid.length
  atRow : ∀ t p slot, st.reg t = .storeRow p slot →
    t < s.nRowsBuf ∧ p = rowPart s t ∧ slot = rowSlot (rowPart s) trace t
  atPid : ∀ t p, st.reg t = .storePid p → t < s.nRowsBuf ∧ p = rowPart s t
  row : ∀ t ∈ trace, (∀ p slot, st.reg t ≠ .storeRow p slot) →
    st.mem.rowIdx.getD (rowPlace (rowPart s) s.nRowsBuf np trace t) 0 = t
  pid : ∀ t < s.nRowsBuf, st.reg t = .done → st.mem.pid.getD t 0 = rowPart s t

theorem turn_eq {Mem Reg : Type*} {f : ℕ → Reg → Mem → Reg × Mem} {s : State Mem Reg} {t : ℕ}
    {r : Reg} {m : Mem} (h : f t (s.reg t) s.mem = (r, m)) :
    turn f s t = ⟨m, Function.update s.reg t r⟩ := by
  unfold turn
  rw [h]

section Scatter

variable {s : BuildScratch} {np : ℕ} (hpart : s.nPartBuf = np) (hpos : 0 < np)
  (hn : s.nRowsBuf < 2 ^ 32)
  (hoffsets : ∀ p < np, s.offsets.getD p 0 = start (rowCounts (rowPart s) s.nRowsBuf np) p)

include hpart hpos hn

/-- A thread takes its place. -/
theorem scatterInv_start {trace : List ℕ} {st : State ScatterMem ScatterPc}
    (h : ScatterInv s np trace st) {t : ℕ} (hpc : st.reg t = .start) (ht : t < s.nRowsBuf) :
    ScatterInv s np (trace ++ [t]) (turn (partitionScatterTurn s) st t) := by
  have hfresh : t ∉ trace := fun hmem => ((h.tally.mem t).1 hmem).2 hpc
  have hp := rowPart_lt (s := s) hpart hpos t
  have hturn := turn_eq (f := partitionScatterTurn s) (s := st) (t := t)
    (r := .storeRow (rowPart s t) (st.mem.cursors.getD (rowPart s t) 0))
    (m := { st.mem with
      cursors :=
        st.mem.cursors.set (rowPart s t) (asU32 (st.mem.cursors.getD (rowPart s t) 0 + 1)) }) (by
    rw [hpc]
    unfold partitionScatterTurn
    exact if_neg (show ¬ t ≥ s.nRowsBuf by omega))
  rw [hturn]
  refine ⟨?_, h.rowsFit, h.pidsFit, fun u p slot hu => ?_, fun u p hu => ?_, fun u hu hstored => ?_,
    fun u hu hdone => ?_⟩
  · refine h.tally.add ht (not_not.2 hpc) hp hn fun u => ?_
    by_cases hut : u = t
    · subst hut
      simp
    · simp [hut]
  · by_cases hut : u = t
    · subst hut
      simp only [Function.update_self, ScatterPc.storeRow.injEq] at hu
      obtain ⟨rfl, rfl⟩ := hu
      exact ⟨ht, rfl, by rw [h.tally.count _ hp, rowSlot_new hfresh]⟩
    · simp only [Function.update_of_ne hut] at hu
      obtain ⟨hlt, hpu, hslot⟩ := h.atRow u p slot hu
      have hmem : u ∈ trace := (h.tally.mem u).2 ⟨hlt, by rw [hu]; simp⟩
      exact ⟨hlt, hpu, by rw [rowSlot_concat hmem, hslot]⟩
  · by_cases hut : u = t
    · subst hut
      simp only [Function.update_self] at hu
      cases hu
    · simp only [Function.update_of_ne hut] at hu
      exact h.atPid u p hu
  · by_cases hut : u = t
    · subst hut
      simp only [Function.update_self] at hstored
      exact absurd rfl (hstored _ _)
    · have hmem : u ∈ trace := by
        rcases List.mem_append.1 hu with hu | hu
        · exact hu
        · exact absurd (List.mem_singleton.1 hu) hut
      simp only [Function.update_of_ne hut] at hstored
      unfold rowPlace
      rw [rowSlot_concat hmem]
      exact h.row u hmem hstored
  · by_cases hut : u = t
    · subst hut
      simp only [Function.update_self] at hdone
      cases hdone
    · simp only [Function.update_of_ne hut] at hdone
      exact h.pid u hu hdone

include hoffsets

/-- A thread stores its row in its place. -/
theorem scatterInv_storeRow {trace : List ℕ} {st : State ScatterMem ScatterPc}
    (h : ScatterInv s np trace st) {t p slot : ℕ} (hpc : st.reg t = .storeRow p slot) :
    ScatterInv s np trace (turn (partitionScatterTurn s) st t) := by
  obtain ⟨ht, rfl, rfl⟩ := h.atRow t p slot hpc
  have hlt : ∀ u ∈ trace, u < s.nRowsBuf := fun u hu => ((h.tally.mem u).1 hu).1
  have hall : ∀ u < s.nRowsBuf, rowPart s u < np := fun u _ => rowPart_lt hpart hpos u
  have hmem : t ∈ trace := (h.tally.mem t).2 ⟨ht, by rw [hpc]; simp⟩
  have hplace := rowPlace_lt hall h.tally.nodup hlt hmem
  have hcell : asU32 (s.offsets.getD (rowPart s t) 0 + rowSlot (rowPart s) trace t) =
      rowPlace (rowPart s) s.nRowsBuf np trace t := by
    rw [hoffsets _ (hall t ht)]
    exact asU32_of_lt (hplace.trans hn)
  have hturn := turn_eq (f := partitionScatterTurn s) (s := st) (t := t)
    (r := .storePid (rowPart s t))
    (m := { st.mem with
      rowIdx := st.mem.rowIdx.set (rowPlace (rowPart s) s.nRowsBuf np trace t) t }) (by
    rw [hpc, ← hcell]
    rfl)
  rw [hturn]
  refine ⟨⟨h.tally.nodup, fun u => ?_, h.tally.fits, h.tally.count⟩,
    by rw [List.length_set]; exact h.rowsFit, h.pidsFit, fun u p slot hu => ?_, fun u p hu => ?_,
    fun u hu hstored => ?_, fun u hu hdone => ?_⟩
  · rw [h.tally.mem]
    by_cases hut : u = t
    · subst hut
      simp [hpc]
    · simp [Function.update_of_ne hut]
  · by_cases hut : u = t
    · subst hut
      simp only [Function.update_self] at hu
      cases hu
    · simp only [Function.update_of_ne hut] at hu
      exact h.atRow u p slot hu
  · by_cases hut : u = t
    · subst hut
      simp only [Function.update_self, ScatterPc.storePid.injEq] at hu
      exact ⟨ht, hu.symm⟩
    · simp only [Function.update_of_ne hut] at hu
      exact h.atPid u p hu
  · rw [getD_set _ _ _ _ (hplace.trans_le h.rowsFit)]
    by_cases hut : u = t
    · rw [if_pos (by rw [hut]), hut]
    · have hother : rowPlace (rowPart s) s.nRowsBuf np trace t ≠
          rowPlace (rowPart s) s.nRowsBuf np trace u := fun heq =>
        hut (rowPlace_inj hall h.tally.nodup hlt hmem hu heq).symm
      simp only [Function.update_of_ne hut] at hstored
      rw [if_neg hother]
      exact h.row u hu hstored
  · by_cases hut : u = t
    · subst hut
      simp only [Function.update_self] at hdone
      cases hdone
    · simp only [Function.update_of_ne hut] at hdone
      exact h.pid u hu hdone

omit hpart hpos hn hoffsets in
/-- A thread stores its partition. -/
theorem scatterInv_storePid {trace : List ℕ} {st : State ScatterMem ScatterPc}
    (h : ScatterInv s np trace st) {t p : ℕ} (hpc : st.reg t = .storePid p) :
    ScatterInv s np trace (turn (partitionScatterTurn s) st t) := by
  obtain ⟨ht, rfl⟩ := h.atPid t p hpc
  have hturn := turn_eq (f := partitionScatterTurn s) (s := st) (t := t) (r := .done)
    (m := { st.mem with pid := st.mem.pid.set t (rowPart s t) }) (by
    rw [hpc]
    rfl)
  rw [hturn]
  refine ⟨⟨h.tally.nodup, fun u => ?_, h.tally.fits, h.tally.count⟩, h.rowsFit,
    by rw [List.length_set]; exact h.pidsFit, fun u p slot hu => ?_, fun u p hu => ?_,
    fun u hu hstored => ?_, fun u hu hdone => ?_⟩
  · rw [h.tally.mem]
    by_cases hut : u = t
    · subst hut
      simp [hpc]
    · simp [Function.update_of_ne hut]
  · by_cases hut : u = t
    · subst hut
      simp only [Function.update_self] at hu
      cases hu
    · simp only [Function.update_of_ne hut] at hu
      exact h.atRow u p slot hu
  · by_cases hut : u = t
    · subst hut
      simp only [Function.update_self] at hu
      cases hu
    · simp only [Function.update_of_ne hut] at hu
      exact h.atPid u p hu
  · refine h.row u hu fun p slot hreg => ?_
    by_cases hut : u = t
    · rw [hut, hpc] at hreg
      cases hreg
    · exact hstored p slot (by simp only [Function.update_of_ne hut]; exact hreg)
  · rw [getD_set _ _ _ _ (ht.trans_le h.pidsFit)]
    by_cases hut : u = t
    · rw [if_pos hut.symm, hut]
    · simp only [Function.update_of_ne hut] at hdone
      rw [if_neg (Ne.symm hut)]
      exact h.pid u hu hdone

omit hpart hpos hn hoffsets in
/-- A thread without a row, or one that is through. -/
theorem scatterInv_idle {trace : List ℕ} {st : State ScatterMem ScatterPc}
    (h : ScatterInv s np trace st) {t : ℕ}
    (hidle : st.reg t = .start ∧ t ≥ s.nRowsBuf ∨ st.reg t = .done) :
    ScatterInv s np trace (turn (partitionScatterTurn s) st t) := by
  have hturn := turn_eq (f := partitionScatterTurn s) (s := st) (t := t) (r := .done)
    (m := st.mem) (by
    unfold partitionScatterTurn
    rcases hidle with ⟨hpc, ht⟩ | hpc
    · rw [hpc]
      exact if_pos ht
    · rw [hpc])
  rw [hturn]
  have hreg : ∀ u pc, pc ≠ .start → pc ≠ .done → (Function.update st.reg t .done u = pc ↔
      st.reg u = pc) := by
    intro u pc hstart hdone
    by_cases hut : u = t
    · subst hut
      rw [Function.update_self]
      refine ⟨fun heq => absurd heq.symm hdone, fun heq => ?_⟩
      rcases hidle with ⟨hpc, -⟩ | hpc
      · exact absurd (heq.symm.trans hpc) hstart
      · exact absurd (heq.symm.trans hpc) hdone
    · rw [Function.update_of_ne hut]
  refine ⟨⟨h.tally.nodup, fun u => ?_, h.tally.fits, h.tally.count⟩, h.rowsFit, h.pidsFit,
    fun u p slot hu => h.atRow u p slot ((hreg u _ (by simp) (by simp)).1 hu),
    fun u p hu => h.atPid u p ((hreg u _ (by simp) (by simp)).1 hu),
    fun u hu hstored => h.row u hu fun p slot hu' =>
      hstored p slot ((hreg u _ (by simp) (by simp)).2 hu'), fun u hu hdone => ?_⟩
  · rw [h.tally.mem]
    by_cases hut : u = t
    · subst hut
      rcases hidle with ⟨hpc, ht⟩ | hpc
      · simp [hpc]
        omega
      · simp [hpc]
    · simp [Function.update_of_ne hut]
  · by_cases hut : u = t
    · subst hut
      rcases hidle with ⟨hpc, ht⟩ | hpc
      · omega
      · exact h.pid u hu hpc
    · simp only [Function.update_of_ne hut] at hdone
      exact h.pid u hu hdone

/-- Whatever order the threads take their turns in. -/
theorem scatterInv_launch {m : ScatterMem} (hcursors : np ≤ m.cursors.length)
    (hzero : ∀ p < np, m.cursors.getD p 0 = 0) (hrows : s.nRowsBuf ≤ m.rowIdx.length)
    (hpids : s.nRowsBuf ≤ m.pid.length) (order : List ℕ) :
    ∃ trace, ScatterInv s np trace (launch (partitionScatterTurn s) m .start order) := by
  have hinit : ScatterInv s np [] ⟨m, fun _ => .start⟩ :=
    ⟨⟨List.nodup_nil, by simp, hcursors, hzero⟩, hrows, hpids, by simp, by simp, by simp, by simp⟩
  refine launch_invariant hinit (fun trace st t h => ?_) order
  cases hpc : st.reg t with
  | start =>
    by_cases ht : t < s.nRowsBuf
    · exact ⟨_, scatterInv_start hpart hpos hn h hpc ht⟩
    · exact ⟨_, scatterInv_idle h (Or.inl ⟨hpc, by omega⟩)⟩
  | storeRow p slot => exact ⟨_, scatterInv_storeRow hpart hpos hn hoffsets h hpc⟩
  | storePid p => exact ⟨_, scatterInv_storePid h hpc⟩
  | done => exact ⟨_, scatterInv_idle h (Or.inr hpc)⟩

end Scatter

def scatterLeft : ScatterPc → ℕ
  | .start => 3
  | .storeRow _ _ => 2
  | .storePid _ => 1
  | .done => 0

theorem scatterLeft_turn (s : BuildScratch) (t : ℕ) (pc : ScatterPc) (m : ScatterMem) :
    scatterLeft (partitionScatterTurn s t pc m).1 ≤ scatterLeft pc - 1 := by
  unfold partitionScatterTurn
  cases pc with
  | start =>
    simp only
    split_ifs <;> simp [scatterLeft]
  | storeRow p slot => exact Nat.le_refl 1
  | storePid p => exact Nat.le_refl 0
  | done => exact Nat.le_refl 0

/-! The host's scan. -/

theorem length_exclusiveScan (total : ℕ) (counts : List ℕ) :
    (exclusiveScan total counts).length = counts.length + 1 := by
  induction counts generalizing total with
  | nil => rfl
  | cons count counts ih =>
    rw [exclusiveScan, List.length_cons, ih, List.length_cons]

theorem getD_exclusiveScan {total : ℕ} {counts : List ℕ} (hsum : total + counts.sum < 2 ^ 32)
    {p : ℕ} (hp : p ≤ counts.length) :
    (exclusiveScan total counts).getD p 0 = total + start counts p := by
  induction counts generalizing total p with
  | nil =>
    obtain rfl := Nat.le_zero.1 hp
    rfl
  | cons count counts ih =>
    rw [List.sum_cons] at hsum
    cases p with
    | zero => rfl
    | succ p =>
      have hstep := @ih (total + count) (by omega) p (Nat.le_of_succ_le_succ hp)
      rw [exclusiveScan, List.getD_cons_succ, asU32_of_lt (by omega), hstep]
      unfold start
      rw [List.take_succ_cons, List.sum_cons, Nat.add_assoc]

/-! Both kernels. -/

section Phase

variable {s : BuildScratch} {np : ℕ}

/-- When every thread is through, the rows stand partition by partition. -/
theorem ScatterInv.rows_eq {trace : List ℕ} {st : State ScatterMem ScatterPc}
    (h : ScatterInv s np trace st) (hall : ∀ t, rowPart s t < np)
    (hdone : ∀ t < s.nRowsBuf, st.reg t = .done) :
    trace.Perm (List.range s.nRowsBuf) ∧ st.mem.rowIdx.take s.nRowsBuf =
      ((List.range np).map (bucket (rowPart s) trace)).flatten := by
  have hperm := h.tally.perm fun t ht => by rw [hdone t ht]; simp
  have hlt : ∀ t ∈ trace, t < s.nRowsBuf := fun t ht => ((h.tally.mem t).1 ht).1
  have hsizes : sizes ((List.range np).map (bucket (rowPart s) trace)) =
      rowCounts (rowPart s) s.nRowsBuf np := by
    unfold sizes rowCounts
    rw [List.map_map]
    exact List.map_congr_left fun p _ => (hperm.filter _).length_eq
  refine ⟨hperm, eq_flatten ?_ fun p hp i hi => ?_⟩
  · rw [hsizes, sum_rowCounts fun t _ => hall t, List.length_take, Nat.min_eq_left h.rowsFit]
  · have hget : ((List.range np).map (bucket (rowPart s) trace))[p] =
        bucket (rowPart s) trace p := by simp
    rw [hsizes]
    simp only [hget] at hi ⊢
    have hmem := mem_bucket.1 (List.getElem_mem hi)
    have hbucket : (bucket (rowPart s) trace p).Nodup := h.tally.nodup.filter _
    have hslot : rowSlot (rowPart s) trace (bucket (rowPart s) trace p)[i] = i := by
      unfold rowSlot
      rw [hmem.2]
      exact hbucket.idxOf_getElem i hi
    have hplace := rowPlace_lt (fun t _ => hall t) h.tally.nodup hlt hmem.1
    have hrow := h.row _ hmem.1 fun q slot => by rw [hdone _ (hlt _ hmem.1)]; simp
    unfold rowPlace at hplace hrow
    rw [hmem.2, hslot] at hplace hrow
    rw [List.getElem?_take_of_lt hplace, List.getElem?_eq_getElem (hplace.trans_le h.rowsFit),
      ← getD_of_lt _ _ 0, hrow]

/-- The phase on a scratch that is long enough and whose counters are zero. -/
theorem scatterPhase_eq (hpart : s.nPartBuf = np) (hpos : 0 < np) (hn : s.nRowsBuf < 2 ^ 32)
    (hcounts : np ≤ s.counts.length) (hcursors : np ≤ s.cursors.length)
    (hzeroCounts : ∀ p < np, s.counts.getD p 0 = 0) (hzeroCursors : ∀ p < np, s.cursors.getD p 0 = 0)
    (hoffsets : np + 1 ≤ s.offsets.length) (hrows : s.nRowsBuf ≤ s.rowIdx.length)
    (hpids : s.nRowsBuf ≤ s.pid.length) {g : ScatterRun} (hg : g.Completes s.nRowsBuf) :
    ∃ s' trace, scatterPhase g s np =
        some (s', .ok (exclusiveScan 0 (rowCounts (rowPart s) s.nRowsBuf np))) ∧
      trace.Perm (List.range s.nRowsBuf) ∧ s.nRowsBuf ≤ s'.rowIdx.length ∧
      s'.rowIdx.take s.nRowsBuf = ((List.range np).map (bucket (rowPart s) trace)).flatten ∧
      s'.offsets.take (np + 1) = exclusiveScan 0 (rowCounts (rowPart s) s.nRowsBuf np) ∧
      s.nRowsBuf ≤ s'.pid.length ∧ ∀ t < s.nRowsBuf, s'.pid.getD t 0 = rowPart s t := by
  set offsets := exclusiveScan 0 (rowCounts (rowPart s) s.nRowsBuf np) with hoff
  have hlen : offsets.length = np + 1 := by
    rw [hoff, length_exclusiveScan, length_rowCounts]
  have hall : ∀ t, rowPart s t < np := rowPart_lt hpart hpos
  have hcount := partitionCount_counts hpart hpos hn hcounts hzeroCounts hg.count
  set counts := (launch (partitionCount s) s.counts .start g.countOrder).mem with hcdef
  have hclen : counts.length = s.counts.length := length_partitionCount s s.counts _
  -- the second kernel reads the offsets just written
  set s₁ : BuildScratch := { s with
    counts := counts, offsets := offsets ++ s.offsets.drop offsets.length } with hs₁
  have hread : ∀ p < np, s₁.offsets.getD p 0 = start (rowCounts (rowPart s) s.nRowsBuf np) p := by
    intro p hp
    have hscan := @getD_exclusiveScan 0 (rowCounts (rowPart s) s.nRowsBuf np)
      (by rw [sum_rowCounts fun t _ => hall t]; omega) p (by rw [length_rowCounts]; omega)
    rw [Nat.zero_add] at hscan
    rw [← hscan, hs₁, List.getD_eq_getElem?_getD, List.getElem?_append_left (by rw [hlen]; omega),
      ← List.getD_eq_getElem?_getD]
  obtain ⟨trace, hinv⟩ := scatterInv_launch (s := s₁) (m := ⟨s.cursors, s.rowIdx, s.pid⟩) hpart hpos
    hn hread hcursors hzeroCursors hrows hpids g.scatterOrder
  set st := launch (partitionScatterTurn s₁) ⟨s.cursors, s.rowIdx, s.pid⟩ .start g.scatterOrder
    with hst
  have hdone : ∀ t < s.nRowsBuf, st.reg t = .done := by
    intro t ht
    have hleft := left_le (scatterLeft_turn s₁) ⟨s.cursors, s.rowIdx, s.pid⟩ ScatterPc.start
      g.scatterOrder t
    have hturns := hg.scatter t ht
    rw [← hst] at hleft
    cases hreg : st.reg t with
    | start => rw [hreg] at hleft; simp only [scatterLeft] at hleft; omega
    | storeRow => rw [hreg] at hleft; simp only [scatterLeft] at hleft; omega
    | storePid => rw [hreg] at hleft; simp only [scatterLeft] at hleft; omega
    | done => rfl
  obtain ⟨hperm, hrows'⟩ := hinv.rows_eq hall hdone
  refine ⟨{ s₁ with cursors := st.mem.cursors, rowIdx := st.mem.rowIdx, pid := st.mem.pid }, trace,
    ?_, hperm, hinv.rowsFit, hrows', ?_, hinv.pidsFit, fun t ht => hinv.pid t ht (hdone t ht)⟩
  · unfold scatterPhase
    have hdisp := hg.dispatches
    have hreadback : readbackU32 counts np = some (rowCounts (rowPart s) s.nRowsBuf np) := by
      unfold readbackU32
      rw [if_pos (by omega), hcount]
    have hwrite : BuildScratch.writeOffsets { s with counts := counts } offsets = some s₁ := by
      unfold BuildScratch.writeOffsets BuildScratch.copyPrefix
      rw [if_pos (by rw [hlen]; exact hoffsets)]
      rfl
    simp only [← hcdef, if_neg (show ¬ g.dispatches = 0 by omega),
      if_neg (show ¬ g.dispatches = 1 by omega), hreadback, ← hoff, Option.bind_eq_bind,
      Option.bind_some, hwrite]
    rfl
  · rw [hs₁, ← hlen, List.take_left]

end Phase

/-! A build, and any number of them. -/

/-- The buffers keep their lengths, the scratch its capacities. -/
structure SameShape (s s' : BuildScratch) : Prop where
  counts : s'.counts.length = s.counts.length
  cursors : s'.cursors.length = s.cursors.length
  offsets : s'.offsets.length = s.offsets.length
  overflow : s'.overflow.length = s.overflow.length
  keys : s'.keys.length = s.keys.length
  rowIdx : s'.rowIdx.length = s.rowIdx.length
  pid : s'.pid.length = s.pid.length
  capacityRows : s'.capacityRows = s.capacityRows
  capacityPartitions : s'.capacityPartitions = s.capacityPartitions

theorem SameShape.trans {s₁ s₂ s₃ : BuildScratch} (h : SameShape s₁ s₂) (h' : SameShape s₂ s₃) :
    SameShape s₁ s₃ :=
  ⟨h'.counts.trans h.counts, h'.cursors.trans h.cursors, h'.offsets.trans h.offsets,
    h'.overflow.trans h.overflow, h'.keys.trans h.keys, h'.rowIdx.trans h.rowIdx,
    h'.pid.trans h.pid, h'.capacityRows.trans h.capacityRows,
    h'.capacityPartitions.trans h.capacityPartitions⟩

theorem Fits.of_shape {s s' : BuildScratch} (h : Fits s) (hshape : SameShape s s') : Fits s' := by
  obtain ⟨hcounts, hcursors, hoffsets, hoverflow, hkeys, hrow, hpid⟩ := h
  refine ⟨?_, ?_, ?_, ?_, ?_, ?_, ?_⟩
  · rw [hshape.counts, hshape.capacityPartitions]; exact hcounts
  · rw [hshape.cursors, hshape.capacityPartitions]; exact hcursors
  · rw [hshape.offsets, hshape.capacityPartitions]; exact hoffsets
  · rw [hshape.overflow]; exact hoverflow
  · rw [hshape.keys, hshape.capacityRows]; exact hkeys
  · rw [hshape.rowIdx, hshape.capacityRows]; exact hrow
  · rw [hshape.pid, hshape.capacityRows]; exact hpid

theorem zeroPrefix_eq_some {buf buf' : List ℕ} {n : ℕ}
    (h : BuildScratch.zeroPrefix buf n = some buf') :
    buf'.length = buf.length ∧ ∀ i < n, buf'.getD i 0 = 0 := by
  unfold BuildScratch.zeroPrefix at h
  split_ifs at h with hn
  rw [← Option.some.inj h]
  refine ⟨?_, fun i hi => ?_⟩
  · rw [List.length_append, List.length_replicate, List.length_drop]
    omega
  · rw [List.getD_eq_getElem?_getD, List.getElem?_append_left (by simpa using hi),
      List.getElem?_replicate, if_pos hi, Option.getD_some]

theorem copyPrefix_eq_some {α : Type} {src dst dst' : List α}
    (h : BuildScratch.copyPrefix src dst = some dst') :
    dst'.length = dst.length ∧ dst' = src ++ dst.drop src.length := by
  unfold BuildScratch.copyPrefix at h
  split_ifs at h with hle
  rw [← Option.some.inj h]
  refine ⟨?_, rfl⟩
  rw [List.length_append, List.length_drop]
  omega

theorem reset_eq_some {s s' : BuildScratch} {nRows np log2 : ℕ}
    (h : s.reset nRows np log2 = some s') : SameShape s s' ∧ s'.nRowsBuf = nRows ∧
      s'.nPartBuf = np ∧ s'.log2Buf = log2 ∧ (∀ p < np, s'.counts.getD p 0 = 0) ∧
      ∀ p < np, s'.cursors.getD p 0 = 0 := by
  unfold BuildScratch.reset at h
  simp only [Option.bind_eq_bind, Option.bind_eq_some_iff] at h
  obtain ⟨counts, hcounts, cursors, hcursors, overflow, hoverflow, heq⟩ := h
  rw [← Option.some.inj heq]
  obtain ⟨hlen, hzero⟩ := zeroPrefix_eq_some hcounts
  obtain ⟨hlen', hzero'⟩ := zeroPrefix_eq_some hcursors
  obtain ⟨hlen'', -⟩ := zeroPrefix_eq_some hoverflow
  exact ⟨⟨hlen, hlen', rfl, hlen'', rfl, rfl, rfl, rfl, rfl⟩, rfl, rfl, rfl, hzero, hzero'⟩

theorem writeKeys_eq_some {s s' : BuildScratch} {keys : List Lane} (h : s.writeKeys keys = some s') :
    SameShape s s' ∧ s' = { s with keys := s'.keys } ∧
      ∀ r < keys.length, s'.keys.getD r 0 = keys.getD r 0 := by
  unfold BuildScratch.writeKeys at h
  simp only [Option.bind_eq_bind, Option.bind_eq_some_iff] at h
  obtain ⟨keys', hcopy, heq⟩ := h
  obtain ⟨hlen, hkeys⟩ := copyPrefix_eq_some hcopy
  rw [← Option.some.inj heq]
  refine ⟨⟨rfl, rfl, rfl, rfl, hlen, rfl, rfl, rfl, rfl⟩, rfl, fun r hr => ?_⟩
  rw [hkeys, List.getD_eq_getElem?_getD, List.getElem?_append_left hr, List.getD_eq_getElem?_getD]

theorem length_partitionScatterTurn (s : BuildScratch) (m : ScatterMem) (order : List ℕ) :
    (launch (partitionScatterTurn s) m .start order).mem.cursors.length = m.cursors.length ∧
      (launch (partitionScatterTurn s) m .start order).mem.rowIdx.length = m.rowIdx.length ∧
      (launch (partitionScatterTurn s) m .start order).mem.pid.length = m.pid.length := by
  induction order using List.reverseRecOn with
  | nil => exact ⟨rfl, rfl, rfl⟩
  | append_singleton order t ih =>
    rw [launch_concat, turn_mem]
    unfold partitionScatterTurn at *
    cases (launch _ m ScatterPc.start order).reg t with
    | start =>
      simp only
      split_ifs
      · exact ih
      · rw [List.length_set]
        exact ih
    | storeRow p slot =>
      rw [List.length_set]
      exact ih
    | storePid p =>
      rw [List.length_set]
      exact ih
    | done => exact ih

/-- However the phase ends. -/
theorem scatterPhase_shape {g : ScatterRun} {s s' : BuildScratch} {np : ℕ}
    {out : Except ScatterError (List ℕ)} (h : scatterPhase g s np = some (s', out)) :
    SameShape s s' := by
  have hlen := length_partitionCount s s.counts g.countOrder
  unfold scatterPhase at h
  by_cases h0 : g.dispatches = 0
  · simp only [if_pos h0] at h
    rw [← (Prod.mk.inj (Option.some.inj h)).1]
    exact ⟨hlen, rfl, rfl, rfl, rfl, rfl, rfl, rfl, rfl⟩
  · simp only [if_neg h0, Option.bind_eq_bind, Option.bind_eq_some_iff] at h
    obtain ⟨counts, -, s₁, hwrite, h⟩ := h
    unfold BuildScratch.writeOffsets at hwrite
    simp only [Option.bind_eq_bind, Option.bind_eq_some_iff] at hwrite
    obtain ⟨offsets, hcopy, hs₁⟩ := hwrite
    obtain ⟨hoff, -⟩ := copyPrefix_eq_some hcopy
    obtain ⟨hcur, hrow, hpid⟩ := length_partitionScatterTurn s₁ ⟨s₁.cursors, s₁.rowIdx, s₁.pid⟩
      g.scatterOrder
    have hshape₁ : SameShape s s₁ := by
      rw [← Option.some.inj hs₁]
      exact ⟨hlen, rfl, hoff, rfl, rfl, rfl, rfl, rfl, rfl⟩
    split_ifs at h
    · rw [← (Prod.mk.inj (Option.some.inj h)).1]
      exact hshape₁.trans ⟨rfl, hcur, rfl, rfl, rfl, hrow, hpid, rfl, rfl⟩
    · rw [← (Prod.mk.inj (Option.some.inj h)).1]
      exact hshape₁.trans ⟨rfl, hcur, rfl, rfl, rfl, hrow, hpid, rfl, rfl⟩

/-- Whatever becomes of a build, the scratch still fits. -/
theorem scatterRows_fits {g : ScatterRun} {s s' : BuildScratch} {keys : List Lane} {np : ℕ}
    {out : Except ScatterError (List ℕ)} (h : Fits s)
    (hrun : scatterRows g s keys np = some (s', out)) : Fits s' := by
  obtain ⟨hfits, -, -⟩ := ensure_fits h g.allocs keys.length np
  unfold scatterRows at hrun
  simp only at hrun
  by_cases hgrown : (s.ensure g.allocs keys.length np).2 = false
  · rw [if_pos hgrown] at hrun
    rw [← (Prod.mk.inj (Option.some.inj hrun)).1]
    exact hfits
  · simp only [if_neg hgrown, Option.bind_eq_bind, Option.bind_eq_some_iff] at hrun
    obtain ⟨s₁, hreset, s₂, hkeys, hphase⟩ := hrun
    exact hfits.of_shape (((reset_eq_some hreset).1.trans (writeKeys_eq_some hkeys).1).trans
      (scatterPhase_shape hphase))

theorem buildOnScratch_fits {g : ScatterRun} {s s' : BuildScratch} {keys : List Lane} {np : ℕ}
    {out : Except ScatterError (List ℕ)} (h : Fits s)
    (hrun : buildOnScratch g s keys np = some (s', out)) : Fits s' := by
  unfold buildOnScratch at hrun
  split_ifs at hrun
  · rw [← (Prod.mk.inj (Option.some.inj hrun)).1]
    exact h
  · rw [← (Prod.mk.inj (Option.some.inj hrun)).1]
    exact h
  · simp only [Option.bind_eq_bind, Option.bind_eq_some_iff] at hrun
    obtain ⟨⟨s₁, scattered⟩, hrows, hrun⟩ := hrun
    have hfits := scatterRows_fits h hrows
    cases scattered with
    | error e =>
      rw [← (Prod.mk.inj (Option.some.inj hrun)).1]
      exact hfits
    | ok partitionOffsets =>
      rw [← (Prod.mk.inj (Option.some.inj hrun)).1]
      exact hfits.of_shape ⟨rfl, rfl, rfl, Interleave.length_foldl_store _ _, rfl, rfl, rfl, rfl, rfl⟩

theorem Reachable.fits {s : BuildScratch} (h : Reachable s) : Fits s := by
  induction h with
  | new => exact fits_new
  | build _ hrun ih => exact buildOnScratch_fits ih hrun

/-- The buckets joined are a partition of the rows. -/
theorem partitionsRows_flatten {keys : List Lane} {np : ℕ} {part : ℕ → ℕ} {trace : List ℕ}
    (hn : keys.length < 2 ^ 32) (hlt : ∀ r < keys.length, part r < np)
    (hpart : ∀ r < keys.length, part r = partitionId (keys.getD r 0) np)
    (hperm : trace.Perm (List.range keys.length)) :
    PartitionsRows keys np ((List.range np).map (bucket part trace)).flatten
      (exclusiveScan 0 (rowCounts part keys.length np)) := by
  have hsum := sum_rowCounts hlt
  have hlen : (rowCounts part keys.length np).length = np := length_rowCounts
  have hscan : ∀ p ≤ np, (exclusiveScan 0 (rowCounts part keys.length np)).getD p 0 =
      start (rowCounts part keys.length np) p := by
    intro p hp
    have := @getD_exclusiveScan 0 (rowCounts part keys.length np)
      (by rw [hsum]; omega) p (by rw [hlen]; exact hp)
    rwa [Nat.zero_add] at this
  have hmemTrace : ∀ r, r ∈ trace ↔ r < keys.length := fun r => by
    rw [hperm.mem_iff, List.mem_range]
  have hsizes : sizes ((List.range np).map (bucket part trace)) =
      rowCounts part keys.length np := by
    unfold sizes rowCounts
    rw [List.map_map]
    exact List.map_congr_left fun p _ => (hperm.filter _).length_eq
  refine ⟨?_, by rw [length_exclusiveScan, hlen], by rw [hscan 0 (by omega), start_zero], ?_⟩
  · have hflat : ((List.range np).map (bucket part trace)).flatten =
        StableSort.bucketPass np part trace := rfl
    rw [hflat]
    exact (StableSort.bucketPass_perm fun r hr => hlt r ((hmemTrace r).1 hr)).trans hperm
  · intro p hp
    rw [hscan p (by omega), hscan (p + 1) hp]
    have hle := start_mono (rowCounts part keys.length np) (show p + 1 ≤ _ from hlen.symm ▸ hp)
    rw [start_length, hsum] at hle
    refine ⟨start_mono _ (Nat.le_succ p), hle, fun r => ?_⟩
    have hslice := @slice_flatten _ ((List.range np).map (bucket part trace)) p
      (by simpa using hp)
    rw [hsizes] at hslice
    rw [hslice, List.getElem_map, List.getElem_range, mem_bucket, hmemTrace]
    refine and_congr_right fun hr => ?_
    rw [hpart r hr]

/-- The buckets are the slices of the scatter that takes each thread whole, in the order in which
the threads took their places. -/
theorem map_bucket_eq_partitionScatter {keys : List Lane} {np : ℕ} {part : ℕ → ℕ} {trace : List ℕ}
    (hpart : ∀ r < keys.length, part r = partitionId (keys.getD r 0) np)
    (hperm : trace.Perm (List.range keys.length)) :
    (List.range np).map (bucket part trace) = partitionScatter keys np trace := by
  rw [partitionScatter_eq]
  refine List.map_congr_left fun p _ => List.filter_congr fun r hr => ?_
  have hr : r < keys.length := List.mem_range.1 (hperm.mem_iff.1 hr)
  rw [hpart r hr]
  simp [hr, keyOf]

/-- A build that meets no fault, on any scratch that fits. -/
theorem scatterRows_spec {s : BuildScratch} (h : Fits s) {g : ScatterRun} {keys : List Lane}
    {np : ℕ} (hpos : 0 < np) (hn : keys.length < 2 ^ 32) (hg : g.Completes keys.length) :
    ∃ s' offsets, scatterRows g s keys np = some (s', .ok offsets) ∧
      keys.length ≤ s'.rowIdx.length ∧ keys.length ≤ s'.pid.length ∧
      s'.offsets.take (np + 1) = offsets ∧
      PartitionsRows keys np (s'.rowIdx.take keys.length) offsets ∧
      (∀ r < keys.length, s'.pid.getD r 0 = partitionId (keys.getD r 0) np) ∧
      ∃ trace, trace.Perm (List.range keys.length) ∧
        s'.rowIdx.take keys.length = (partitionScatter keys np trace).flatten := by
  obtain ⟨hfits, hcap, hgrown⟩ := ensure_fits h g.allocs keys.length np
  have hgrown := hgrown hg.allocs
  obtain ⟨hcapP, hcapR⟩ := hcap hgrown
  set s₁ := (s.ensure g.allocs keys.length np).1 with hs₁
  obtain ⟨s₂, hreset⟩ : ∃ s₂, s₁.reset keys.length np log2Tgsm = some s₂ := by
    unfold BuildScratch.reset BuildScratch.zeroPrefix
    rw [if_pos (hcapP.trans hfits.counts), if_pos (hcapP.trans hfits.cursors),
      if_pos hfits.overflow]
    exact ⟨_, rfl⟩
  obtain ⟨hshape, hnRows, hnPart, hlog2, hzeroCounts, hzeroCursors⟩ := reset_eq_some hreset
  have hfits₂ := hfits.of_shape hshape
  rw [← hshape.capacityPartitions] at hcapP
  rw [← hshape.capacityRows] at hcapR
  obtain ⟨s₃, hkeys⟩ : ∃ s₃, s₂.writeKeys keys = some s₃ := by
    unfold BuildScratch.writeKeys BuildScratch.copyPrefix
    rw [if_pos (hcapR.trans hfits₂.keys)]
    exact ⟨_, rfl⟩
  obtain ⟨hshape₃, hs₃, hget⟩ := writeKeys_eq_some hkeys
  have hfits₃ := hfits₂.of_shape hshape₃
  rw [← hshape₃.capacityPartitions] at hcapP
  rw [← hshape₃.capacityRows] at hcapR
  replace hnRows : s₃.nRowsBuf = keys.length := by rw [hs₃]; exact hnRows
  replace hnPart : s₃.nPartBuf = np := by rw [hs₃]; exact hnPart
  replace hlog2 : s₃.log2Buf = log2Tgsm := by rw [hs₃]; exact hlog2
  replace hzeroCounts : ∀ p < np, s₃.counts.getD p 0 = 0 := by rw [hs₃]; exact hzeroCounts
  replace hzeroCursors : ∀ p < np, s₃.cursors.getD p 0 = 0 := by rw [hs₃]; exact hzeroCursors
  have hrowPart : ∀ r < keys.length, rowPart s₃ r = partitionId (keys.getD r 0) np := by
    intro r hr
    unfold rowPart devicePartitionId
    rw [hget r hr, hnPart, hlog2]
    rfl
  obtain ⟨s', trace, hphase, hperm, hrows, hrowIdx, hoffsets, hpids, hpid⟩ := scatterPhase_eq
    (g := g) hnPart hpos (hnRows.symm ▸ hn) (hcapP.trans hfits₃.counts)
    (hcapP.trans hfits₃.cursors) hzeroCounts hzeroCursors
    ((Nat.succ_le_succ hcapP).trans hfits₃.offsets) (hnRows.symm ▸ hcapR.trans hfits₃.rowIdx)
    (hnRows.symm ▸ hcapR.trans hfits₃.pid) (hnRows.symm ▸ hg)
  rw [hnRows] at hphase hperm hrows hrowIdx hoffsets hpids hpid
  refine ⟨s', _, ?_, hrows, hpids, hoffsets, ?_, fun r hr => by rw [hpid r hr, hrowPart r hr],
    trace, hperm, by rw [hrowIdx, map_bucket_eq_partitionScatter hrowPart hperm]⟩
  · unfold scatterRows
    simp only [← hs₁, if_neg (show ¬ (s.ensure g.allocs keys.length np).2 = false by rw [hgrown]; simp),
      hreset, hkeys, Option.bind_eq_bind, Option.bind_some]
    exact hphase
  · rw [hrowIdx]
    refine partitionsRows_flatten hn (fun r _ => ?_) hrowPart hperm
    exact rowPart_lt hnPart hpos r

theorem partitionsRows_nil (np : ℕ) : PartitionsRows [] np [] (List.replicate (np + 1) 0) := by
  have hzero : ∀ p, (List.replicate (np + 1) 0).getD p 0 = 0 := fun p => getD_replicate _ p 0
  refine ⟨List.Perm.refl _, List.length_replicate, hzero 0, fun p _ => ?_⟩
  rw [hzero, hzero]
  refine ⟨Nat.le_refl 0, Nat.le_refl 0, fun r => ⟨fun h => ?_, fun h => ?_⟩⟩
  · rw [List.take_nil, List.drop_nil] at h
    cases h
  · exact absurd h.1 (Nat.not_lt_zero r)

/-- Every scatter partitions the rows: on the scratch any sequence of builds leaves, in any order of
the threads' turns, and on a scratch of its own. -/
theorem scatter_partitionsRows {s : BuildScratch} (hs : Reachable s) {g : ScatterRun}
    {keys : List Lane} {np : ℕ} (hpow : ∃ k, np = 2 ^ k) (hn : keys.length < 2 ^ 32)
    (hg : g.Completes keys.length) :
    (keys ≠ [] → ∃ s' offsets, buildOnScratch g s keys np = some (s', .ok offsets) ∧
      s'.offsets.take (np + 1) = offsets ∧
      PartitionsRows keys np (s'.rowIdx.take keys.length) offsets ∧
      ∀ r < keys.length, s'.pid.getD r 0 = partitionId (keys.getD r 0) np) ∧
    ∃ out, partitionAndScatter g keys np = some (.ok out) ∧
      PartitionsRows keys np out.rowIndices out.partitionOffsets ∧
      ∀ r < keys.length, out.partitionIdPerRow.getD r 0 = partitionId (keys.getD r 0) np := by
  obtain ⟨k, rfl⟩ := hpow
  have hassert : ¬ 2 ^ k ≠ 2 ^ (2 ^ k).log2 := by
    rw [Nat.log2_two_pow]
    exact not_not.2 rfl
  have hpos : 0 < 2 ^ k := Nat.two_pow_pos k
  refine ⟨fun hne => ?_, ?_⟩
  · obtain ⟨s', offsets, hrun, -, -, htake, hrows, hpid, -⟩ := scatterRows_spec hs.fits hpos hn hg
    refine ⟨{ s' with
      r2lg := g.r2lgStores.foldl Interleave.store s'.r2lg
      ngPerPart := g.ngStores.foldl Interleave.store s'.ngPerPart
      overflow := g.overflowStores.foldl Interleave.store s'.overflow }, offsets, ?_, htake, hrows,
      hpid⟩
    unfold buildOnScratch
    rw [if_neg hne, if_neg hassert, if_neg (by omega), hrun]
    rfl
  · by_cases hne : keys = []
    · subst hne
      refine ⟨⟨[], List.replicate (2 ^ k + 1) 0, []⟩, ?_, partitionsRows_nil _, by simp⟩
      unfold partitionAndScatter
      rw [if_pos rfl]
    · obtain ⟨s', offsets, hrun, hrow, hpids, -, hrows, hpid, -⟩ :=
        scatterRows_spec fits_new hpos hn hg
      refine ⟨⟨s'.rowIdx.take keys.length, offsets, s'.pid.take keys.length⟩, ?_, hrows,
        fun r hr => ?_⟩
      · have hread : ∀ buf : List ℕ, keys.length ≤ buf.length →
            readbackU32 buf keys.length = some (buf.take keys.length) := fun buf hle => if_pos hle
        unfold partitionAndScatter
        rw [if_neg hne, if_neg hassert]
        simp only [if_neg (show ¬ keys.length ≥ 2 ^ 32 by omega), hrun, hread _ hrow, hread _ hpids,
          Option.bind_eq_bind, Option.bind_some]
        rfl
      · rw [← hpid r hr, List.getD_eq_getElem?_getD, List.getElem?_take_of_lt hr,
          ← List.getD_eq_getElem?_getD]

/-- A build of five rows that fails in its second dispatch, two of its threads under way. -/
def failedRun : ScatterRun := ⟨8, 1, [4, 0, 2, 1, 3], [0, 3, 0, 3, 3], [], [], []⟩

/-- Three rows, their threads interleaved, on the scratch that build leaves. -/
theorem scatter_partitionsRows_sample :
    ∃ s, buildOnScratch failedRun .new [5, 9, 5, 7, 1] 8 = some (s, .error .dispatch) ∧
      s.cursors ≠ List.replicate 8 0 ∧
      ∃ s' offsets, buildOnScratch ⟨8, 2, [2, 0, 1], [0, 2, 2, 1, 0, 1, 2, 0, 1], [], [], []⟩ s
          [5, 9, 5] 4 = some (s', .ok offsets) ∧
        s'.offsets.take 5 = offsets ∧
        PartitionsRows [5, 9, 5] 4 (s'.rowIdx.take 3) offsets ∧
        ∀ r < 3, s'.pid.getD r 0 = partitionId (([5, 9, 5] : List Lane).getD r 0) 4 := by
  have hfailed : ∃ s, buildOnScratch failedRun .new [5, 9, 5, 7, 1] 8 = some (s, .error .dispatch) ∧
      s.cursors ≠ List.replicate 8 0 := ⟨_, by rfl, by decide +kernel⟩
  obtain ⟨s, hrun, hdirty⟩ := hfailed
  exact ⟨s, hrun, hdirty, (scatter_partitionsRows (.build .new hrun) ⟨2, rfl⟩ (by decide)
    ⟨by decide, by decide, by decide, by decide⟩).1 (by decide)⟩

end PolarsMetal.GroupBy
