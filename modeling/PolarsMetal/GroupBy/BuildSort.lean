import PolarsMetal.GroupBy.BuildHash

/-! The sort build. After the stable radix sort equal keys stand together, in row
order, so the boundary bits mark exactly the first rows of the groups and the
scan numbers the keys in sorted order. -/

namespace PolarsMetal.GroupBy
open Bitmap StableSort Grouping Reads

/-! The radix sort. -/

theorem laneDigit_eq (lane : ℕ) (pair : Lane × ℕ) :
    laneDigit lane pair = keyDigit (fun p : Lane × ℕ => p.1.toNat) 256 lane pair := by
  rw [laneDigit, keyDigit, BitVec.toNat_and, BitVec.toNat_ushiftRight,
    Nat.shiftRight_eq_div_pow, show (256 : ℕ) ^ lane = 2 ^ (8 * lane) by rw [Nat.pow_mul]]
  exact Nat.and_two_pow_sub_one_eq_mod _ 8

theorem foldl_runRadixLane (pairs : List (Lane × ℕ)) :
    (List.range 16).foldl runRadixLane pairs =
      lsdSort 256 (keyDigit (fun p : Lane × ℕ => p.1.toNat) 256) 16 pairs := by
  unfold lsdSort runRadixLane
  have h : ∀ lane, laneDigit lane = keyDigit (fun p : Lane × ℕ => p.1.toNat) 256 lane :=
    fun lane => funext (laneDigit_eq lane)
  simp only [h]

/-- Rows in key order, and in row order among equal keys. -/
structure SortedRows (keys : List Lane) (rows : List ℕ) : Prop where
  perm : rows.Perm (List.range keys.length)
  sorted : rows.Pairwise (fun a b => keyOf keys a < keyOf keys b ∨
    keyOf keys a = keyOf keys b ∧ a < b)

theorem zip_rows_eq {keys : List Lane} (hlen : keys.length < 2 ^ 32) :
    keys.zip ((List.range keys.length).map asU32) =
      (List.range keys.length).map (fun r => (keyOf keys r, r)) := by
  apply List.ext_getElem
  · simp
  · intro i h1 h2
    have hi : i < keys.length := by simpa using h2
    have hkey : keyOf keys i = keys[i] := getD_of_lt keys hi 0
    simp [hkey, asU32_of_lt (show i < 2 ^ 32 by omega)]

theorem perm_radixLanes (pairs : List (Lane × ℕ)) :
    ((List.range 16).foldl runRadixLane pairs).Perm pairs := by
  rw [foldl_runRadixLane]
  exact lsdSort_perm _ (by omega) 16 pairs

theorem sorted_radixLanes {pairs : List (Lane × ℕ)} (h : pairs.Pairwise (fun a b => a.2 < b.2)) :
    ((List.range 16).foldl runRadixLane pairs).Pairwise (fun a b => a.1.toNat < b.1.toNat ∨
      a.1.toNat = b.1.toNat ∧ a.2 < b.2) := by
  have hlt : ∀ p : Lane × ℕ, p.1.toNat < 256 ^ 16 := by
    intro p
    rw [show (256 : ℕ) ^ 16 = 2 ^ 128 by norm_num]
    exact p.1.isLt
  rw [foldl_runRadixLane]
  exact lsdSort_sorted (fun p : Lane × ℕ => p.1.toNat) (by omega) h hlt

/-- The sorted keys are the keys of the sorted rows. -/
theorem sortU128_spec {keys : List Lane} (hlen : keys.length < 2 ^ 32) :
    ∃ rows, sortU128 keys = (rows.map (keyOf keys), rows) ∧ SortedRows keys rows := by
  have hpairs : ((List.range keys.length).map (fun r => (keyOf keys r, r))).Pairwise
      (fun a b => a.2 < b.2) := by
    rw [List.pairwise_map]
    exact List.pairwise_lt_range
  have hperm := perm_radixLanes ((List.range keys.length).map (fun r => (keyOf keys r, r)))
  have horder := sorted_radixLanes hpairs
  rw [sortU128, zip_rows_eq hlen]
  generalize (List.range 16).foldl runRadixLane
    ((List.range keys.length).map (fun r => (keyOf keys r, r))) = sorted at hperm horder
  have hkey : ∀ p ∈ sorted, p.1 = keyOf keys p.2 := by
    intro p hp
    obtain ⟨r, -, rfl⟩ := List.mem_map.1 (hperm.mem_iff.1 hp)
    rfl
  refine ⟨sorted.map Prod.snd, ?_, ?_, ?_⟩
  · rw [List.map_map]
    exact Prod.ext (List.map_congr_left hkey) rfl
  · have := hperm.map Prod.snd
    rwa [List.map_map, show Prod.snd ∘ (fun r => (keyOf keys r, r)) = id from rfl,
      List.map_id] at this
  · rw [List.pairwise_map]
    refine horder.imp_of_mem (fun ha hb hab => ?_)
    rw [← hkey _ ha, ← hkey _ hb]
    rcases hab with hlt | ⟨heq, hlt⟩
    · exact Or.inl hlt
    · exact Or.inr ⟨BitVec.eq_of_toNat_eq heq, hlt⟩

/-! The boundary bits. -/

theorem halves_ne_iff (a b : Lane) :
    (a.setWidth 64 ≠ b.setWidth 64 ∨ (a >>> 64).setWidth 64 ≠ (b >>> 64).setWidth 64) ↔ a ≠ b := by
  refine ⟨?_, ?_⟩
  · rintro (h | h) rfl
    · exact h rfl
    · exact h rfl
  · intro h
    by_contra hall
    push Not at hall
    obtain ⟨hlo, hhi⟩ := hall
    apply h
    apply BitVec.eq_of_getLsbD_eq
    intro i hi
    by_cases hlow : i < 64
    · have := congrArg (fun x : BitVec 64 => x.getLsbD i) hlo
      simpa [BitVec.getLsbD_setWidth, hlow] using this
    · have := congrArg (fun x : BitVec 64 => x.getLsbD (i - 64)) hhi
      simpa [BitVec.getLsbD_setWidth, BitVec.getLsbD_ushiftRight, show i - 64 < 64 by omega,
        show 64 + (i - 64) = i by omega] using this

def IsStart (sortedKeys : List Lane) (i : ℕ) : Prop :=
  i = 0 ∨ sortedKeys.getD i 0 ≠ sortedKeys.getD (i - 1) 0

open Classical in
theorem segmentStartsThread_eq (sortedKeys : List Lane) (starts : List (BitVec 32)) (gid : ℕ) :
    segmentStartsThread (sortedKeys.map (fun k : Lane => k.setWidth 64))
        (sortedKeys.map (fun k : Lane => (k >>> 64).setWidth 64)) sortedKeys.length starts gid =
      if gid < sortedKeys.length ∧ IsStart sortedKeys gid then orBit starts gid else starts := by
  have hlo : ∀ i, (sortedKeys.map (fun k : Lane => k.setWidth 64)).getD i 0 =
      (sortedKeys.getD i 0).setWidth 64 := fun i => getD_map _ sortedKeys i 0
  have hhi : ∀ i, (sortedKeys.map (fun k : Lane => (k >>> 64).setWidth 64)).getD i 0 =
      (sortedKeys.getD i 0 >>> 64).setWidth 64 :=
    fun i => getD_map (fun k : Lane => (k >>> 64).setWidth 64) sortedKeys i 0
  simp only [segmentStartsThread, hlo, hhi, halves_ne_iff, IsStart]
  by_cases hlt : gid < sortedKeys.length
  · simp [hlt]
  · simp [hlt]

open Classical in
theorem foldl_segmentStartsThread (sortedKeys : List Lane) (threads : List ℕ)
    (starts : List (BitVec 32)) :
    threads.foldl (segmentStartsThread (sortedKeys.map (fun k : Lane => k.setWidth 64))
        (sortedKeys.map (fun k : Lane => (k >>> 64).setWidth 64)) sortedKeys.length) starts =
      (threads.filter (fun gid => gid < sortedKeys.length ∧ IsStart sortedKeys gid)).foldl
        orBit starts := by
  induction threads generalizing starts with
  | nil => rfl
  | cons gid threads ih =>
    rw [List.foldl_cons, segmentStartsThread_eq, ih]
    by_cases h : gid < sortedKeys.length ∧ IsStart sortedKeys gid
    · simp [h]
    · simp [h]

/-- Whatever order the threads run in, a row's bit is set iff it starts a segment. -/
theorem bitAt_segmentStarts {sortedKeys : List Lane} {threads : List ℕ}
    (hthreads : ∀ gid < sortedKeys.length, gid ∈ threads) {i : ℕ} (hi : i < sortedKeys.length) :
    bitAt (segmentStarts sortedKeys threads) i = 1 ↔ IsStart sortedKeys i := by
  classical
  have hsize : ∀ j < sortedKeys.length,
      j < 32 * (max (4 * (((sortedKeys.length + 7) >>> 3 + 3) / 4)) 4 / 4) := by
    intro j hj
    rw [Nat.shiftRight_eq_div_pow]
    omega
  rw [segmentStarts, bitAt_toBytes, foldl_segmentStartsThread, wordBit_foldl_orBit]
  · have hzero : wordBit (List.replicate
        (max (4 * (((sortedKeys.length + 7) >>> 3 + 3) / 4)) 4 / 4) 0) i = false := by
      rw [wordBit, getD_replicate]
      simp
    rw [hzero, Bool.false_or]
    have hmem : i ∈ threads.filter (fun gid => gid < sortedKeys.length ∧ IsStart sortedKeys gid) ↔
        IsStart sortedKeys i := by
      simp [List.mem_filter, hthreads i hi, hi]
    simp only [hmem, decide_eq_true_eq]
    by_cases h : IsStart sortedKeys i
    · simp [h]
    · simp [h]
  · intro j hj
    have := (List.mem_filter.1 hj).2
    simp only [decide_eq_true_eq] at this
    rw [List.length_replicate]
    exact hsize j this.1

/-! The scan over the sorted rows. -/

structure SegmentInv (keys : List Lane) (rows : List ℕ) (s : SegmentState) : Prop where
  length : s.rowToGroup.length = keys.length
  groups : ∀ r ∈ rows, s.rowToGroup.getD r 0 = (firstSeen (rows.map (keyOf keys))).idxOf (keyOf keys r)
  firsts : s.firstRowPerGroup =
    (firstSeen (rows.map (keyOf keys))).map (fun k => rows.getD ((rows.map (keyOf keys)).idxOf k) 0)
  start : rows = [] → s.curGroup = 0
  cur : rows ≠ [] → s.curGroup + 1 = (firstSeen (rows.map (keyOf keys))).length
  last : ∀ r ∈ rows.getLast?, (firstSeen (rows.map (keyOf keys))).idxOf (keyOf keys r) = s.curGroup

/-- In sorted rows a key was seen before exactly when it is the previous row's key. -/
theorem mem_seen_iff {keys : List Lane} {rows : List ℕ} {row : ℕ}
    (hsorted : (rows ++ [row]).Pairwise (fun a b => keyOf keys a < keyOf keys b ∨
      keyOf keys a = keyOf keys b ∧ a < b)) :
    keyOf keys row ∈ rows.map (keyOf keys) ↔
      ∃ prev ∈ rows.getLast?, keyOf keys prev = keyOf keys row := by
  obtain ⟨hrows, -, hlast⟩ := List.pairwise_append.1 hsorted
  refine ⟨?_, ?_⟩
  · intro hmem
    obtain ⟨r, hr, hkey⟩ := List.mem_map.1 hmem
    rcases List.eq_nil_or_concat' rows with rfl | ⟨init, prev, rfl⟩
    · cases hr
    refine ⟨prev, by simp, ?_⟩
    rcases List.mem_append.1 hr with hr | hr
    · -- the keys between a row and the last one are squeezed between equal keys
      have h1 := (List.pairwise_append.1 hrows).2.2 r hr prev (by simp)
      have h2 := hlast prev (by simp) row (by simp)
      rw [hkey] at h1
      rcases h1 with h1 | ⟨h1, -⟩
      · rcases h2 with h2 | ⟨h2, -⟩
        · exact absurd (BitVec.lt_trans h1 h2) (BitVec.lt_irrefl _)
        · exact h2
      · exact h1.symm
    · rw [List.mem_singleton] at hr
      rw [← hr, hkey]
  · rintro ⟨prev, hprev, hkey⟩
    exact List.mem_map.2 ⟨prev, List.mem_of_getLast? hprev, hkey⟩

theorem getD_firstRow_concat {keys : List Lane} {rows : List ℕ} {k : Lane}
    (hk : k ∈ rows.map (keyOf keys)) (row : ℕ) :
    (rows ++ [row]).getD (((rows ++ [row]).map (keyOf keys)).idxOf k) 0 =
      rows.getD ((rows.map (keyOf keys)).idxOf k) 0 := by
  have hlt : (rows.map (keyOf keys)).idxOf k < rows.length := by
    simpa using List.idxOf_lt_length_of_mem hk
  rw [List.map_append, List.idxOf_append_of_mem hk, List.getD_eq_getElem?_getD,
    List.getElem?_append_left hlt, ← List.getD_eq_getElem?_getD]

/-- A row that continues the current segment. -/
theorem segmentInv_step_old {keys : List Lane} {rows : List ℕ} {row : ℕ} {starts : List UInt8}
    {s : SegmentState} (h : SegmentInv keys rows s) (hrow : row < keys.length)
    (hbit : bitAt starts rows.length ≠ 1) {prev : ℕ} (hprev : prev ∈ rows.getLast?)
    (hkey : keyOf keys prev = keyOf keys row) :
    SegmentInv keys (rows ++ [row]) (segmentStep starts s (row, rows.length)) := by
  have hmem : keyOf keys row ∈ rows.map (keyOf keys) :=
    List.mem_map.2 ⟨prev, List.mem_of_getLast? hprev, hkey⟩
  have hne : rows ≠ [] := by rintro rfl; cases hprev
  have hseen : firstSeen ((rows ++ [row]).map (keyOf keys)) = firstSeen (rows.map (keyOf keys)) := by
    rw [List.map_append, List.map_singleton, firstSeen_concat, if_pos ((mem_firstSeen _ _).2 hmem)]
  have hstep : segmentStep starts s (row, rows.length) =
      { s with rowToGroup := s.rowToGroup.set row s.curGroup } := by
    have hpos : rows.length ≠ 0 := by simpa using hne
    simp [segmentStep, hbit, hpos]
  have hlast := h.last prev hprev
  rw [hkey] at hlast
  rw [hstep]
  refine ⟨by simpa using h.length, ?_, ?_, by simp, ?_, ?_⟩
  · intro r hr
    rw [hseen, getD_set _ _ _ _ (by rw [h.length]; exact hrow)]
    split_ifs with heq
    · rw [← heq, hlast]
    · refine h.groups r ?_
      rcases List.mem_append.1 hr with hr | hr
      · exact hr
      · exact absurd (List.mem_singleton.1 hr).symm heq
  · rw [hseen]
    refine h.firsts.trans (List.map_congr_left (fun k hk => ?_))
    exact (getD_firstRow_concat ((mem_firstSeen _ _).1 hk) row).symm
  · rw [hseen]
    exact fun _ => h.cur hne
  · intro r hr
    rw [List.getLast?_concat] at hr
    cases hr
    rw [hseen]
    exact hlast

/-- A row that starts a segment. -/
theorem segmentInv_step_new {keys : List Lane} {rows : List ℕ} {row : ℕ} {starts : List UInt8}
    {s : SegmentState} (h : SegmentInv keys rows s) (hrow : row < keys.length)
    (hbit : bitAt starts rows.length = 1) (hnew : keyOf keys row ∉ rows.map (keyOf keys)) :
    SegmentInv keys (rows ++ [row]) (segmentStep starts s (row, rows.length)) := by
  have hseen : firstSeen ((rows ++ [row]).map (keyOf keys)) =
      firstSeen (rows.map (keyOf keys)) ++ [keyOf keys row] := by
    rw [List.map_append, List.map_singleton, firstSeen_concat,
      if_neg (by rwa [mem_firstSeen])]
  have hidx : (firstSeen ((rows ++ [row]).map (keyOf keys))).idxOf (keyOf keys row) =
      (firstSeen (rows.map (keyOf keys))).length := by
    rw [List.map_append, List.map_singleton]
    exact idxOf_firstSeen_new hnew
  have hcur : (if rows.length > 0 ∧ bitAt starts rows.length = 1 then s.curGroup + 1
      else s.curGroup) = (firstSeen (rows.map (keyOf keys))).length := by
    by_cases hnil : rows = []
    · subst hnil
      simp [h.start rfl, firstSeen]
    · have hpos : rows.length > 0 := List.length_pos_iff.2 hnil
      rw [if_pos ⟨hpos, hbit⟩, h.cur hnil]
  have hstep : segmentStep starts s (row, rows.length) =
      { rowToGroup := s.rowToGroup.set row (firstSeen (rows.map (keyOf keys))).length
        firstRowPerGroup := s.firstRowPerGroup ++ [row]
        curGroup := (firstSeen (rows.map (keyOf keys))).length } := by
    simp only [segmentStep, hcur, if_pos (Or.inr hbit)]
  rw [hstep]
  refine ⟨by simpa using h.length, ?_, ?_, by simp, ?_, ?_⟩
  · intro r hr
    rw [getD_set _ _ _ _ (by rw [h.length]; exact hrow)]
    split_ifs with heq
    · rw [← heq, hidx]
    · have hr : r ∈ rows := by
        rcases List.mem_append.1 hr with hr | hr
        · exact hr
        · exact absurd (List.mem_singleton.1 hr).symm heq
      rw [h.groups r hr, List.map_append, List.map_singleton]
      exact (idxOf_firstSeen_concat (List.mem_map_of_mem hr) _).symm
  · have hold : s.firstRowPerGroup = (firstSeen (rows.map (keyOf keys))).map
        (fun k => (rows ++ [row]).getD (((rows ++ [row]).map (keyOf keys)).idxOf k) 0) :=
      h.firsts.trans (List.map_congr_left (fun k hk =>
        (getD_firstRow_concat ((mem_firstSeen _ _).1 hk) row).symm))
    rw [hseen, List.map_append, ← hold, List.map_singleton]
    have hpos : ((rows ++ [row]).map (keyOf keys)).idxOf (keyOf keys row) = rows.length := by
      rw [List.map_append, List.idxOf_append_of_notMem hnew]
      simp
    rw [hpos]
    simp
  · rw [hseen]
    simp
  · intro r hr
    rw [List.getLast?_concat] at hr
    cases hr
    exact hidx

theorem segmentInv_run {keys : List Lane} (starts : List UInt8) {rows : List ℕ}
    (hsorted : rows.Pairwise (fun a b => keyOf keys a < keyOf keys b ∨
      keyOf keys a = keyOf keys b ∧ a < b))
    (hrows : ∀ r ∈ rows, r < keys.length)
    (hbit : ∀ i < rows.length, bitAt starts i = 1 ↔ IsStart (rows.map (keyOf keys)) i) :
    SegmentInv keys rows
      (rows.zipIdx.foldl (segmentStep starts) ⟨List.replicate keys.length 0, [], 0⟩) := by
  induction rows using List.reverseRecOn with
  | nil => exact ⟨by simp, by simp, rfl, fun _ => rfl, by simp, by simp⟩
  | append_singleton rows row ih =>
    have hget : ∀ i < rows.length, ((rows ++ [row]).map (keyOf keys)).getD i 0 =
        (rows.map (keyOf keys)).getD i 0 := by
      intro i hi
      rw [List.map_append, List.getD_eq_getElem?_getD,
        List.getElem?_append_left (by simpa using hi), ← List.getD_eq_getElem?_getD]
    have hinv := ih (List.pairwise_append.1 hsorted).1
      (fun r hr => hrows r (List.mem_append_left _ hr)) (by
        intro i hi
        rw [hbit i (by simp; omega), IsStart, IsStart, hget i hi, hget (i - 1) (by omega)])
    have hrow := hrows row (by simp)
    have hnow := hbit rows.length (by simp)
    have hlastKey : ((rows ++ [row]).map (keyOf keys)).getD rows.length 0 = keyOf keys row := by
      simp
    rw [List.zipIdx_append, List.foldl_append]
    simp only [Nat.zero_add, List.zipIdx_singleton, List.foldl_cons, List.foldl_nil]
    by_cases hmem : keyOf keys row ∈ rows.map (keyOf keys)
    · obtain ⟨prev, hprev, hkey⟩ := (mem_seen_iff hsorted).1 hmem
      refine segmentInv_step_old hinv hrow ?_ hprev hkey
      rw [Ne, hnow, IsStart, hlastKey]
      rcases List.eq_nil_or_concat' rows with rfl | ⟨init, prev', rfl⟩
      · cases hprev
      · rw [List.getLast?_concat] at hprev
        cases hprev
        simp [hkey]
    · refine segmentInv_step_new hinv hrow (hnow.2 ?_) hmem
      rw [IsStart, hlastKey]
      rcases List.eq_nil_or_concat' rows with rfl | ⟨init, prev, rfl⟩
      · exact Or.inl rfl
      · right
        intro heq
        apply hmem
        rw [heq]
        simp

/-- In sorted rows the first position of a key is its least row. -/
theorem firstRow_eq_idxOf {keys : List Lane} {rows : List ℕ} (h : SortedRows keys rows) {k : Lane}
    (hk : k ∈ keys) : rows.getD ((rows.map (keyOf keys)).idxOf k) 0 = keys.idxOf k := by
  have hkeyOf : ∀ r (hr : r < keys.length), keyOf keys r = keys[r] := fun r hr => getD_of_lt keys hr 0
  have hmemRows : ∀ r, r ∈ rows ↔ r < keys.length := fun r => by
    rw [h.perm.mem_iff, List.mem_range]
  have hks : k ∈ rows.map (keyOf keys) := by
    obtain ⟨r, hr, rfl⟩ := List.getElem_of_mem hk
    exact List.mem_map.2 ⟨r, (hmemRows r).2 hr, hkeyOf r hr⟩
  set j := (rows.map (keyOf keys)).idxOf k with hj
  have hjlt : j < rows.length := by simpa using List.idxOf_lt_length_of_mem hks
  have hjkey : keyOf keys rows[j] = k := by
    have := List.getElem_idxOf (List.idxOf_lt_length_of_mem hks)
    rwa [List.getElem_map] at this
  have hjrow := (hmemRows rows[j]).1 (List.getElem_mem hjlt)
  rw [getD_of_lt rows hjlt]
  refine IsLeast.unique (s := {i : ℕ | keys[i]? = some k}) ⟨?_, ?_⟩ (isLeast_idxOf hk)
  · rw [Set.mem_ofPred_eq, List.getElem?_eq_getElem hjrow, ← hkeyOf _ hjrow, hjkey]
  · intro r hr
    obtain ⟨hrlt, hrk⟩ := List.getElem?_eq_some_iff.1 hr
    obtain ⟨j', hj', hj'r⟩ := List.getElem_of_mem ((hmemRows r).2 hrlt)
    have hle : j ≤ j' := by
      by_contra hlt
      have hnot := List.not_of_lt_findIdx (show j' < (rows.map (keyOf keys)).idxOf k by omega)
      simp [hj'r, hkeyOf r hrlt, hrk] at hnot
    rcases Nat.lt_or_eq_of_le hle with hlt | heq
    · have := List.pairwise_iff_getElem.1 h.sorted j j' hjlt hj' hlt
      rw [hj'r, hjkey, hkeyOf r hrlt, hrk] at this
      rcases this with hlt | ⟨-, hlt⟩
      · exact absurd hlt (BitVec.lt_irrefl _)
      · exact hlt.le
    · subst heq
      exact hj'r.le

/-- The sort build returns the grouping by sorted keys, whatever the kernel's thread order. -/
theorem groups_sortAndSegment {keys : List Lane} (hlen : keys.length < 2 ^ 31) {threads : List ℕ}
    (hthreads : threads.Perm (List.range keys.length)) :
    Groups keys (sortAndSegment keys threads) := by
  by_cases hnil : keys = []
  · subst hnil
    exact (enumerates_firstSeen []).isGrouping
  obtain ⟨rows, hsort, hrows⟩ := sortU128_spec (hlen.trans (by decide))
  have hmemRows : ∀ r, r ∈ rows ↔ r < keys.length := fun r => by
    rw [hrows.perm.mem_iff, List.mem_range]
  have hrowsLen : rows.length = keys.length := by simpa using hrows.perm.length_eq
  have hne : rows ≠ [] := by
    rintro rfl
    exact hnil (List.length_eq_zero_iff.1 hrowsLen.symm)
  have hinv := segmentInv_run (segmentStarts (rows.map (keyOf keys)) threads)
    hrows.sorted (fun r hr => (hmemRows r).1 hr) (by
      intro i hi
      refine bitAt_segmentStarts ?_ (by simpa using hi)
      intro gid hgid
      rw [hthreads.mem_iff, List.mem_range]
      simpa [hrowsLen] using hgid)
  have henum : Enumerates (firstSeen (rows.map (keyOf keys))) keys := by
    refine ⟨nodup_firstSeen _, fun k => ?_⟩
    rw [mem_firstSeen, List.mem_map]
    refine ⟨?_, ?_⟩
    · rintro ⟨r, hr, rfl⟩
      have := (hmemRows r).1 hr
      rw [keyOf, getD_of_lt keys this]
      exact List.getElem_mem this
    · intro hk
      obtain ⟨r, hr, rfl⟩ := List.getElem_of_mem hk
      exact ⟨r, (hmemRows r).2 hr, getD_of_lt keys hr 0⟩
  have hout : sortAndSegment keys threads =
      ⟨idsBy (firstSeen (rows.map (keyOf keys))) keys,
        firstsBy (firstSeen (rows.map (keyOf keys))) keys,
        (firstSeen (rows.map (keyOf keys))).length⟩ := by
    rw [sortAndSegment, if_neg hnil, hsort]
    simp only [BuildOutput.mk.injEq]
    refine ⟨?_, ?_, hinv.cur hne⟩
    · refine ext_getD 0 (by rw [hinv.length]; simp [idsBy]) (fun r hr => ?_)
      rw [hinv.length] at hr
      rw [hinv.groups r ((hmemRows r).2 hr), getD_of_lt _ (by simpa [idsBy] using hr)]
      simp [idsBy, keyOf, hr]
    · rw [hinv.firsts]
      exact List.map_congr_left (fun k hk => firstRow_eq_idxOf hrows ((henum.mem_iff k).1 hk))
  rw [hout]
  exact henum.isGrouping

end PolarsMetal.GroupBy
