import PolarsMetal.GroupBy.BuildHash
import PolarsMetal.Lib.Reads

/-! The CPU reference of the sort build. It sorts the (key, row) pairs by key alone with a sort
that is not stable, and records as a group's first row the row of the first pair of its run. -/

namespace PolarsMetal.GroupBy
open Grouping Reads

/-- The (key, row) pairs before the sort. -/
def keyRowPairs (keys : List Lane) : List (Lane × ℕ) := keys.zipIdx.map fun (k, i) => (k, asU32 i)

/-- What `sort_unstable_by_key` may leave: the pairs in key order, equal keys in any order. -/
structure SortedByKey (pairs sorted : List (Lane × ℕ)) : Prop where
  perm : sorted.Perm pairs
  le : sorted.Pairwise (fun a b => a.1 ≤ b.1)

/-- One turn of the loop over the sorted pairs. -/
def referenceStep (pairs : List (Lane × ℕ)) (s : SegmentState) (i : ℕ) : SegmentState :=
  let pair := pairs.getD i (0, 0)
  let s :=
    if pair.1 ≠ (pairs.getD (i - 1) (0, 0)).1 then
      { s with
        curGroup := asU32 (s.curGroup + 1)
        firstRowPerGroup := s.firstRowPerGroup ++ [pair.2] }
    else s
  { s with rowToGroup := s.rowToGroup.set pair.2 s.curGroup }

/-- `pairs` is what the sort leaves. -/
def cpuSortSegment (keys : List Lane) (pairs : List (Lane × ℕ)) : BuildOutput :=
  if keys = [] then ⟨[], [], 0⟩
  else
    let first := (pairs.getD 0 (0, 0)).2
    let s := (List.range' 1 (pairs.length - 1)).foldl (referenceStep pairs)
      ⟨(List.replicate keys.length 0).set first 0, [first], 0⟩
    ⟨s.rowToGroup, s.firstRowPerGroup, asU32 (s.curGroup + 1)⟩

/-- The groups are the keys in increasing order, and each records the least row of its key. -/
def FirstRowsLeast (keys : List Lane) (out : BuildOutput) : Prop :=
  ∃ names, Enumerates names keys ∧ names.Pairwise (· < ·) ∧
    out.firstRowPerGroup = firstsBy names keys

/-! The loop. -/

/-- The row of the first pair with the key. -/
def firstRowOf (pairs : List (Lane × ℕ)) (k : Lane) : ℕ :=
  ((pairs.filter (·.1 = k)).head?.map Prod.snd).getD 0

theorem firstRowOf_append {pairs : List (Lane × ℕ)} {k : Lane} (hk : k ∈ pairs.map Prod.fst)
    (rest : List (Lane × ℕ)) : firstRowOf (pairs ++ rest) k = firstRowOf pairs k := by
  obtain ⟨pair, hpair, rfl⟩ := List.mem_map.1 hk
  have hmem : pair ∈ pairs.filter (·.1 = pair.1) := List.mem_filter.2 ⟨hpair, by simp⟩
  unfold firstRowOf
  rw [List.filter_append]
  cases hrun : pairs.filter (·.1 = pair.1) with
  | nil =>
    rw [hrun] at hmem
    cases hmem
  | cons => rfl

theorem firstRowOf_mem {pairs : List (Lane × ℕ)} {k : Lane} (hk : k ∈ pairs.map Prod.fst) :
    (k, firstRowOf pairs k) ∈ pairs := by
  obtain ⟨pair, hpair, rfl⟩ := List.mem_map.1 hk
  have hmem : pair ∈ pairs.filter (·.1 = pair.1) := List.mem_filter.2 ⟨hpair, by simp⟩
  unfold firstRowOf
  cases hrun : pairs.filter (·.1 = pair.1) with
  | nil =>
    rw [hrun] at hmem
    cases hmem
  | cons head rest =>
    obtain ⟨hin, hkey⟩ := List.mem_filter.1 (hrun ▸ List.mem_cons_self : head ∈ pairs.filter _)
    rw [← of_decide_eq_true hkey]
    exact hin

theorem firstRowOf_new {pairs : List (Lane × ℕ)} {pair : Lane × ℕ}
    (hk : pair.1 ∉ pairs.map Prod.fst) : firstRowOf (pairs ++ [pair]) pair.1 = pair.2 := by
  have hnone : pairs.filter (·.1 = pair.1) = [] := by
    rw [List.filter_eq_nil_iff]
    intro p hp heq
    exact hk (List.mem_map.2 ⟨p, hp, by simpa using heq⟩)
  unfold firstRowOf
  rw [List.filter_append, hnone]
  simp

/-- In key order a key is new exactly when it is not the previous pair's. -/
theorem new_key_iff {pairs : List (Lane × ℕ)} {pair : Lane × ℕ} (hne : pairs ≠ [])
    (h : (pairs ++ [pair]).Pairwise (fun a b => a.1 ≤ b.1)) :
    pair.1 ≠ (pairs.getD (pairs.length - 1) (0, 0)).1 ↔ pair.1 ∉ pairs.map Prod.fst := by
  obtain ⟨init, last, rfl⟩ := (List.eq_nil_or_concat' pairs).resolve_left hne
  obtain ⟨hpairs, -, hlast⟩ := List.pairwise_append.1 h
  have hget : ((init ++ [last]).getD ((init ++ [last]).length - 1) (0, 0)) = last := by simp
  rw [hget]
  refine not_congr ⟨fun heq => ?_, fun hmem => ?_⟩
  · rw [heq]
    exact List.mem_map.2 ⟨last, by simp, rfl⟩
  · obtain ⟨p, hp, hkey⟩ := List.mem_map.1 hmem
    have hle := hlast last (by simp) pair (by simp)
    rcases List.mem_append.1 hp with hp | hp
    · -- the keys between the pair and the last one are squeezed
      have hp := (List.pairwise_append.1 hpairs).2.2 p hp last (by simp)
      rw [hkey] at hp
      exact BitVec.le_antisymm hp hle
    · rw [List.mem_singleton.1 hp] at hkey
      exact hkey.symm

/-- The first rows recorded for the pairs seen so far. -/
def firstRows (pairs : List (Lane × ℕ)) : List ℕ :=
  (firstSeen (pairs.map Prod.fst)).map (firstRowOf pairs)

theorem firstRows_concat (pairs : List (Lane × ℕ)) (pair : Lane × ℕ) :
    firstRows (pairs ++ [pair]) =
      if pair.1 ∈ pairs.map Prod.fst then firstRows pairs else firstRows pairs ++ [pair.2] := by
  unfold firstRows
  have hold : (firstSeen (pairs.map Prod.fst)).map (firstRowOf (pairs ++ [pair])) =
      (firstSeen (pairs.map Prod.fst)).map (firstRowOf pairs) :=
    List.map_congr_left fun k hk => firstRowOf_append ((mem_firstSeen _ k).1 hk) _
  rw [List.map_append, List.map_singleton, firstSeen_concat]
  by_cases hk : pair.1 ∈ pairs.map Prod.fst
  · rw [if_pos ((mem_firstSeen _ _).2 hk), if_pos hk, hold]
  · rw [if_neg (fun h => hk ((mem_firstSeen _ _).1 h)), if_neg hk, List.map_append, hold,
      List.map_singleton, firstRowOf_new hk]

/-- The previous turn's pair and this one's. -/
theorem getD_turn {pairs : List (Lane × ℕ)} {m : ℕ} (hlt : m + 1 < pairs.length) :
    pairs.getD (1 + m) (0, 0) = pairs[m + 1] ∧ pairs.getD (1 + m - 1) (0, 0) =
      (pairs.take (m + 1)).getD ((pairs.take (m + 1)).length - 1) (0, 0) := by
  refine ⟨?_, ?_⟩
  · rw [Nat.add_comm, List.getD_eq_getElem?_getD, List.getElem?_eq_getElem hlt, Option.getD_some]
  · rw [List.length_take, Nat.min_eq_left (by omega), Nat.add_sub_cancel_left, Nat.add_sub_cancel,
      List.getD_eq_getElem?_getD, List.getD_eq_getElem?_getD,
      List.getElem?_take_of_lt (Nat.lt_succ_self m)]

theorem firstRows_run {pairs : List (Lane × ℕ)} (h : pairs.Pairwise (fun a b => a.1 ≤ b.1))
    (s : SegmentState) (hs : s.firstRowPerGroup = [(pairs.getD 0 (0, 0)).2]) {m : ℕ}
    (hm : m + 1 ≤ pairs.length) :
    ((List.range' 1 m).foldl (referenceStep pairs) s).firstRowPerGroup =
      firstRows (pairs.take (m + 1)) := by
  induction m with
  | zero =>
    obtain ⟨pair, rest, rfl⟩ := List.exists_cons_of_length_pos (show 0 < pairs.length by omega)
    rw [List.range'_zero, List.foldl_nil, hs]
    simp [firstRows, firstSeen, firstRowOf]
  | succ m ih =>
    have ih := ih (by omega)
    have hlt : m + 1 < pairs.length := by omega
    have hsplit : pairs.take (m + 1 + 1) = pairs.take (m + 1) ++ [pairs[m + 1]] :=
      (List.take_append_getElem hlt).symm
    have hne : pairs.take (m + 1) ≠ [] := by
      rw [Ne, List.take_eq_nil_iff, not_or]
      exact ⟨by omega, List.ne_nil_of_length_pos (by omega)⟩
    obtain ⟨hpair, hprev⟩ := getD_turn hlt
    have hnew := new_key_iff hne (hsplit ▸ h.sublist (List.take_sublist _ _))
    rw [List.range'_1_concat, List.foldl_append, List.foldl_cons, List.foldl_nil, hsplit,
      firstRows_concat, ← ih]
    simp only [referenceStep, hpair, hprev]
    by_cases hk : pairs[m + 1].1 ∈ (pairs.take (m + 1)).map Prod.fst
    · rw [if_pos hk, if_neg (fun hne => hnew.1 hne hk)]
    · rw [if_neg hk, if_pos (hnew.2 hk)]

theorem cpuSortSegment_firstRows {keys : List Lane} {sorted : List (Lane × ℕ)}
    (h : SortedByKey (keyRowPairs keys) sorted) :
    (cpuSortSegment keys sorted).firstRowPerGroup = firstRows sorted := by
  have hlen : sorted.length = keys.length := by
    rw [h.perm.length_eq, keyRowPairs, List.length_map, List.length_zipIdx]
  unfold cpuSortSegment
  by_cases hnil : keys = []
  · rw [hnil, List.length_nil, List.length_eq_zero_iff] at hlen
    rw [if_pos hnil, hlen]
    rfl
  · have hpos : 0 < keys.length := List.length_pos_iff.2 hnil
    rw [if_neg hnil]
    have hrun := firstRows_run h.le
      ⟨(List.replicate keys.length 0).set (sorted.getD 0 (0, 0)).2 0, [(sorted.getD 0 (0, 0)).2], 0⟩
      rfl (m := sorted.length - 1) (by omega)
    rw [show sorted.length - 1 + 1 = sorted.length by omega, List.take_length] at hrun
    exact hrun

/-! The outcomes of the sort. -/

theorem mem_keyRowPairs {keys : List Lane} {pair : Lane × ℕ} :
    pair ∈ keyRowPairs keys ↔ ∃ r, ∃ h : r < keys.length, pair = (keys[r], asU32 r) := by
  unfold keyRowPairs
  rw [List.mem_map]
  refine ⟨fun ⟨p, hp, heq⟩ => ?_, fun ⟨r, hr, heq⟩ => ⟨(keys[r], r), ?_, heq.symm⟩⟩
  · obtain ⟨k, i⟩ := p
    obtain ⟨hi, hkey⟩ := List.getElem?_eq_some_iff.1 (List.mk_mem_zipIdx_iff_getElem?.1 hp)
    exact ⟨i, hi, by rw [← heq, hkey]⟩
  · rw [List.mk_mem_zipIdx_iff_getElem?, List.getElem?_eq_getElem hr]

theorem map_fst_keyRowPairs (keys : List Lane) : (keyRowPairs keys).map Prod.fst = keys := by
  unfold keyRowPairs
  rw [List.map_map, show Prod.fst ∘ (fun (k, i) => (k, asU32 i)) = (Prod.fst : Lane × ℕ → Lane) from
    rfl, List.zipIdx_map_fst]

theorem map_snd_keyRowPairs {keys : List Lane} (hn : keys.length < 2 ^ 32) :
    (keyRowPairs keys).map Prod.snd = List.range keys.length := by
  unfold keyRowPairs
  rw [List.map_map, List.range_eq_range', ← List.zipIdx_map_snd 0 keys]
  refine List.map_congr_left fun p hp => ?_
  exact asU32_of_lt ((List.snd_lt_of_mem_zipIdx hp).trans_le (by omega))

theorem SortedByKey.enumerates {keys : List Lane} {sorted : List (Lane × ℕ)}
    (h : SortedByKey (keyRowPairs keys) sorted) :
    Enumerates (firstSeen (sorted.map Prod.fst)) keys := by
  refine ⟨nodup_firstSeen _, fun k => ?_⟩
  rw [mem_firstSeen, (h.perm.map Prod.fst).mem_iff, map_fst_keyRowPairs]

theorem pairwise_lt_of_nodup {names : List Lane} (hle : names.Pairwise (· ≤ ·))
    (hnodup : names.Nodup) : names.Pairwise (· < ·) :=
  (hle.and hnodup).imp fun ⟨hle, hne⟩ =>
    Nat.lt_of_le_of_ne hle (fun heq => hne (BitVec.eq_of_toNat_eq heq))

theorem SortedByKey.names_lt {pairs sorted : List (Lane × ℕ)} (h : SortedByKey pairs sorted) :
    (firstSeen (sorted.map Prod.fst)).Pairwise (· < ·) := by
  have hle : (sorted.map Prod.fst).Pairwise (· ≤ ·) := List.pairwise_map.2 h.le
  exact pairwise_lt_of_nodup (hle.sublist (firstSeen_sublist _)) (nodup_firstSeen _)

/-- The keys have one listing in increasing order. -/
theorem names_unique {names names' keys : List Lane} (h : Enumerates names keys)
    (h' : Enumerates names' keys) (hlt : names.Pairwise (· < ·)) (hlt' : names'.Pairwise (· < ·)) :
    names = names' := by
  have hperm : names.Perm names' := by
    rw [List.perm_ext_iff_of_nodup h.nodup h'.nodup]
    intro k
    rw [h.mem_iff, h'.mem_iff]
  exact hperm.eq_of_pairwise (fun a b _ _ hab hba => absurd hba (BitVec.lt_asymm hab)) hlt hlt'

def keyLe (a b : Lane × ℕ) : Bool := decide (a.1 ≤ b.1)

theorem keyLe_trans (a b c : Lane × ℕ) (hab : keyLe a b) (hbc : keyLe b c) : keyLe a c :=
  decide_eq_true (BitVec.le_trans (of_decide_eq_true (p := a.1 ≤ b.1) hab)
    (of_decide_eq_true (p := b.1 ≤ c.1) hbc))

theorem keyLe_total (a b : Lane × ℕ) : keyLe a b || keyLe b a := by
  unfold keyLe
  rw [Bool.or_eq_true, decide_eq_true_eq, decide_eq_true_eq]
  exact BitVec.le_total a.1 b.1

/-- A stable sort leaves the run of a key as it was. -/
theorem filter_mergeSort (pairs : List (Lane × ℕ)) (k : Lane) :
    (pairs.mergeSort keyLe).filter (·.1 = k) = pairs.filter (·.1 = k) := by
  have hkeys : ∀ p ∈ pairs.filter (·.1 = k), p.1 = k := fun p hp => by
    simpa using (List.mem_filter.1 hp).2
  have hrun : (pairs.filter (·.1 = k)).Pairwise (fun a b => keyLe a b) :=
    List.Pairwise.imp_of_mem (R := fun _ _ => True)
      (fun ha hb _ => decide_eq_true (by rw [hkeys _ ha, hkeys _ hb]; exact BitVec.le_refl k))
      (List.pairwise_of_forall (by simp))
  have hsub := (List.sublist_mergeSort keyLe_trans keyLe_total hrun List.filter_sublist).filter
    (·.1 = k)
  rw [List.filter_filter] at hsub
  simp only [Bool.and_self] at hsub
  exact (hsub.eq_of_length ((List.mergeSort_perm pairs keyLe).symm.filter _).length_eq).symm

/-- Any pair may come out first of its run. -/
theorem exists_sorted_first {pairs : List (Lane × ℕ)} {pair : Lane × ℕ} (h : pair ∈ pairs) :
    ∃ sorted, SortedByKey pairs sorted ∧ firstRowOf sorted pair.1 = pair.2 := by
  refine ⟨(pair :: pairs.erase pair).mergeSort keyLe, ⟨?_, ?_⟩, ?_⟩
  · exact (List.mergeSort_perm _ keyLe).trans (List.perm_cons_erase h).symm
  · exact (List.pairwise_mergeSort keyLe_trans keyLe_total _).imp fun hab => of_decide_eq_true hab
  · unfold firstRowOf
    rw [filter_mergeSort, List.filter_cons_of_pos (by simp)]
    rfl

/-- Every outcome of the sort gives the least rows exactly when each row's number is the first row
of its key: for the lists whose rows a `u32` can number, when no key occurs twice. -/
theorem cpuSortSegment_firstRowsLeast_iff (keys : List Lane) :
    (∀ sorted, SortedByKey (keyRowPairs keys) sorted →
      FirstRowsLeast keys (cpuSortSegment keys sorted)) ↔
    ∀ r (h : r < keys.length), asU32 r = keys.idxOf keys[r] := by
  refine ⟨fun hleast r hr => ?_, fun hrows sorted hsorted => ?_⟩
  · have hpair : (keys[r], asU32 r) ∈ keyRowPairs keys := mem_keyRowPairs.2 ⟨r, hr, rfl⟩
    obtain ⟨sorted, hsorted, hfirst⟩ := exists_sorted_first hpair
    obtain ⟨names, henum, hlt, hout⟩ := hleast sorted hsorted
    obtain rfl := names_unique henum hsorted.enumerates hlt hsorted.names_lt
    rw [cpuSortSegment_firstRows hsorted] at hout
    unfold firstRows firstsBy at hout
    have hmem := (henum.mem_iff keys[r]).2 (List.getElem_mem hr)
    rw [← List.map_inj_left.1 hout _ hmem]
    exact hfirst.symm
  · refine ⟨_, hsorted.enumerates, hsorted.names_lt, ?_⟩
    rw [cpuSortSegment_firstRows hsorted]
    unfold firstRows firstsBy
    refine List.map_congr_left fun k hk => ?_
    have hpair := firstRowOf_mem ((mem_firstSeen _ k).1 hk)
    obtain ⟨r, hr, heq⟩ := mem_keyRowPairs.1 (hsorted.perm.mem_iff.1 hpair)
    obtain ⟨hkey, hrow⟩ := Prod.mk.inj heq
    rw [hrow, hrows r hr, ← hkey]

/-- Thirty-two 7s and a 5: partitioning around row 16, the sort leaves that row first of its key. -/
theorem cpuSortSegment_not_first : ¬ ∀ keys sorted, SortedByKey (keyRowPairs keys) sorted →
    FirstRowsLeast keys (cpuSortSegment keys sorted) := by
  intro hall
  set keys : List Lane := List.replicate 32 7 ++ [5] with hkeys
  set sorted : List (Lane × ℕ) := (5, 32) :: (16 :: 1 :: List.range' 3 13 ++ 0 :: List.range' 17 15 ++
    [2]).map (fun row => (7, row)) with hlist
  have hsorted : SortedByKey (keyRowPairs keys) sorted := ⟨by decide +kernel, by decide +kernel⟩
  obtain ⟨names, henum, -, hfirst⟩ := hall _ _ hsorted
  have hout : (cpuSortSegment keys sorted).firstRowPerGroup = [32, 16] := by decide +kernel
  rw [hout, firstsBy] at hfirst
  have hrow : 16 ∈ names.map (fun k => keys.idxOf k) := hfirst ▸ by simp
  obtain ⟨k, hk, hidx⟩ := List.mem_map.1 hrow
  -- row 16 is the first row of neither key
  have hkey : k = 7 ∨ k = 5 := by
    have hmem := (henum.mem_iff k).1 hk
    rw [hkeys, List.mem_append, List.mem_replicate, List.mem_singleton] at hmem
    exact hmem.imp_left And.right
  rcases hkey with rfl | rfl
  · exact absurd hidx (by decide +kernel)
  · exact absurd hidx (by decide +kernel)

/-! The ids. -/

/-- The loop after the rows of `seen`. -/
structure ReferenceInv (n : ℕ) (seen : List (Lane × ℕ)) (s : SegmentState) : Prop where
  length : s.rowToGroup.length = n
  groups : ∀ pair ∈ seen, s.rowToGroup.getD pair.2 0 =
    (firstSeen (seen.map Prod.fst)).idxOf pair.1
  cur : s.curGroup + 1 = (firstSeen (seen.map Prod.fst)).length
  last : ∀ pair ∈ seen.getLast?, (firstSeen (seen.map Prod.fst)).idxOf pair.1 = s.curGroup

theorem getD_last {pairs : List (Lane × ℕ)} (hne : pairs ≠ []) :
    pairs.getD (pairs.length - 1) (0, 0) ∈ pairs.getLast? := by
  obtain ⟨init, last, rfl⟩ := (List.eq_nil_or_concat' pairs).resolve_left hne
  simp

theorem referenceInv_step {pairs : List (Lane × ℕ)} {n m : ℕ} {s : SegmentState}
    (hlt : m + 1 < pairs.length) (h : ReferenceInv n (pairs.take (m + 1)) s)
    (hrow : pairs[m + 1].2 < n) (hfresh : pairs[m + 1].2 ∉ (pairs.take (m + 1)).map Prod.snd)
    (hle : pairs.Pairwise (fun a b => a.1 ≤ b.1)) (hn : pairs.length < 2 ^ 32) :
    ReferenceInv n (pairs.take (m + 1 + 1)) (referenceStep pairs s (1 + m)) := by
  obtain ⟨hpair, hprev⟩ := getD_turn hlt
  have hsplit : pairs.take (m + 1 + 1) = pairs.take (m + 1) ++ [pairs[m + 1]] :=
    (List.take_append_getElem hlt).symm
  have hne : pairs.take (m + 1) ≠ [] := by
    rw [Ne, List.take_eq_nil_iff, not_or]
    exact ⟨by omega, List.ne_nil_of_length_pos (by omega)⟩
  have hnew := new_key_iff hne (hsplit ▸ hle.sublist (List.take_sublist _ _))
  have hcount := length_firstSeen_le ((pairs.take (m + 1)).map Prod.fst)
  rw [List.length_map, List.length_take, Nat.min_eq_left (by omega)] at hcount
  -- the id this turn writes
  have hcur : (referenceStep pairs s (1 + m)).curGroup =
      (firstSeen ((pairs.take (m + 1) ++ [pairs[m + 1]]).map Prod.fst)).idxOf pairs[m + 1].1 ∧
      (referenceStep pairs s (1 + m)).curGroup + 1 =
        (firstSeen ((pairs.take (m + 1) ++ [pairs[m + 1]]).map Prod.fst)).length := by
    rw [List.map_append, List.map_singleton]
    unfold referenceStep
    simp only [hpair, hprev]
    by_cases hk : pairs[m + 1].1 ∈ (pairs.take (m + 1)).map Prod.fst
    · have hsame := not_not.1 (mt hnew.1 (not_not.2 hk))
      have hlast := h.last _ (getD_last hne)
      rw [if_neg (not_not.2 hsame), idxOf_firstSeen_concat hk, hsame, hlast, firstSeen_concat,
        if_pos ((mem_firstSeen _ _).2 (hsame ▸ hk)), h.cur]
      exact ⟨rfl, rfl⟩
    · rw [if_pos (hnew.2 hk), idxOf_firstSeen_new hk, firstSeen_concat,
        if_neg (fun h => hk ((mem_firstSeen _ _).1 h)), List.length_append, List.length_singleton]
      have hwrap : asU32 (s.curGroup + 1) = s.curGroup + 1 := asU32_of_lt (by rw [h.cur]; omega)
      exact ⟨by rw [hwrap, h.cur], by rw [hwrap, h.cur]⟩
  have hrows : (referenceStep pairs s (1 + m)).rowToGroup =
      s.rowToGroup.set pairs[m + 1].2 (referenceStep pairs s (1 + m)).curGroup := by
    unfold referenceStep
    simp only [hpair]
    split_ifs <;> rfl
  rw [hsplit]
  refine ⟨by rw [hrows, List.length_set, h.length], ?_, hcur.2, ?_⟩
  · intro pair hmem
    rw [hrows, getD_set _ _ _ _ (by rw [h.length]; exact hrow)]
    rcases List.mem_append.1 hmem with hmem | hmem
    · have hother : pairs[m + 1].2 ≠ pair.2 := fun heq =>
        hfresh (heq ▸ List.mem_map_of_mem (f := Prod.snd) hmem)
      rw [if_neg hother, h.groups pair hmem, List.map_append, List.map_singleton,
        idxOf_firstSeen_concat (List.mem_map_of_mem hmem)]
    · rw [List.mem_singleton.1 hmem, if_pos rfl, hcur.1]
  · intro pair hmem
    rw [List.getLast?_concat, Option.mem_some_iff] at hmem
    rw [← hmem, hcur.1]

theorem referenceInv_run {pairs : List (Lane × ℕ)} {n m : ℕ} {s : SegmentState}
    (hm : m + 1 ≤ pairs.length) (h : ReferenceInv n (pairs.take 1) s)
    (hrows : ∀ pair ∈ pairs, pair.2 < n) (hnodup : (pairs.map Prod.snd).Nodup)
    (hle : pairs.Pairwise (fun a b => a.1 ≤ b.1)) (hn : pairs.length < 2 ^ 32) :
    ReferenceInv n (pairs.take (m + 1)) ((List.range' 1 m).foldl (referenceStep pairs) s) := by
  induction m with
  | zero => exact h
  | succ m ih =>
    have hlt : m + 1 < pairs.length := by omega
    have hfresh : pairs[m + 1].2 ∉ (pairs.take (m + 1)).map Prod.snd := by
      rw [← List.take_append_drop (m + 1) pairs, List.map_append, List.nodup_append,
        List.drop_eq_getElem_cons hlt] at hnodup
      intro hmem
      exact hnodup.2.2 _ hmem _ (List.mem_map_of_mem List.mem_cons_self) rfl
    rw [List.range'_1_concat, List.foldl_append, List.foldl_cons, List.foldl_nil]
    exact referenceInv_step hlt (ih (by omega)) (hrows _ (List.getElem_mem hlt)) hfresh hle hn

/-- While a `u32` numbers the rows, the ids are the keys' numbers in key order. -/
theorem cpuSortSegment_rowToGroup {keys : List Lane} (hn : keys.length < 2 ^ 32)
    {sorted : List (Lane × ℕ)} (h : SortedByKey (keyRowPairs keys) sorted) :
    (cpuSortSegment keys sorted).rowToGroup = idsBy (firstSeen (sorted.map Prod.fst)) keys ∧
      (cpuSortSegment keys sorted).nGroups = (firstSeen (sorted.map Prod.fst)).length := by
  have hlen : sorted.length = keys.length := by
    rw [h.perm.length_eq, keyRowPairs, List.length_map, List.length_zipIdx]
  have hrow : ∀ r (hr : r < keys.length), (keys[r], r) ∈ sorted := fun r hr =>
    h.perm.mem_iff.2 (mem_keyRowPairs.2 ⟨r, hr, by rw [asU32_of_lt (by omega)]⟩)
  unfold cpuSortSegment
  by_cases hnil : keys = []
  · rw [hnil, List.length_nil, List.length_eq_zero_iff] at hlen
    rw [if_pos hnil, hlen, hnil]
    exact ⟨rfl, rfl⟩
  have hpos : 0 < sorted.length := hlen ▸ List.length_pos_iff.2 hnil
  have hrows : ∀ pair ∈ sorted, pair.2 < keys.length := by
    intro pair hpair
    obtain ⟨r, hr, rfl⟩ := mem_keyRowPairs.1 (h.perm.mem_iff.1 hpair)
    exact (asU32_of_lt (by omega) : asU32 r = r).symm ▸ hr
  have hnodup : (sorted.map Prod.snd).Nodup := by
    rw [(h.perm.map Prod.snd).nodup_iff, map_snd_keyRowPairs hn]
    exact List.nodup_range
  -- the first pair starts group 0
  have hstart : ReferenceInv keys.length (sorted.take 1)
      ⟨(List.replicate keys.length 0).set (sorted.getD 0 (0, 0)).2 0,
        [(sorted.getD 0 (0, 0)).2], 0⟩ := by
    obtain ⟨pair, rest, rfl⟩ := List.exists_cons_of_length_pos hpos
    have hlt := hrows pair List.mem_cons_self
    refine ⟨by simp, fun p hp => ?_, by simp [firstSeen], fun p hp => ?_⟩
    · rw [List.take_one, List.head?_cons, Option.toList_some, List.mem_singleton] at hp
      rw [hp]
      simp [hlt, firstSeen]
    · simp at hp
      simp [← hp, firstSeen]
  have hinv := referenceInv_run (m := sorted.length - 1) (by omega) hstart hrows hnodup h.le
    (hlen ▸ hn)
  rw [show sorted.length - 1 + 1 = sorted.length by omega, List.take_length] at hinv
  rw [if_neg hnil]
  have hcount := length_firstSeen_le (sorted.map Prod.fst)
  rw [List.length_map, hlen] at hcount
  refine ⟨?_, ?_⟩
  · unfold idsBy
    refine List.ext_getElem (by rw [hinv.length, List.length_map]) fun r hr hr' => ?_
    have hr : r < keys.length := by rwa [List.length_map] at hr'
    rw [← getD_of_lt _ _ 0, hinv.groups _ (hrow r hr), List.getElem_map]
  · have hcur := hinv.cur
    exact (congrArg asU32 hcur).trans (asU32_of_lt (by omega))

end PolarsMetal.GroupBy
