import PolarsMetal.Vector.Search

/-! Tiling. Each tile keeps the rows its own raw scores put first, and the merge keeps the best of
these by final score; the search of the whole corpus keeps the rows its raw scores put first. The
two agree when the latter are also the best of what the tiles kept, and the casts to 32 bits leave
`k` and the extents as they are. -/

namespace PolarsMetal.Vector
open TopK

variable {S : Type*} [Inhabited S] {M : Mlx S} {s : Search S}
  {metric : List S → List S → S} {partitionOn : S → S} {tileRows : ℕ} {htile : 1 ≤ tileRows}

/-! The casts. -/

theorem asI32_of_lt {n : ℕ} (h : n < 2 ^ 31) : asI32 n = n := by
  unfold asI32
  exact Int.bmod_eq_of_le (by omega) (by omega)

theorem asI32_pred_cases (k : ℤ) : asI32 (k - 1) = asI32 k - 1 ∨
    asI32 k = -2 ^ 31 ∧ asI32 (k - 1) = 2 ^ 31 - 1 := by
  unfold asI32
  rw [Int.bmod_def, Int.bmod_def]
  split_ifs <;> omega

/-- A grid of extents that are not negative holds its own number of entries. -/
theorem reshapes_grid (q k : ℕ) : Reshapes (q * k) [(q : ℤ), (k : ℤ)] := by
  have hq : (q : ℤ) ≠ -1 := by omega
  have hk : (k : ℤ) ≠ -1 := by omega
  refine ⟨fun x hx => ?_, Or.inl ⟨?_, ?_⟩⟩
  · simp only [List.mem_cons, List.not_mem_nil, or_false] at hx
    omega
  · simp [hq, hk]
  · simp

omit [Inhabited S] in
/-- Where the casts leave as many hits as the tiled search keeps, they change nothing. -/
theorem kth_of_columns (hk : 1 ≤ s.k) (hpos : 0 < s.nRows) (h : s.columns = some s.kk) :
    (resolveIndex s.nRows (asI32 ((s.k : ℤ) - 1))).toNat = s.kk - 1 := by
  have hlt := s.nRows_lt
  have hkk : s.kk = min s.k s.nRows := rfl
  have hpred := asI32_pred_cases s.k
  unfold Search.columns at h
  simp only at h
  split_ifs at h with hkth _
  rw [Option.some.injEq] at h
  unfold resolveIndex at h hkth ⊢
  split_ifs at h hkth ⊢ <;> omega

omit [Inhabited S] in
theorem columns_of_le (hk : 1 ≤ s.k) (hrows : s.k ≤ s.nRows) :
    s.columns = if s.Flattens s.k then some s.k else none := by
  have hlt := s.nRows_lt
  have hcast := asI32_of_lt (show s.k < 2 ^ 31 by omega)
  have hpred : asI32 ((s.k : ℤ) - 1) = (s.k : ℤ) - 1 := by
    rcases asI32_pred_cases s.k with h | h <;> omega
  have hgrid := reshapes_grid s.qRows s.k
  unfold Search.columns
  simp only [hcast, hpred, resolveIndex]
  rw [if_neg (show ¬ (s.k : ℤ) < 0 by omega), if_neg (show ¬ (s.k : ℤ) - 1 < 0 by omega),
    if_neg (show ¬ ((s.k : ℤ) - 1 < 0 ∨ (s.nRows : ℤ) ≤ (s.k : ℤ) - 1) by omega),
    Int.toNat_natCast, Nat.min_eq_left hrows]
  simp only [hgrid, not_true_eq_false, and_false, if_false]
  by_cases hflat : s.Flattens s.k
  · rw [if_neg (fun h => h.2 (hflat h.1)), if_pos hflat]
  · rw [if_pos (Classical.not_imp.1 hflat), if_neg hflat]

/-! A tile is a window of the corpus. -/

omit [Inhabited S] in
theorem rowOf_tile (m : List S) (d offset rows : ℕ) {i : ℕ} (hi : i < rows) :
    rowOf ((m.take ((offset + rows) * d)).drop (offset * d)) d i = rowOf m d (i + offset) := by
  have hend : (i + offset) * d + d ≤ (offset + rows) * d := by
    calc (i + offset) * d + d = (i + 1 + offset) * d := by ring
      _ ≤ (offset + rows) * d := Nat.mul_le_mul_right d (by omega)
  unfold rowOf
  rw [List.drop_drop, ← Nat.add_mul, Nat.add_comm offset i, List.drop_take, List.take_take]
  congr 1
  omega

theorem getD_tile (w : List S) (offset rows : ℕ) {i : ℕ} (hi : i < rows) :
    ((w.take (offset + rows)).drop offset).getD i default = w.getD (i + offset) default := by
  rw [List.getD_eq_getElem?_getD, List.getD_eq_getElem?_getD, List.getElem?_drop,
    List.getElem?_take_of_lt (by omega), Nat.add_comm]

theorem mem_argpartition {xs : List S} {kth i : ℕ} (hkth : kth < xs.length)
    (hi : i ∈ (M.argpartition xs kth).take (kth + 1)) : i < xs.length := by
  have hperm := M.argpartition_perm xs kth hkth
  exact List.mem_range.1 (hperm.mem_iff.1 (List.mem_of_mem_take hi))


theorem length_argpartition {xs : List S} {kth : ℕ} (hkth : kth < xs.length) :
    (M.argpartition xs kth).length = xs.length := by
  rw [(M.argpartition_perm xs kth hkth).length_eq, List.length_range]

/-- The `k` hits the raw scores select among `rows` rows from `offset`, with their final scores. -/
def Search.select (M : Mlx S) (s : Search S) (metric : List S → List S → S) (partitionOn : S → S)
    (qi offset rows k : ℕ) : Hits S :=
  (s.leading M metric partitionOn qi offset rows k).map fun i => (i, s.final M metric qi i)

/-- What a search returns where no cast changes anything. -/
theorem vectorSearchTopkRerank_eq (hop : metricOf M s.op = some (metric, partitionOn))
    (hk : 1 ≤ s.k) (hpos : 0 < s.nRows) (h : s.columns = some s.kk) :
    vectorSearchTopkRerank M s =
      .ok ((List.range s.qRows).map fun qi => s.select M metric partitionOn qi 0 s.nRows s.kk) := by
  have hkth := kth_of_columns hk hpos h
  have hkk : s.kk = min s.k s.nRows := rfl
  unfold Search.columns at h
  simp only at h
  unfold vectorSearchTopkRerank
  rw [hop]
  simp only
  split_ifs at h ⊢ with hrange hflat hgrid
  rw [Option.some.injEq] at h
  rw [h, hkth]
  refine congrArg Except.ok (List.map_congr_left (fun qi _ => ?_))
  unfold Search.select Search.leading
  simp only [Nat.add_zero, List.map_map]
  refine List.map_congr_left (fun i hi => ?_)
  have hlt : i < s.nRows := by
    have hmem := @mem_argpartition _ _ M ((List.range s.nRows).map
      (partitionOn ∘ fun i => metric (rowOf s.query s.d qi) (rowOf s.corpus s.d i))) (s.kk - 1) i
      (by simp; omega) (by rwa [Nat.sub_add_cancel (by omega)])
    simpa using hmem
  rw [List.getD_eq_getElem?_getD, List.getElem?_map, List.getElem?_range hlt]
  rfl

/-- A search that is not refused returns as many hits for every query as the casts leave, each with
its row's final score. -/
theorem vectorSearchTopkRerank_columns (hop : metricOf M s.op = some (metric, partitionOn)) {e : ℕ}
    (h : s.columns = some e) : ∃ hits : ℕ → Hits S,
      vectorSearchTopkRerank M s = .ok ((List.range s.qRows).map hits) ∧
        ∀ qi, (hits qi).length = e ∧ ∀ hit ∈ hits qi, hit.2 = s.final M metric qi hit.1 := by
  unfold Search.columns at h
  simp only at h
  unfold vectorSearchTopkRerank
  rw [hop]
  simp only
  split_ifs at h ⊢ with hrange hflat hgrid
  rw [Option.some.injEq] at h
  refine ⟨_, rfl, fun qi => ⟨?_, fun hit hmem => ?_⟩⟩
  · rw [List.length_map, List.length_take, length_argpartition (by simp; omega)]
    simp only [List.length_map, List.length_range]
    omega
  · obtain ⟨i, hi, rfl⟩ := List.mem_map.1 hmem
    have hlt := List.mem_range.1 ((M.argpartition_perm _ _ (by simp; omega)).mem_iff.1
      (List.mem_of_mem_take hi))
    simp only [List.length_map, List.length_range] at hlt
    rw [List.getD_eq_getElem?_getD, List.getElem?_map, List.getElem?_range hlt]
    rfl

theorem vectorSearchTopkRerank_refused (hop : metricOf M s.op = some (metric, partitionOn))
    (h : s.columns = none) : ∃ e, vectorSearchTopkRerank M s = .error e := by
  unfold Search.columns at h
  simp only at h
  unfold vectorSearchTopkRerank
  rw [hop]
  simp only
  split_ifs at h ⊢
  · exact ⟨_, rfl⟩
  · exact ⟨_, rfl⟩
  · exact ⟨_, rfl⟩

theorem select_tile {offset rows k qi : ℕ} (hrows : rows ≤ s.nRows) (hk : 1 ≤ k) (hkrows : k ≤ rows) :
    ((s.tile offset rows hrows).select M metric partitionOn qi 0 rows k).map
        (fun h => (h.1 + offset, h.2)) = s.select M metric partitionOn qi offset rows k := by
  have hscore : ∀ i < rows, (s.tile offset rows hrows).score metric qi i =
      s.score metric qi (i + offset) := by
    intro i hi
    unfold Search.score Search.tile
    rw [rowOf_tile _ _ _ _ hi]
  have hfinal : ∀ i < rows, (s.tile offset rows hrows).final M metric qi i =
      s.final M metric qi (i + offset) := by
    intro i hi
    unfold Search.final
    rw [hscore i hi]
    unfold finalValue Search.tile
    cases s.weight with
    | none => rfl
    | some w => simp only [Option.map_some, getD_tile w offset rows hi]
  have hkeys : ((List.range rows).map fun i =>
        (s.tile offset rows hrows).raw metric partitionOn qi (i + 0)) =
      (List.range rows).map fun i => s.raw metric partitionOn qi (i + offset) := by
    refine List.map_congr_left (fun i hi => ?_)
    unfold Search.raw
    rw [Nat.add_zero, hscore i (List.mem_range.1 hi)]
  unfold Search.select Search.leading
  rw [hkeys, List.map_map, List.map_map, List.map_map]
  refine List.map_congr_left (fun i hi => ?_)
  have hlt : i < rows := by
    have hmem := @mem_argpartition _ _ M ((List.range rows).map fun i =>
      s.raw metric partitionOn qi (i + offset)) (k - 1) i
      (by simp; omega) (by rwa [Nat.sub_add_cancel hk])
    simpa using hmem
  simp only [Function.comp, Nat.add_zero]
  rw [hfinal i hlt]

/-! The rows of a selection. -/

/-- A window split into the rows selected and the others. -/
theorem leading_split {qi offset rows k : ℕ} (hk : 1 ≤ k) (hkrows : k ≤ rows) :
    ∃ rest, (s.leading M metric partitionOn qi offset rows k ++ rest).Perm (List.range' offset rows) ∧
      (s.leading M metric partitionOn qi offset rows k).length = k ∧
      ∀ i ∈ s.leading M metric partitionOn qi offset rows k, ∀ j ∈ rest,
        ¬ M.less (s.raw metric partitionOn qi j) (s.raw metric partitionOn qi i) := by
  set xs := (List.range rows).map fun i => s.raw metric partitionOn qi (i + offset) with hxs
  have hlen : xs.length = rows := by rw [hxs, List.length_map, List.length_range]
  have hkth : k - 1 < xs.length := by omega
  have hperm := M.argpartition_perm xs (k - 1) hkth
  have hparts := M.argpartition_parts xs (k - 1) hkth
  rw [Nat.sub_add_cancel hk] at hparts
  rw [hlen] at hperm
  have hget : ∀ i < rows, xs.getD i default = s.raw metric partitionOn qi (i + offset) := by
    intro i hi
    rw [List.getD_eq_getElem?_getD, hxs, List.getElem?_map, List.getElem?_range hi]
    rfl
  have hwindow : List.range' offset rows = (List.range rows).map (· + offset) := by
    rw [List.range'_eq_map_range]
    exact List.map_congr_left (fun i _ => Nat.add_comm _ _)
  refine ⟨((M.argpartition xs (k - 1)).drop k).map (· + offset), ?_, ?_, ?_⟩
  · unfold Search.leading
    rw [← List.map_append, List.take_append_drop, hwindow]
    exact hperm.map _
  · unfold Search.leading
    rw [List.length_map, List.length_take, hperm.length_eq, List.length_range, Nat.min_eq_left hkrows]
  · intro _ hlead _ hrest
    unfold Search.leading at hlead
    obtain ⟨i, hi, rfl⟩ := List.mem_map.1 hlead
    obtain ⟨j, hj, rfl⟩ := List.mem_map.1 hrest
    have hilt := List.mem_range.1 (hperm.mem_iff.1 (List.mem_of_mem_take hi))
    have hjlt := List.mem_range.1 (hperm.mem_iff.1 (List.mem_of_mem_drop hj))
    rw [← hget i hilt, ← hget j hjlt]
    exact hparts i hi j hj

theorem leading_nodup {qi offset rows k : ℕ} (hk : 1 ≤ k) (hkrows : k ≤ rows) :
    (s.leading M metric partitionOn qi offset rows k).Nodup := by
  obtain ⟨rest, hperm, -, -⟩ := @leading_split _ _ M s metric partitionOn qi offset rows k hk hkrows
  exact (hperm.nodup_iff.2 List.nodup_range').sublist (List.sublist_append_left _ _)

theorem mem_leading {qi offset rows k i : ℕ} (hk : 1 ≤ k) (hkrows : k ≤ rows)
    (hi : i ∈ s.leading M metric partitionOn qi offset rows k) : offset ≤ i ∧ i < offset + rows := by
  obtain ⟨rest, hperm, -, -⟩ := @leading_split _ _ M s metric partitionOn qi offset rows k hk hkrows
  exact List.mem_range'_1.1 (hperm.mem_iff.1 (List.mem_append_left _ hi))

theorem map_fst_select {qi offset rows k : ℕ} :
    (s.select M metric partitionOn qi offset rows k).map Prod.fst =
      s.leading M metric partitionOn qi offset rows k := by
  unfold Search.select
  rw [List.map_map]
  exact List.map_id _

/-- Every hit carries its row's final score. -/
theorem score_select {qi offset rows k : ℕ} {h : ℕ × S}
    (hmem : h ∈ s.select M metric partitionOn qi offset rows k) : h.2 = s.final M metric qi h.1 := by
  unfold Search.select at hmem
  obtain ⟨i, -, rfl⟩ := List.mem_map.1 hmem
  rfl

/-! The rows the tiles select. -/

/-- Every row some tile from `offset` on selects. -/
def Search.candidates (M : Mlx S) (s : Search S) (metric : List S → List S → S) (partitionOn : S → S)
    (tileRows : ℕ) (htile : 1 ≤ tileRows) (qi offset : ℕ) : List ℕ :=
  if offset < s.nRows then
    let rows := min (s.nRows - offset) tileRows
    s.leading M metric partitionOn qi offset rows (min s.kk rows) ++
      s.candidates M metric partitionOn tileRows htile qi (offset + rows)
  else []
termination_by s.nRows - offset

theorem candidates_nodup (hk : 1 ≤ s.k) (qi offset : ℕ) :
    (s.candidates M metric partitionOn tileRows htile qi offset).Nodup ∧
      ∀ i ∈ s.candidates M metric partitionOn tileRows htile qi offset, offset ≤ i := by
  induction hn : s.nRows - offset using Nat.strong_induction_on generalizing offset with
  | _ n ih =>
    rw [Search.candidates]
    by_cases hlt : offset < s.nRows
    · have hkk : 1 ≤ s.kk := by
        unfold Search.kk
        omega
      simp only [if_pos hlt]
      have hrest := ih _ (by omega) (offset + min (s.nRows - offset) tileRows) rfl
      have hmem := fun i => @mem_leading _ _ M s metric partitionOn qi offset
        (min (s.nRows - offset) tileRows) (min s.kk (min (s.nRows - offset) tileRows)) i
      refine ⟨List.Nodup.append (leading_nodup (by omega) (by omega)) hrest.1
        (fun i hi hi' => ?_), fun i hi => ?_⟩
      · have := hmem i (by omega) (by omega) hi
        have := hrest.2 i hi'
        omega
      · obtain hi | hi := List.mem_append.1 hi
        · exact (hmem i (by omega) (by omega) hi).1
        · have := hrest.2 i hi
          omega
    · rw [if_neg hlt]
      exact ⟨List.nodup_nil, fun i hi => (by cases hi)⟩

/-- From the start of a tile on, the rows selected are those that lead in their own tile. -/
theorem mem_candidates (hk : 1 ≤ s.k) {qi t i : ℕ} :
    i ∈ s.candidates M metric partitionOn tileRows htile qi (t * tileRows) ↔
      t * tileRows ≤ i ∧ i ∈ s.tileLeading M metric partitionOn tileRows qi := by
  induction hn : s.nRows - t * tileRows using Nat.strong_induction_on generalizing t with
  | _ n ih =>
    have hnext : (t + 1) * tileRows = t * tileRows + tileRows := Nat.succ_mul _ _
    unfold Search.tileLeading at ih ⊢
    simp only [List.mem_filter, List.mem_range, decide_eq_true_eq] at ih ⊢
    rw [Search.candidates]
    by_cases hlt : t * tileRows < s.nRows
    · have hkk : 1 ≤ s.kk := by
        unfold Search.kk
        omega
      simp only [if_pos hlt]
      set rows := min (s.nRows - t * tileRows) tileRows with hrows
      have hmem := @mem_leading _ _ M s metric partitionOn qi (t * tileRows) rows (min s.kk rows) i
        (by omega) (by omega)
      have hlength : s.tileLength tileRows (t * tileRows) = rows := rfl
      -- a row of this tile has this tile's start
      have hown : t * tileRows ≤ i → i < t * tileRows + tileRows →
          i / tileRows * tileRows = t * tileRows := by
        intro h₁ h₂
        rw [(Nat.div_eq_iff (by omega)).2 ⟨h₁, by omega⟩]
      have hrest : i ∈ s.candidates M metric partitionOn tileRows htile qi (t * tileRows + rows) ↔
          t * tileRows + rows ≤ i ∧ i < s.nRows ∧ i ∈ s.leading M metric partitionOn qi
            (i / tileRows * tileRows) (s.tileLength tileRows (i / tileRows * tileRows))
            (min s.kk (s.tileLength tileRows (i / tileRows * tileRows))) := by
        by_cases hfull : rows = tileRows
        · rw [hfull, ← hnext]
          exact ih _ (by omega) rfl
        · rw [Search.candidates, if_neg (by omega)]
          exact ⟨fun h => (by cases h), fun h => by omega⟩
      rw [List.mem_append, hrest]
      refine ⟨?_, fun ⟨hge, hi, hlead⟩ => ?_⟩
      · rintro (hi | ⟨hge, hi, hlead⟩)
        · have hin := hmem hi
          rw [hown hin.1 (by omega), hlength]
          exact ⟨hin.1, by omega, hi⟩
        · exact ⟨by omega, hi, hlead⟩
      · by_cases hin : i < t * tileRows + rows
        · rw [hown hge (by omega), hlength] at hlead
          exact Or.inl hlead
        · exact Or.inr ⟨by omega, hi, hlead⟩
    · rw [if_neg hlt]
      exact ⟨fun h => (by cases h), fun h => by omega⟩

theorem candidates_perm (hk : 1 ≤ s.k) (qi : ℕ) :
    (s.candidates M metric partitionOn tileRows htile qi 0).Perm
      (s.tileLeading M metric partitionOn tileRows qi) := by
  refine (List.perm_ext_iff_of_nodup (candidates_nodup hk qi 0).1 (List.nodup_range.filter _)).2
    (fun i => ?_)
  have h := @mem_candidates _ _ M s metric partitionOn tileRows htile hk qi 0 i
  rw [Nat.zero_mul] at h
  exact h.trans (and_iff_right (Nat.zero_le i))

/-! The merge. -/

section Order

variable [LinearOrder S]

omit [Inhabited S] in
theorem noWorse_of_hitLe {op : ℕ} {a b : ℕ × S} (h : hitLe op a b) : noWorse op a.2 b.2 := by
  unfold hitLe at h
  unfold noWorse
  split_ifs at h ⊢
  · exact h.elim le_of_lt (fun h => h.1.ge)
  · exact h.elim le_of_lt (fun h => h.1.le)

instance (op : ℕ) : Std.Total (hitLe (S := S) op) where
  total a b := by
    unfold hitLe
    have hrows := Nat.le_total a.1 b.1
    rcases lt_trichotomy a.2 b.2 with h | h | h
    · split_ifs
      · exact Or.inr (Or.inl h)
      · exact Or.inl (Or.inl h)
    · split_ifs <;> exact hrows.imp (fun hle => Or.inr ⟨h, hle⟩) (fun hle => Or.inr ⟨h.symm, hle⟩)
    · split_ifs
      · exact Or.inl (Or.inl h)
      · exact Or.inr (Or.inl h)

instance (op : ℕ) : IsTrans (ℕ × S) (hitLe op) where
  trans a b c hab hbc := by
    unfold hitLe at hab hbc ⊢
    split_ifs at hab hbc ⊢
    · rcases hab with h | ⟨h, hle⟩ <;> rcases hbc with h' | ⟨h', hle'⟩
      · exact Or.inl (h'.trans h)
      · exact Or.inl (h' ▸ h)
      · exact Or.inl (h ▸ h')
      · exact Or.inr ⟨h.trans h', hle.trans hle'⟩
    · rcases hab with h | ⟨h, hle⟩ <;> rcases hbc with h' | ⟨h', hle'⟩
      · exact Or.inl (h.trans h')
      · exact Or.inl (h' ▸ h)
      · exact Or.inl (h ▸ h')
      · exact Or.inr ⟨h.trans h', hle.trans hle'⟩

variable {κ : Type*} [LinearOrder κ] {key : S ≃ κ}

omit [Inhabited S] [LinearOrder S] in
theorem tile_columns {offset rows : ℕ} (hrows : rows ≤ s.nRows) (hkk : 1 ≤ s.kk) (hpos : 1 ≤ rows) :
    (s.tile offset rows hrows).columns =
      if s.Flattens (min s.kk rows) then some (min s.kk rows) else none := by
  have h := @columns_of_le _ (s.tile offset rows hrows) (show 1 ≤ min s.kk rows by omega)
    (show min s.kk rows ≤ rows by omega)
  have hflattens : (s.tile offset rows hrows).Flattens (min s.kk rows) ↔
      s.Flattens (min s.kk rows) := by
    unfold Search.Flattens
    rw [show (s.tile offset rows hrows).weight.isSome = s.weight.isSome from Option.isSome_map]
    rfl
  rw [h]
  exact if_congr hflattens rfl rfl

omit [LinearOrder S] in
theorem tile_returns {offset rows : ℕ} (hop : metricOf M s.op = some (metric, partitionOn))
    (hrows : rows ≤ s.nRows) (hkk : 1 ≤ s.kk) (hpos : 1 ≤ rows) (hflat : s.Flattens (min s.kk rows)) :
    vectorSearchTopkRerank M (s.tile offset rows hrows) = .ok ((List.range s.qRows).map fun qi =>
      (s.tile offset rows hrows).select M metric partitionOn qi 0 rows (min s.kk rows)) := by
  have hkept : (s.tile offset rows hrows).kk = min s.kk rows := by
    change min (min s.kk rows) rows = _
    omega
  have hcolumns : (s.tile offset rows hrows).columns = some (s.tile offset rows hrows).kk := by
    rw [tile_columns hrows hkk hpos, hkept, if_pos hflat]
  have h := @vectorSearchTopkRerank_eq _ _ M (s.tile offset rows hrows) metric partitionOn hop
    (show 1 ≤ min s.kk rows by omega) hpos hcolumns
  rw [hkept] at h
  exact h

omit [Inhabited S] [LinearOrder S] in
/-- The tile after a tile's start starts one tile later, where the corpus goes on. -/
theorem next_start {offset : ℕ} (hstart : offset < s.nRows → tileRows ∣ offset)
    (hnext : offset + min (s.nRows - offset) tileRows < s.nRows) :
    tileRows ∣ offset + min (s.nRows - offset) tileRows := by
  rw [show min (s.nRows - offset) tileRows = tileRows by omega]
  exact Nat.dvd_add (hstart (by omega)) dvd_rfl

/-- From any tile on, every query's running top-k becomes a selection of all the candidates. -/
theorem tileLoop_selects (hkey : ∀ a b, noWorse s.op a b ↔ key a ≤ key b)
    (hop : metricOf M s.op = some (metric, partitionOn)) (hk : 1 ≤ s.k)
    (hflat : s.TilesFlatten tileRows) (offset : ℕ) (hstart : offset < s.nRows → tileRows ∣ offset)
    (cands : ℕ → List ℕ) (best : ℕ → Hits S) (hbest : ∀ qi, Selects (fun h : ℕ × S => key h.2) s.kk
      ((cands qi).map fun i => (i, s.final M metric qi i)) (best qi)) :
    ∃ out : ℕ → Hits S,
      tileLoop M s tileRows htile offset ((List.range s.qRows).map best) =
        .ok ((List.range s.qRows).map out) ∧
      ∀ qi, Selects (fun h : ℕ × S => key h.2) s.kk
        ((cands qi ++ s.candidates M metric partitionOn tileRows htile qi offset).map
          fun i => (i, s.final M metric qi i)) (out qi) := by
  induction hn : s.nRows - offset using Nat.strong_induction_on generalizing offset cands best with
  | _ n ih =>
    rw [tileLoop]
    by_cases hlt : offset < s.nRows
    · have hkk : 1 ≤ s.kk := by
        unfold Search.kk
        omega
      simp only [if_pos hlt]
      set rows := min (s.nRows - offset) tileRows with hrows
      have htileSearch := @tile_returns _ _ M s metric partitionOn offset rows hop (by omega) hkk
        (by omega) (hflat offset hlt (hstart hlt))
      rw [htileSearch]
      simp only
      have hmerge : mergeTile s.op s.kk offset ((List.range s.qRows).map best)
          ((List.range s.qRows).map fun qi => (s.tile offset rows (by omega)).select M metric
            partitionOn qi 0 rows (min s.kk rows)) =
          (List.range s.qRows).map fun qi => ((best qi ++
            s.select M metric partitionOn qi offset rows (min s.kk rows)).insertionSort
              (hitLe s.op)).take s.kk := by
        unfold mergeTile
        rw [List.zipWith_map, List.zipWith_self]
        refine List.map_congr_left (fun qi _ => ?_)
        rw [select_tile _ (by omega) (by omega)]
      rw [hmerge]
      obtain ⟨out, hout, hsel⟩ := ih _ (by omega) (offset + rows) (next_start hstart)
        (fun qi => cands qi ++ s.leading M metric partitionOn qi offset rows (min s.kk rows)) _
        (fun qi => by
          rw [List.map_append]
          exact (hbest qi).step (fun a b h => (hkey a.2 b.2).1 (noWorse_of_hitLe h))) rfl
      refine ⟨out, hout, fun qi => ?_⟩
      have hqi := hsel qi
      rw [List.append_assoc] at hqi
      rw [Search.candidates]
      simp only [if_pos hlt]
      exact hqi
    · refine ⟨best, by rw [if_neg hlt], fun qi => ?_⟩
      rw [Search.candidates, if_neg hlt, List.append_nil]
      exact hbest qi

/-- A tile whose hits do not reshape stops the search, if no earlier tile has. -/
theorem tileLoop_refused (hop : metricOf M s.op = some (metric, partitionOn)) (hk : 1 ≤ s.k)
    {start : ℕ} (hlt : start < s.nRows) (hdvd : tileRows ∣ start)
    (hrefused : ¬ s.Flattens (min s.kk (s.tileLength tileRows start))) (offset : ℕ)
    (hstart : tileRows ∣ offset) (hle : offset ≤ start) (best : List (Hits S)) :
    ∃ e, tileLoop M s tileRows htile offset best = .error e := by
  induction hn : s.nRows - offset using Nat.strong_induction_on generalizing offset best with
  | _ n ih =>
    have hkk : 1 ≤ s.kk := by
      unfold Search.kk
      omega
    rw [tileLoop]
    simp only [if_pos (show offset < s.nRows by omega)]
    set rows := min (s.nRows - offset) tileRows with hrows
    rcases hle.eq_or_lt with rfl | hearlier
    · have hnone : (s.tile offset rows (by omega)).columns = none := by
        rw [tile_columns _ hkk (by omega)]
        exact if_neg hrefused
      obtain ⟨e, he⟩ := @vectorSearchTopkRerank_refused _ _ M (s.tile offset rows (by omega)) metric
        partitionOn hop hnone
      rw [he]
      exact ⟨e, rfl⟩
    · have hnext : offset + tileRows ≤ start := by
        have hgap := Nat.le_of_dvd (by omega) (Nat.dvd_sub hdvd hstart)
        omega
      rcases vectorSearchTopkRerank M (s.tile offset rows (by omega)) with e | hits
      · exact ⟨e, rfl⟩
      · exact ih _ (by omega) (offset + rows) (next_start (fun _ => hstart) (by omega)) (by omega) _ rfl

omit [LinearOrder S] in
theorem countNoWorse_eq [LinearOrder S] (hkey : ∀ a b, noWorse s.op a b ↔ key a ≤ key b) (qi : ℕ)
    (b : S) (rows : List ℕ) : s.countNoWorse M metric qi b rows =
      upTo (fun i => key (s.final M metric qi i)) (key b) rows := by
  unfold Search.countNoWorse upTo
  exact List.countP_congr (fun h _ => by simp only [decide_eq_true_eq, hkey])

/-! Without a weight column the final scores are the metric's own. -/

theorem upTo_leading (hkey : ∀ a b, noWorse s.op a b ↔ key a ≤ key b) (hweight : s.weight = none)
    {qi : ℕ} (hordered : s.Ordered M metric partitionOn qi) {offset rows k : ℕ} (hk : 1 ≤ k)
    (hkrows : k ≤ rows) (hrows : offset + rows ≤ s.nRows) (t : κ) :
    upTo (fun i => key (s.final M metric qi i)) t (s.leading M metric partitionOn qi offset rows k) =
      min k (upTo (fun i => key (s.final M metric qi i)) t (List.range' offset rows)) := by
  obtain ⟨rest, hperm, hlength, hparts⟩ :=
    @leading_split _ _ M s metric partitionOn qi offset rows k hk hkrows
  have hfinal : ∀ i, s.final M metric qi i = s.score metric qi i := by
    intro i
    unfold Search.final finalValue
    rw [hweight]
  have hin : ∀ i, i ∈ s.leading M metric partitionOn qi offset rows k ++ rest → i < s.nRows := by
    intro i hi
    have := List.mem_range'_1.1 (hperm.mem_iff.1 hi)
    omega
  have hsplit : ∀ i ∈ s.leading M metric partitionOn qi offset rows k, ∀ j ∈ rest,
      key (s.final M metric qi i) ≤ key (s.final M metric qi j) := by
    intro i hi j hj
    have hnot := hparts i hi j hj
    rw [hordered _ (hin j (List.mem_append_right _ hj)) _ (hin i (List.mem_append_left _ hi)),
      not_not, hkey] at hnot
    rwa [hfinal, hfinal]
  have hcount := upTo_part _ hsplit t
  rwa [hlength, upTo_perm _ hperm] at hcount

theorem upTo_candidates (hkey : ∀ a b, noWorse s.op a b ↔ key a ≤ key b) (hweight : s.weight = none)
    {qi : ℕ} (hordered : s.Ordered M metric partitionOn qi) (hk : 1 ≤ s.k) (offset : ℕ) (t : κ) :
    min s.kk (upTo (fun i => key (s.final M metric qi i)) t
        (s.candidates M metric partitionOn tileRows htile qi offset)) =
      min s.kk (upTo (fun i => key (s.final M metric qi i)) t
        (List.range' offset (s.nRows - offset))) := by
  induction hn : s.nRows - offset using Nat.strong_induction_on generalizing offset with
  | _ n ih =>
    subst hn
    rw [Search.candidates]
    by_cases hlt : offset < s.nRows
    · have hkk : 1 ≤ s.kk := by
        unfold Search.kk
        omega
      simp only [if_pos hlt]
      set rows := min (s.nRows - offset) tileRows with hrowsEq
      have hsel := upTo_leading hkey hweight hordered (show 1 ≤ min s.kk rows by omega)
        (show min s.kk rows ≤ rows by omega) (show offset + rows ≤ s.nRows by omega) t
      have hrest := ih _ (by omega) (offset + rows) rfl
      have hsplit : List.range' offset (s.nRows - offset) =
          List.range' offset rows ++ List.range' (offset + rows) (s.nRows - (offset + rows)) := by
        rw [List.range'_append_1]
        congr 1
        omega
      have hle := upTo_le_length (fun i => key (s.final M metric qi i)) t (List.range' offset rows)
      rw [List.length_range'] at hle
      rw [upTo_append, hsel, hsplit, upTo_append]
      omega
    · rw [if_neg hlt, Nat.sub_eq_zero_of_le (not_lt.1 hlt)]
      rfl

theorem carriesBest_of_ordered (hkey : ∀ a b, noWorse s.op a b ↔ key a ≤ key b)
    (hweight : s.weight = none) {qi : ℕ} (hordered : s.Ordered M metric partitionOn qi) (hk : 1 ≤ s.k)
    (hpos : 0 < s.nRows) (htile : 1 ≤ tileRows) : s.CarriesBest M metric partitionOn tileRows qi := by
  have hkk : 1 ≤ s.kk := by
    unfold Search.kk
    omega
  intro b
  have hcands := @upTo_candidates _ _ M s metric partitionOn tileRows htile _ κ _ key hkey hweight qi
    hordered hk 0 (key b)
  rw [countNoWorse_eq hkey, countNoWorse_eq hkey,
    upTo_leading hkey hweight hordered hkk (Nat.min_le_right _ _) (Nat.zero_add _).le,
    ← upTo_perm _ (@candidates_perm _ _ M s metric partitionOn tileRows htile hk qi), hcands]
  rfl

/-! Without ties the rows selected are told by their ranks. -/

omit [LinearOrder S] in
open Classical in
theorem mem_leading_iff {qi : ℕ} (huntied : s.Untied M metric partitionOn qi) {offset rows k i : ℕ}
    (hk : 1 ≤ k) (hkrows : k ≤ rows) (hrows : offset + rows ≤ s.nRows) (hi : offset ≤ i)
    (hi' : i < offset + rows) : i ∈ s.leading M metric partitionOn qi offset rows k ↔
      s.rank M metric partitionOn qi offset rows i < k := by
  obtain ⟨rest, hperm, hlength, hparts⟩ :=
    @leading_split _ _ M s metric partitionOn qi offset rows k hk hkrows
  have hin : ∀ j ∈ s.leading M metric partitionOn qi offset rows k ++ rest, j < s.nRows := by
    intro j hj
    have := List.mem_range'_1.1 (hperm.mem_iff.1 hj)
    omega
  have hmem : i ∈ s.leading M metric partitionOn qi offset rows k ++ rest :=
    hperm.mem_iff.2 (List.mem_range'_1.2 ⟨hi, hi'⟩)
  let lt (a b : ℕ) : Prop := M.less (s.raw metric partitionOn qi a) (s.raw metric partitionOn qi b)
  have hasymm : ∀ a ∈ s.leading M metric partitionOn qi offset rows k ++ rest,
      ∀ b ∈ s.leading M metric partitionOn qi offset rows k ++ rest, lt a b → ¬ lt b a :=
    fun a ha b hb => huntied.asymm a (hin a ha) b (hin b hb)
  have h := mem_part_iff (hperm.nodup_iff.2 List.nodup_range') hasymm
    (fun a ha b hb => huntied.total a (hin a ha) b (hin b hb)) hparts hmem
  rw [hlength, hperm.countP_eq] at h
  exact h

omit [LinearOrder S] in
open Classical in
theorem rank_lt_rows {qi : ℕ} (huntied : s.Untied M metric partitionOn qi) {offset rows i : ℕ}
    (hrows : offset + rows ≤ s.nRows) (hi : offset ≤ i) (hi' : i < offset + rows) :
    s.rank M metric partitionOn qi offset rows i < rows := by
  have hne : s.rank M metric partitionOn qi offset rows i ≠ (List.range' offset rows).length := by
    unfold Search.rank
    rw [Ne, List.countP_eq_length]
    intro hall
    have hself := of_decide_eq_true (hall i (List.mem_range'_1.2 ⟨hi, hi'⟩))
    exact huntied.asymm i (by omega) i (by omega) hself hself
  have hle : s.rank M metric partitionOn qi offset rows i ≤ (List.range' offset rows).length :=
    List.countP_le_length
  rw [List.length_range'] at hne hle
  omega

omit [Inhabited S] [LinearOrder S] in
/-- A row is in its own tile. -/
theorem tile_window (htile : 1 ≤ tileRows) {i : ℕ} (hi : i < s.nRows) :
    i / tileRows * tileRows ≤ i ∧
      i < i / tileRows * tileRows + s.tileLength tileRows (i / tileRows * tileRows) ∧
      i / tileRows * tileRows + s.tileLength tileRows (i / tileRows * tileRows) ≤ s.nRows := by
  have hle := Nat.div_mul_le_self i tileRows
  have hmod := Nat.mod_lt i (show 0 < tileRows by omega)
  have hsplit := Nat.div_add_mod i tileRows
  rw [Nat.mul_comm] at hsplit
  unfold Search.tileLength
  omega

omit [LinearOrder S] in
theorem mem_tileLeading_iff {qi : ℕ} (huntied : s.Untied M metric partitionOn qi) (hk : 1 ≤ s.k)
    (htile : 1 ≤ tileRows) {i : ℕ} : i ∈ s.tileLeading M metric partitionOn tileRows qi ↔
      i < s.nRows ∧ s.tileRank M metric partitionOn tileRows qi i < s.kk := by
  unfold Search.tileLeading Search.tileRank
  simp only [List.mem_filter, List.mem_range, decide_eq_true_eq]
  refine and_congr_right (fun hi => ?_)
  obtain ⟨hge, hlt, hrows⟩ := @tile_window _ s tileRows htile i hi
  have hkk : 1 ≤ s.kk := by
    unfold Search.kk
    omega
  have hrank := rank_lt_rows huntied hrows hge hlt
  rw [mem_leading_iff huntied (by omega) (Nat.min_le_right _ _) hrows hge hlt]
  omega

theorem carriesBest_iff_ranksBest (hkey : ∀ a b, noWorse s.op a b ↔ key a ≤ key b) {qi : ℕ}
    (huntied : s.Untied M metric partitionOn qi) (hk : 1 ≤ s.k) (hpos : 0 < s.nRows)
    (htile : 1 ≤ tileRows) : s.CarriesBest M metric partitionOn tileRows qi ↔
      s.RanksBest M metric partitionOn tileRows qi := by
  have hkk : 1 ≤ s.kk := by
    unfold Search.kk
    omega
  have hkrows : s.kk ≤ s.nRows := Nat.min_le_right _ _
  set lead := s.leading M metric partitionOn qi 0 s.nRows s.kk with hlead
  set tiles := s.tileLeading M metric partitionOn tileRows qi with htiles
  have hmem : ∀ i < s.nRows, i ∈ lead ↔ s.rank M metric partitionOn qi 0 s.nRows i < s.kk :=
    fun i hi => mem_leading_iff huntied hkk hkrows (Nat.zero_add _).le (Nat.zero_le _) (by omega)
  have hin : ∀ i ∈ lead, i < s.nRows := fun i hi => by
    have := mem_leading hkk hkrows hi
    omega
  have hlength : lead.length = s.kk := by
    obtain ⟨-, -, h, -⟩ := @leading_split _ _ M s metric partitionOn qi 0 s.nRows s.kk hkk hkrows
    exact h
  -- what leads in the corpus leads in its tile
  have hsub : ∀ i ∈ lead, i ∈ tiles := by
    intro i hi
    refine (mem_tileLeading_iff huntied hk htile).2 ⟨hin i hi, lt_of_le_of_lt ?_ ((hmem i (hin i hi)).1 hi)⟩
    obtain ⟨-, -, hrows⟩ := @tile_window _ s tileRows htile i (hin i hi)
    have hwindow : (List.range' (i / tileRows * tileRows)
        (s.tileLength tileRows (i / tileRows * tileRows))).Sublist (List.range' 0 s.nRows) := by
      have hsplit := @List.range'_append_1 0 (i / tileRows * tileRows) (s.nRows - i / tileRows * tileRows)
      rw [Nat.zero_add, Nat.add_sub_cancel' (by omega)] at hsplit
      rw [← hsplit]
      refine List.Sublist.trans ?_ (List.sublist_append_right _ _)
      exact List.range'_sublist_right.2 (by omega)
    exact hwindow.countP_le
  have hperm : (lead ++ tiles.filter (· ∉ lead)).Perm tiles := by
    have hnodup : (lead ++ tiles.filter (· ∉ lead)).Nodup :=
      List.Nodup.append (leading_nodup hkk hkrows) ((List.nodup_range.filter _).filter _)
        (fun i hi hi' => of_decide_eq_true (List.mem_filter.1 hi').2 hi)
    refine (List.perm_ext_iff_of_nodup hnodup (List.nodup_range.filter _)).2 (fun i => ?_)
    rw [List.mem_append, List.mem_filter, decide_eq_true_eq]
    exact ⟨fun h => h.elim (hsub i) And.left, fun h => or_iff_not_imp_left.2 (fun hnot => ⟨h, hnot⟩)⟩
  have hcounts : s.CarriesBest M metric partitionOn tileRows qi ↔
      ∀ t, upTo (fun i => key (s.final M metric qi i)) t lead = min lead.length
        (upTo (fun i => key (s.final M metric qi i)) t (lead ++ tiles.filter (· ∉ lead))) := by
    unfold Search.CarriesBest
    simp only [countNoWorse_eq hkey, hlength, upTo_perm _ hperm]
    exact ⟨fun h t => by simpa using h (key.symm t), fun h b => h (key b)⟩
  rw [hcounts, upTo_part_iff]
  unfold Search.RanksBest
  refine ⟨fun h i hi j hj hri hrj hout => ?_, fun h i hi j hj => ?_⟩
  · refine (hkey _ _).2 (h i ((hmem i hi).2 hri) j (List.mem_filter.2
      ⟨(mem_tileLeading_iff huntied hk htile).2 ⟨hj, hrj⟩, decide_eq_true ?_⟩))
    rw [hmem j hj]
    omega
  · obtain ⟨hj, hnot⟩ := List.mem_filter.1 hj
    obtain ⟨hjlt, hrank⟩ := (mem_tileLeading_iff huntied hk htile).1 hj
    have hout := of_decide_eq_true hnot
    rw [hmem j hjlt] at hout
    exact (hkey _ _).1 (h i (hin i hi) j hjlt ((hmem i (hin i hi)).1 hi) hrank (by omega))

/-! Results up to ties. -/

omit [Inhabited S] in
/-- Hits whose scores are a function of their rows are the same up to ties when their scores are. -/
theorem sameHits_of_scores {xs ys : Hits S} {f : ℕ → S} (hxs : (xs.map Prod.fst).Nodup)
    (hys : (ys.map Prod.fst).Nodup) (hfx : ∀ h ∈ xs, h.2 = f h.1) (hfy : ∀ h ∈ ys, h.2 = f h.1)
    (h : (xs.map Prod.snd).Perm (ys.map Prod.snd)) : SameHits xs ys := by
  classical
  have hscore : ∀ {zs : Hits S}, (∀ h ∈ zs, h.2 = f h.1) → zs.map Prod.snd = (zs.map Prod.fst).map f := by
    intro zs hz
    rw [List.map_map]
    exact List.map_congr_left hz
  have hmem : ∀ {zs : Hits S}, (∀ h ∈ zs, h.2 = f h.1) → ∀ i ∈ zs.map Prod.fst, (i, f i) ∈ zs := by
    intro zs hz i hi
    obtain ⟨⟨j, a⟩, hj, rfl⟩ := List.mem_map.1 hi
    have hscore := hz _ hj
    rwa [show (j, a) = (j, f j) from Prod.ext rfl hscore] at hj
  have hrows : ((xs.map Prod.fst).map f).Perm ((ys.map Prod.fst).map f) := by
    rwa [← hscore hfx, ← hscore hfy]
  have htied : ∀ {us vs : Hits S}, (∀ h ∈ us, h.2 = f h.1) → (∀ h ∈ vs, h.2 = f h.1) →
      (us.map Prod.fst).Nodup → (vs.map Prod.fst).Nodup →
      ((us.map Prod.fst).map f).Perm ((vs.map Prod.fst).map f) →
      ∀ h ∈ us, h.1 ∉ vs.map Prod.fst → ∃ h' ∈ vs, h'.1 ∉ us.map Prod.fst ∧ h'.2 = h.2 := by
    intro us vs hu hv hnu hnv hperm h hh hnot
    obtain ⟨j, hj, hjnot, heq⟩ := @exists_tied _ _ _ f _ _ _ hnu hnv hperm h.1 (List.mem_map_of_mem hh) hnot
    exact ⟨(j, f j), hmem hv j hj, hjnot, by rw [hu h hh, ← heq]⟩
  refine ⟨?_, h, fun i a b ha hb => ?_, htied hfx hfy hxs hys hrows, htied hfy hfx hys hxs hrows.symm⟩
  · have hlen := h.length_eq
    rwa [List.length_map, List.length_map] at hlen
  · exact (hfx _ ha).trans (hfy _ hb).symm

end Order

section Main

universe u

/-- The order of an op's scores is a linear order, as it is or reversed. -/
theorem exists_key {T : Type u} [LinearOrder T] (op : ℕ) :
    ∃ (κ : Type u) (_ : LinearOrder κ) (key : T ≃ κ), ∀ a b, noWorse op a b ↔ key a ≤ key b := by
  by_cases hcos : op = opCosine
  · refine ⟨Tᵒᵈ, inferInstance, OrderDual.toDual, fun a b => ?_⟩
    rw [noWorse, if_pos hcos, OrderDual.toDual_le_toDual]
  · refine ⟨T, inferInstance, Equiv.refl T, fun a b => ?_⟩
    rw [noWorse, if_neg hcos]
    rfl

variable [LinearOrder S]

theorem sameHits_hits_iff (hk : 1 ≤ s.k) (hpos : 0 < s.nRows) {qi : ℕ} {κ : Type*} [LinearOrder κ]
    {key : S ≃ κ} (hkey : ∀ a b, noWorse s.op a b ↔ key a ≤ key b) {out : Hits S}
    (hout : Selects (fun h : ℕ × S => key h.2) s.kk
      ((s.candidates M metric partitionOn tileRows htile qi 0).map fun i => (i, s.final M metric qi i))
      out) :
    SameHits out (s.select M metric partitionOn qi 0 s.nRows s.kk) ↔
      s.CarriesBest M metric partitionOn tileRows qi := by
  have hkk : 1 ≤ s.kk := by
    unfold Search.kk
    omega
  have hscores : ∀ xs ys : Hits S, (xs.map Prod.snd).Perm (ys.map Prod.snd) ↔
      (xs.map fun h => key h.2).Perm (ys.map fun h => key h.2) := by
    intro xs ys
    have hmap : ∀ zs : Hits S, (zs.map fun h => key h.2) = (zs.map Prod.snd).map key :=
      fun zs => (List.map_map).symm
    rw [hmap, hmap]
    have hback : ∀ zs : Hits S, ((zs.map Prod.snd).map key).map key.symm = zs.map Prod.snd := by
      intro zs
      rw [List.map_map, key.symm_comp_self, List.map_id]
    refine ⟨fun h => h.map key, fun h => ?_⟩
    have := h.map key.symm
    rwa [hback, hback] at this
  have hperm := @candidates_perm _ _ M s metric partitionOn tileRows htile hk qi
  have hcarries : s.CarriesBest M metric partitionOn tileRows qi ↔
      ∀ t, upTo (fun h : ℕ × S => key h.2) t out = upTo (fun h : ℕ × S => key h.2) t
        (s.select M metric partitionOn qi 0 s.nRows s.kk) := by
    unfold Search.CarriesBest Search.select
    simp only [countNoWorse_eq hkey, hout.count, upTo_map, upTo_perm _ hperm]
    exact ⟨fun h t => by simpa using (h (key.symm t)).symm, fun h b => (h (key b)).symm⟩
  rw [hcarries, ← map_perm_iff (fun h : ℕ × S => key h.2), ← hscores]
  refine ⟨fun h => h.scores, fun h => ?_⟩
  have hcands := (@candidates_nodup _ _ M s metric partitionOn tileRows htile hk qi 0).1
  obtain ⟨sub, hsubperm, hsub⟩ := hout.subperm
  have hmem : ∀ h ∈ out, h ∈ (s.candidates M metric partitionOn tileRows htile qi 0).map
      fun i => (i, s.final M metric qi i) := fun h hh => hsub.subset (hsubperm.mem_iff.2 hh)
  refine sameHits_of_scores (f := s.final M metric qi) ?_ ?_ (fun h hh => ?_)
    (fun h hh => score_select hh) h
  · refine (hsubperm.map Prod.fst).nodup_iff.1 (List.Nodup.sublist (hsub.map Prod.fst) ?_)
    rw [List.map_map]
    exact (List.map_id _).symm ▸ hcands
  · rw [map_fst_select]
    exact leading_nodup hkk (Nat.min_le_right _ _)
  · obtain ⟨i, -, rfl⟩ := List.mem_map.1 (hmem h hh)
    rfl

omit [LinearOrder S] in
/-- The tiles select as many rows as the merge keeps. -/
theorem kk_le_length_candidates (hk : 1 ≤ s.k) (qi offset : ℕ) :
    min s.kk (s.nRows - offset) ≤
      (s.candidates M metric partitionOn tileRows htile qi offset).length := by
  induction hn : s.nRows - offset using Nat.strong_induction_on generalizing offset with
  | _ n ih =>
    rw [Search.candidates]
    by_cases hlt : offset < s.nRows
    · have hkk : 1 ≤ s.kk := by
        unfold Search.kk
        omega
      simp only [if_pos hlt]
      set rows := min (s.nRows - offset) tileRows with hrows
      have hrest := ih _ (by omega) (offset + rows) rfl
      obtain ⟨-, -, hlength, -⟩ := @leading_split _ _ M s metric partitionOn qi offset rows
        (min s.kk rows) (by omega) (by omega)
      rw [List.length_append, hlength]
      omega
    · omega

omit [Inhabited S] [LinearOrder S] in
theorem matches_error {a b : Except SearchError (List (Hits S))} {e : SearchError}
    (ha : a = .error e) : Matches a b ↔ ∃ e', b = .error e' := by
  subst ha
  unfold Matches
  split
  · rename_i heq
    cases heq
  · exact iff_of_true trivial ⟨_, rfl⟩
  · rename_i hnot
    refine ⟨False.elim, ?_⟩
    rintro ⟨e', rfl⟩
    exact hnot e e' rfl rfl

omit [Inhabited S] [LinearOrder S] in
theorem matches_queries {xs ys : ℕ → Hits S} {n : ℕ} :
    Matches (.ok ((List.range n).map xs)) (.ok ((List.range n).map ys)) ↔
      ∀ qi < n, SameHits (xs qi) (ys qi) := by
  unfold Matches
  simp only [List.forall₂_map_left_iff, List.forall₂_map_right_iff, List.forall₂_same, List.mem_range]

omit [Inhabited S] [LinearOrder S] in
theorem sameHits_self {xs : Hits S} {f : ℕ → S} (hf : ∀ h ∈ xs, h.2 = f h.1) : SameHits xs xs := by
  refine ⟨rfl, List.Perm.refl _, fun i a b ha hb => ?_, fun h hh hnot => ?_, fun h hh hnot => ?_⟩
  · exact (hf _ ha).trans (hf _ hb).symm
  · exact absurd (List.mem_map_of_mem hh) hnot
  · exact absurd (List.mem_map_of_mem hh) hnot

/-- A search of several tiles returns a selection of what the tiles select, unless a tile stops it. -/
theorem vectorSearchTopkTiled_selects {κ : Type*} [LinearOrder κ] {key : S ≃ κ}
    (hkey : ∀ a b, noWorse s.op a b ↔ key a ≤ key b)
    (hop : metricOf M s.op = some (metric, partitionOn)) (hk : 1 ≤ s.k)
    (hmany : ¬ s.nRows ≤ tileRows) (hflat : s.TilesFlatten tileRows) : ∃ out : ℕ → Hits S,
      vectorSearchTopkTiled M s tileRows htile = .ok ((List.range s.qRows).map out) ∧
      ∀ qi, Selects (fun h : ℕ × S => key h.2) s.kk
        ((s.candidates M metric partitionOn tileRows htile qi 0).map
          fun i => (i, s.final M metric qi i)) (out qi) := by
  have hempty : List.replicate s.qRows ([] : Hits S) = (List.range s.qRows).map fun _ => [] := by
    rw [List.map_const', List.length_range]
  unfold vectorSearchTopkTiled
  rw [if_neg (show ¬ tileRows ≥ s.nRows by omega), hempty]
  exact tileLoop_selects hkey hop hk hflat 0 (fun _ => dvd_zero _) (fun _ => []) _
    (fun _ => Selects.nil s.kk)

theorem vectorSearchTopkTiled_refused (hop : metricOf M s.op = some (metric, partitionOn))
    (hk : 1 ≤ s.k) (hmany : ¬ s.nRows ≤ tileRows) (hflat : ¬ s.TilesFlatten tileRows) :
    ∃ e, vectorSearchTopkTiled M s tileRows htile = .error e := by
  unfold Search.TilesFlatten at hflat
  push Not at hflat
  obtain ⟨start, hlt, hdvd, hrefused⟩ := hflat
  unfold vectorSearchTopkTiled
  rw [if_neg (show ¬ tileRows ≥ s.nRows by omega)]
  exact tileLoop_refused hop hk hlt hdvd hrefused 0 (dvd_zero _) (Nat.zero_le _) _

omit [LinearOrder S] in
theorem vectorSearchTopkRerank_error_iff (hop : metricOf M s.op = some (metric, partitionOn)) :
    (∃ e, vectorSearchTopkRerank M s = .error e) ↔ s.columns = none := by
  refine ⟨fun ⟨e, he⟩ => ?_, vectorSearchTopkRerank_refused hop⟩
  rcases hcolumns : s.columns with _ | c
  · rfl
  · obtain ⟨hits, hhits, -⟩ := vectorSearchTopkRerank_columns hop hcolumns
    rw [hhits] at he
    cases he

omit [LinearOrder S] in
theorem matches_self (hop : metricOf M s.op = some (metric, partitionOn)) :
    Matches (vectorSearchTopkRerank M s) (vectorSearchTopkRerank M s) := by
  rcases hcolumns : s.columns with _ | e
  · obtain ⟨e, he⟩ := vectorSearchTopkRerank_refused hop hcolumns
    rw [he]
    trivial
  · obtain ⟨hits, hhits, hscores⟩ := vectorSearchTopkRerank_columns hop hcolumns
    rw [hhits, matches_queries]
    exact fun qi _ => sameHits_self (hscores qi).2

/-- Several tiles that do not stop: the calls match when the casts leave the hits the tiles keep. -/
theorem matches_many_iff {κ : Type*} [LinearOrder κ] {key : S ≃ κ}
    (hkey : ∀ a b, noWorse s.op a b ↔ key a ≤ key b)
    (hop : metricOf M s.op = some (metric, partitionOn)) (hk : 1 ≤ s.k) (hpos : 0 < s.nRows)
    {out : ℕ → Hits S} (hout : ∀ qi, Selects (fun h : ℕ × S => key h.2) s.kk
      ((s.candidates M metric partitionOn tileRows htile qi 0).map
        fun i => (i, s.final M metric qi i)) (out qi)) :
    Matches (.ok ((List.range s.qRows).map out)) (vectorSearchTopkRerank M s) ↔
      ∃ e, s.columns = some e ∧ ∀ qi < s.qRows, e = s.kk ∧
        s.CarriesBest M metric partitionOn tileRows qi := by
  have hlength : ∀ qi, (out qi).length = s.kk := by
    intro qi
    have hle := @kk_le_length_candidates _ _ M s metric partitionOn tileRows htile hk qi 0
    have hkrows : s.kk ≤ s.nRows := Nat.min_le_right _ _
    rw [(hout qi).length, List.length_map]
    omega
  rcases hcolumns : s.columns with _ | e
  · obtain ⟨e, he⟩ := vectorSearchTopkRerank_refused hop hcolumns
    rw [he]
    exact ⟨False.elim, fun ⟨_, h, _⟩ => by cases h⟩
  · simp only [Option.some.injEq, exists_eq_left']
    by_cases hkept : e = s.kk
    · rw [vectorSearchTopkRerank_eq hop hk hpos (hkept ▸ hcolumns), matches_queries]
      refine forall₂_congr (fun qi _ => ?_)
      rw [sameHits_hits_iff hk hpos hkey (hout qi), and_iff_right hkept]
    · obtain ⟨hits, hhits, hscores⟩ := vectorSearchTopkRerank_columns hop hcolumns
      rw [hhits, matches_queries]
      -- hits of another number are not the same
      refine forall₂_congr (fun qi _ => iff_of_false (fun h => ?_) (fun h => hkept h.1))
      exact hkept ((hscores qi).1.symm.trans (h.length.symm.trans (hlength qi)))

end Main

/-! A corpus of two rows. -/

/-- Exact arithmetic, with the square roots of squares and the decays of a weight of zero and of one
so large that its decay underflows. -/
def exactMlx : Mlx ℚ where
  add a b := a + b
  sub a b := a - b
  mul a b := a * b
  div a b := a / b
  neg a := -a
  sqrt a := Nat.sqrt a.num.toNat
  exp a := if a = 0 then 1 else 0
  sumAxis := List.sum
  matmulEntry q c := (List.zipWith (· * ·) q c).sum
  less a b := a < b
  argpartition xs _ :=
    (List.range xs.length).insertionSort fun i j => xs.getD i default ≤ xs.getD j default
  argpartition_perm xs _ _ := List.perm_insertionSort _ _
  argpartition_parts xs kth _ i hi j hj := by
    have htotal : Std.Total fun i j => xs.getD i default ≤ xs.getD j default :=
      ⟨fun i j => le_total _ _⟩
    have htrans : IsTrans ℕ fun i j => xs.getD i default ≤ xs.getD j default :=
      ⟨fun i j k => le_trans⟩
    have hsorted := List.pairwise_insertionSort (fun i j => xs.getD i default ≤ xs.getD j default)
      (List.range xs.length)
    rw [← List.take_append_drop (kth + 1) (List.insertionSort _ _), List.pairwise_append] at hsorted
    exact not_lt.2 (hsorted.2.2 i hi j hj)

/-- Cosines 1 and 3/5, one hit, tiles of one row. -/
def twoRows (weight : Option (List ℚ)) : Search ℚ :=
  ⟨[1, 0], 1, [1, 0, 3, 4], 2, 2, 1, opCosine, weight, by decide, by decide⟩

theorem exactMlx_ordered (weight : Option (List ℚ)) (qi : ℕ) :
    (twoRows weight).Ordered exactMlx (cosine exactMlx) exactMlx.neg qi := by
  intro i _ j _
  unfold noWorse Search.raw
  rw [if_pos (show (twoRows weight).op = opCosine from rfl), not_le]
  exact neg_lt_neg_iff

theorem rerank_weighted : vectorSearchTopkRerank exactMlx (twoRows (some [200, 0])) = .ok [[(0, 0)]] := by
  decide +kernel

theorem rerank_weighted_tiles :
    vectorSearchTopkRerank exactMlx ((twoRows (some [200, 0])).tile 0 1 (by decide)) = .ok [[(0, 0)]] ∧
    vectorSearchTopkRerank exactMlx ((twoRows (some [200, 0])).tile 1 1 (by decide)) = .ok [[(0, 3 / 5)]] := by
  decide +kernel

end PolarsMetal.Vector
