import PolarsMetal.Lowering.JoinGather

/-! When the resident gather gives what the join and the chain above it give. Its arrays are the
joined frame's columns read through the key, and its frame is the joined frame with the new column,
except that it writes a NaN for every null of a right column. -/

namespace PolarsMetal.Lowering
open Fusion Window DenseKey Fallible

variable {V : Type}

/-! Columns of derived frames. -/

theorem length_getColumn (df : Frame V) (c : String) : (df.getColumn c).length = df.rows.length :=
  List.length_map _

theorem pick_range {α : Type} (xs : List α) : pick xs (List.range xs.length) = xs := by
  unfold pick
  induction xs using List.reverseRecOn with
  | nil => rfl
  | append_singleton xs x ih =>
    rw [List.length_append, List.length_singleton, List.range_succ, List.filterMap_append]
    have hold : (List.range xs.length).filterMap (fun i => (xs ++ [x])[i]?) =
        (List.range xs.length).filterMap (fun i => xs[i]?) := by
      refine List.filterMap_congr (fun i hi => ?_)
      rw [List.getElem?_append_left (List.mem_range.1 hi)]
    rw [hold, ih]
    simp

theorem pick_allRows (df : Frame V) (c : String) : pick (df.getColumn c) (allRows df) = df.getColumn c := by
  unfold allRows
  rw [← length_getColumn df c]
  exact pick_range _

theorem length_derive (df : Frame V) (outs : List (String × OutColumn V)) :
    (df.derive (allRows df) outs).rows.length = df.rows.length := by
  unfold Frame.derive allRows
  rw [List.length_mapIdx, pick_range]

theorem find?_hstackOuts_new {columns : List String} {exprs : List (String × ColumnExpr V)} {c : String}
    {e : String × ColumnExpr V} (h : exprs.find? (fun e => e.1 = c) = some e) :
    (hstackOuts columns exprs).find? (fun o => o.1 = c) = some (c, .computed e.2) := by
  unfold hstackOuts
  rw [List.find?_append, find?_map_named (fun d => by split <;> rfl)]
  by_cases hc : c ∈ columns
  · rw [if_pos hc]
    simp only [h, Option.some_or]
  · have hname : e.1 = c := by simpa using List.find?_some h
    have hnew : (exprs.filter (fun e => e.1 ∉ columns)).find? (fun e => e.1 = c) = some e := by
      rw [List.find?_filter, ← h]
      congr 1
      funext a
      by_cases ha : a.1 = c
      · simp [ha, hc]
      · simp [ha]
    rw [if_neg hc, Option.none_or, List.find?_map]
    refine (congrArg _ hnew).trans ?_
    rw [Option.map_some, hname]

theorem find?_hstackOuts_old {columns : List String} {exprs : List (String × ColumnExpr V)} {c : String}
    (h : exprs.find? (fun e => e.1 = c) = none) (hc : c ∈ columns) :
    (hstackOuts columns exprs).find? (fun o => o.1 = c) = some (c, .copy c) := by
  unfold hstackOuts
  rw [List.find?_append, find?_map_named (fun d => by split <;> rfl), if_pos hc]
  simp only [h, Option.some_or]

theorem find?_of_mem {β : Type} {xs : List (String × β)} (hnodup : (xs.map Prod.fst).Nodup)
    {x : String × β} (hx : x ∈ xs) : xs.find? (fun y => y.1 = x.1) = some x := by
  induction xs with
  | nil => cases hx
  | cons y xs ih =>
    obtain ⟨hy, hxs⟩ := List.nodup_cons.1 hnodup
    rcases List.mem_cons.1 hx with rfl | hx
    · exact List.find?_cons_of_pos (by simp)
    · have hne : y.1 ≠ x.1 := fun h => hy (h ▸ List.mem_map_of_mem hx)
      rw [List.find?_cons_of_neg (by simpa using hne)]
      exact ih hxs hx

/-- `with_columns` puts the new columns in and keeps the others. -/
theorem withColumns_spec {df : Frame V} {series : List (String × List (Option V))}
    (hnodup : (series.map Prod.fst).Nodup) (hlen : ∀ s ∈ series, s.2.length = df.rows.length) :
    ∃ out, df.withColumns series = .ok out ∧ out.rows.length = df.rows.length ∧
      (∀ s ∈ series, s.1 ∈ out.columns ∧ out.getColumn s.1 = s.2) ∧
      ∀ c ∈ df.columns, c ∉ series.map Prod.fst →
        c ∈ out.columns ∧ out.getColumn c = df.getColumn c := by
  have hfound : ∀ {o : String × OutColumn V} {outs : List (String × OutColumn V)} {c : String},
      outs.find? (fun o => o.1 = c) = some o → c ∈ (df.derive (allRows df) outs).columns := by
    intro o outs c ho
    have hname : o.1 = c := by simpa using List.find?_some ho
    exact hname ▸ List.mem_map_of_mem (List.mem_of_find?_eq_some ho)
  refine ⟨_, if_pos hnodup, length_derive _ _, fun s hs => ?_, fun c hc hnew => ?_⟩
  · have hexprs : (series.map (fun s => (s.1, fun _ : Frame V => s.2))).find? (fun e => e.1 = s.1) =
        some (s.1, fun _ => s.2) := by
      rw [List.find?_map]
      exact congrArg _ (find?_of_mem hnodup hs)
    have hout : (hstackOuts df.columns _).find? (fun o => o.1 = s.1) = some (s.1, .computed _) :=
      find?_hstackOuts_new hexprs
    refine ⟨hfound hout, ?_⟩
    rw [getColumn_derive_computed df _ _ hout]
    unfold allRows
    rw [pick_range, ← hlen s hs]
    refine List.ext_getElem (by simp) (fun i hi hi' => ?_)
    rw [List.getElem_map, List.getElem_range, List.getD_eq_getElem?_getD,
      List.getElem?_eq_getElem hi', Option.getD_some]
  · have hexprs : (series.map (fun s => (s.1, fun _ : Frame V => s.2))).find? (fun e => e.1 = c) =
        none := by
      rw [List.find?_map, Option.map_eq_none_iff, List.find?_eq_none]
      intro s hs hname
      have hname : s.1 = c := by simpa using hname
      exact hnew (hname ▸ List.mem_map_of_mem hs)
    have hout := find?_hstackOuts_old hexprs hc
    exact ⟨hfound hout, (getColumn_derive_copy df _ _ hout).trans (pick_allRows df c)⟩

theorem select_eq {df : Frame V} {names : List String} (h : names ⊆ df.columns) :
    df.select names = .ok (df.derive (allRows df) (copies names)) := by
  unfold Frame.select
  have hnone : names.find? (· ∉ df.columns) = none :=
    List.find?_eq_none.2 (fun c hc => by simpa using h hc)
  rw [hnone]

theorem getColumn_select {df : Frame V} {names : List String} {c : String} (hc : c ∈ names) :
    (df.derive (allRows df) (copies names)).getColumn c = df.getColumn c :=
  (getColumn_derive_copy df _ _ (find?_copies names hc)).trans (pick_allRows df c)

/-- Two frames have the same selection exactly when they have the same columns there. -/
theorem select_eq_iff {df df' : Frame V} {names : List String} (hrows : df.rows.length = df'.rows.length) :
    df.derive (allRows df) (copies names) = df'.derive (allRows df') (copies names) ↔
      ∀ c ∈ names, df.getColumn c = df'.getColumn c := by
  refine ⟨fun h c hc => ?_, fun h => ?_⟩
  · rw [← getColumn_select hc, h, getColumn_select hc]
  · unfold Frame.derive allRows
    rw [pick_range, pick_range, Frame.mk.injEq]
    refine ⟨rfl, List.ext_getElem (by simpa using hrows) (fun i hi hi' => ?_)⟩
    rw [List.length_mapIdx] at hi hi'
    rw [List.getElem_mapIdx, List.getElem_mapIdx]
    refine List.map_congr_left (fun o ho => ?_)
    obtain ⟨c, hc, rfl⟩ := List.mem_map.1 ho
    have hcells : (df.getColumn c)[i]? = (df'.getColumn c)[i]? := by rw [h c hc]
    unfold Frame.getColumn at hcells
    rw [List.getElem?_map, List.getElem?_map, List.getElem?_eq_getElem hi,
      List.getElem?_eq_getElem hi'] at hcells
    exact Option.some.inj hcells

/-! The joined frame. -/

theorem length_result (s : Scan V) : s.result.rows.length = s.df.rows.length := by
  obtain ⟨df, projection⟩ := s
  cases projection with
  | none => rfl
  | some columns => exact length_derive _ _

theorem getColumn_result (s : Scan V) {c : String} (hc : c ∈ s.result.columns) :
    s.result.getColumn c = s.df.getColumn c := by
  obtain ⟨df, projection⟩ := s
  cases projection with
  | none => rfl
  | some columns =>
    obtain ⟨o, ho, rfl⟩ := List.mem_map.1 hc
    obtain ⟨c, hmem, rfl⟩ := List.mem_map.1 ho
    exact getColumn_select hmem

theorem joinOuts_no_clash {suffix : String} {lcols rcols : List String} {rkey : String}
    (h : NoClash lcols rcols rkey) :
    joinOuts suffix true lcols rcols rkey = lcols.map (fun c => (c, .left c)) ++
      (rcols.filter (· ≠ rkey)).map (fun c => (c, .right c)) := by
  have hfilter : rcols.filter (fun c => !(true && c == rkey)) = rcols.filter (· ≠ rkey) :=
    List.filter_congr (fun c _ => by by_cases hc : c = rkey <;> simp [hc])
  unfold joinOuts
  rw [hfilter]
  congr 1
  refine List.map_congr_left (fun c hc => ?_)
  obtain ⟨hmem, hne⟩ := List.mem_filter.1 hc
  rw [if_neg (h c hmem (by simpa using hne))]

section Keys

variable [DecidableEq V]

/-- A key that stands once in a column matches its place there. -/
theorem filter_keysMatch {cells : List (Option V)} {a : V} (hnodup : cells.Nodup)
    (ha : some a ∈ cells) (n : ℕ) :
    (cells.zipIdx n).filter (fun kj => keysMatch false (some a) kj.1) =
      [(some a, n + cells.idxOf (some a))] := by
  induction cells generalizing n with
  | nil => cases ha
  | cons cell cells ih =>
    obtain ⟨hcell, hcells⟩ := List.nodup_cons.1 hnodup
    rw [List.zipIdx_cons]
    by_cases hmatch : cell = some a
    · subst hmatch
      rw [List.filter_cons_of_pos (by simp [keysMatch]), List.idxOf_cons_self, Nat.add_zero]
      refine congrArg _ (List.filter_eq_nil_iff.2 (fun kj hkj => ?_))
      have hmem : kj.1 ∈ cells := List.fst_mem_of_mem_zipIdx hkj
      obtain ⟨k, j⟩ := kj
      rcases k with _ | b
      · simp [keysMatch]
      · have hne : a ≠ b := fun h => hcell (h ▸ hmem)
        simpa [keysMatch] using hne
    · have hfail : keysMatch false (some a) cell = false := by
        rcases cell with _ | b
        · rfl
        · simpa [keysMatch] using fun h => hmatch (congrArg some h.symm)
      rw [List.filter_cons_of_neg (by simp [hfail]),
        ih hcells ((List.mem_cons.1 ha).resolve_left (Ne.symm hmatch)) (n + 1),
        List.idxOf_cons_ne _ hmatch]
      simp only [Nat.succ_eq_add_one, List.cons.injEq, Prod.mk.injEq, true_and, and_true]
      omega

/-- Over right keys that stand once each and hold every left key, each left row matches the place
of its key. -/
theorem joinMatches_of_nodup {how : JoinHow} {lkeys rkeys : List (Option V)} (hnodup : rkeys.Nodup)
    (hkeys : ∀ k ∈ lkeys, k ≠ none ∧ k ∈ rkeys) :
    joinMatches how false lkeys rkeys = lkeys.zipIdx.map (fun ki => (ki.2, some (rkeys.idxOf ki.1))) := by
  unfold joinMatches
  rw [List.map_eq_flatMap]
  refine List.flatMap_congr (fun ki hki => ?_)
  obtain ⟨k, i⟩ := ki
  obtain ⟨hk, hmem⟩ := hkeys k (List.fst_mem_of_mem_zipIdx hki)
  obtain ⟨a, rfl⟩ := Option.ne_none_iff_exists'.1 hk
  have hone := filter_keysMatch hnodup hmem 0
  simp only [hone, Nat.zero_add, List.map_cons, List.map_nil, List.isEmpty_cons, Bool.false_eq_true,
    false_and, if_false]

theorem map_getD_zipIdx {α β : Type} (ks : List α) (xs : List (Option β)) (h : xs.length = ks.length) :
    ks.zipIdx.map (fun ki => xs.getD ki.2 none) = xs := by
  refine List.ext_getElem (by simp [h]) (fun i hi hi' => ?_)
  rw [List.getElem_map, List.getElem_zipIdx, Nat.zero_add, List.getD_eq_getElem?_getD,
    List.getElem?_eq_getElem hi', Option.getD_some]

/-- The join of two frames under such keys: the left frame's columns, and the right frame's by the
place of the left key. -/
theorem plainJoin_spec {L R : Frame V} {key rkey : String} (how : JoinHow)
    (hclash : NoClash L.columns R.columns rkey)
    (hnames : (L.columns ++ R.columns.filter (· ≠ rkey)).Nodup)
    (hkeys : ∀ k ∈ L.getColumn key, k ≠ none ∧ k ∈ R.getColumn rkey)
    (hnodup : (R.getColumn rkey).Nodup) :
    ∃ joined, L.join Joiner.asFound R key rkey how = some joined ∧
      joined.columns = L.columns ++ R.columns.filter (· ≠ rkey) ∧
      joined.rows.length = L.rows.length ∧
      (∀ c ∈ L.columns, joined.getColumn c = L.getColumn c) ∧
      ∀ c ∈ R.columns, c ≠ rkey → joined.getColumn c = (L.getColumn key).map (fun k =>
        (R.getColumn c).getD ((R.getColumn rkey).idxOf k) none) := by
  have houts := @joinOuts_no_clash "_right" _ _ _ hclash
  have hcols : (joinOuts "_right" true L.columns R.columns rkey).map Prod.fst =
      L.columns ++ R.columns.filter (· ≠ rkey) := by
    rw [houts, List.map_append, List.map_map, List.map_map]
    exact congrArg₂ _ (List.map_id _) (List.map_id _)
  have hmatches := @joinMatches_of_nodup V _ how _ _ hnodup hkeys
  have hcell : ∀ c src, (joinOuts "_right" true L.columns R.columns rkey).find? (fun o => o.1 = c) =
        some (c, src) →
      (Frame.mk ((joinOuts "_right" true L.columns R.columns rkey).map Prod.fst)
        ((joinMatches how false (L.getColumn key) (R.getColumn rkey)).map
          (joinRow (joinOuts "_right" true L.columns R.columns rkey) L R))).getColumn c =
        (L.getColumn key).zipIdx.map (fun ki =>
          joinCell L R (ki.2, some ((R.getColumn rkey).idxOf ki.1)) src) := by
    intro c src hfind
    unfold Frame.getColumn at hmatches ⊢
    rw [hmatches, List.map_map, List.map_map]
    refine List.map_congr_left (fun ki _ => ?_)
    rw [Function.comp_apply, Function.comp_apply, joinRow, cellOf_map, hfind]
    rfl
  refine ⟨_, if_pos (hcols ▸ hnames), hcols, ?_, fun c hc => ?_, fun c hc hne => ?_⟩
  · change (List.map _ (joinMatches how false (L.getColumn key) (R.getColumn rkey))).length = _
    rw [hmatches, List.length_map, List.length_map, List.length_zipIdx, length_getColumn]
  · refine (hcell c (.left c) ?_).trans (map_getD_zipIdx _ _ ?_)
    · rw [houts, List.find?_append, find?_map_named (fun _ => rfl), if_pos hc, Option.some_or]
    · rw [length_getColumn, length_getColumn]
  · have hfind : (joinOuts "_right" true L.columns R.columns rkey).find? (fun o => o.1 = c) =
        some (c, .right c) := by
      rw [houts, List.find?_append, find?_map_named (fun _ => rfl), if_neg (hclash c hc hne),
        Option.none_or, find?_map_named (fun _ => rfl),
        if_pos (List.mem_filter.2 ⟨hc, by simpa using hne⟩)]
    refine (hcell c (.right c) hfind).trans ?_
    rw [← List.zipIdx_map_fst 0 (L.getColumn key), List.map_map, List.zipIdx_map_fst]
    rfl

end Keys

/-! The guards. -/

variable (H : GatherHost V)

/-- The guards: rows, keys without nulls, a right key that is `0..n-1` in some order, and left keys
among them. -/
structure Dense (plan : JoinPlan V) : Prop where
  rows : 0 < plan.left.df.rows.length
  leftKeys : none ∉ plan.left.df.getColumn plan.key
  rightKeys : none ∉ plan.right.df.getColumn plan.rightKey
  slots : (H.ints (plan.right.df.getColumn plan.rightKey)).Perm (slots plan.right.df.rows.length)
  range : ∀ k ∈ H.ints (plan.left.df.getColumn plan.key), 0 ≤ k ∧ k < plan.right.df.rows.length

theorem exists_values {cells : List (Option V)} (h : none ∉ cells) :
    ∃ vs : List V, cells = vs.map some := by
  induction cells with
  | nil => exact ⟨[], rfl⟩
  | cons cell cells ih =>
    obtain ⟨vs, rfl⟩ := ih (fun hmem => h (List.mem_cons_of_mem _ hmem))
    rcases cell with _ | v
    · exact absurd List.mem_cons_self h
    · exact ⟨v :: vs, rfl⟩

theorem ints_some (vs : List V) : H.ints (vs.map some) = vs.map H.toInt := by
  unfold GatherHost.ints
  induction vs with
  | nil => rfl
  | cons v vs ih =>
    rw [List.map_cons, List.map_cons, ← ih]
    rfl

theorem any_isNone_iff {cells : List (Option V)} : cells.any Option.isNone = true ↔ none ∈ cells := by
  rw [List.any_eq_true]
  refine ⟨fun ⟨cell, hcell, hnone⟩ => ?_, fun h => ⟨none, h, rfl⟩⟩
  rwa [Option.isNone_iff_eq_none.1 hnone] at hcell

/-- The guards hold exactly where the keys are dense, and otherwise the branch declines. -/
theorem gatherKeys_spec {plan : JoinPlan V} (hhow : plan.how = .left ∨ plan.how = .inner)
    (hkey : plan.key ∈ plan.left.df.columns) (hrkey : plan.rightKey ∈ plan.right.df.columns) :
    (Dense H plan → gatherKeys H plan.left.df plan.right.df plan =
      .ok (some (H.ints (plan.left.df.getColumn plan.key),
        H.ints (plan.right.df.getColumn plan.rightKey)))) ∧
    (¬Dense H plan → gatherKeys H plan.left.df plan.right.df plan = .ok none) := by
  have hguard : ¬(plan.how ≠ .left ∧ plan.how ≠ .inner) := by
    rcases hhow with h | h <;> simp [h]
  have hlcol : plan.left.df.column plan.key = .ok (plan.left.df.getColumn plan.key) := if_pos hkey
  have hrcol : plan.right.df.column plan.rightKey = .ok (plan.right.df.getColumn plan.rightKey) :=
    if_pos hrkey
  obtain ⟨b, hdense, hb⟩ := isDenseKey_spec (H.ints (plan.right.df.getColumn plan.rightKey))
    plan.right.df.rows.length
  have hnumpy : numpy (isDenseKey (H.ints (plan.right.df.getColumn plan.rightKey))
      plan.right.df.rows.length) = .ok b := by rw [hdense]; rfl
  unfold gatherKeys
  rw [if_neg hguard]
  refine ⟨fun h => ?_, fun h => ?_⟩
  · obtain ⟨vs, hvs⟩ := exists_values h.rightKeys
    obtain ⟨us, hus⟩ := exists_values h.leftKeys
    have hpos : 0 < us.length := by
      have hlen := length_getColumn plan.left.df plan.key
      rw [hus, List.length_map] at hlen
      rw [hlen]
      exact h.rows
    have hheight : 0 < plan.right.df.rows.length := by
      have hfirst := h.range (H.toInt us[0])
        (by rw [hus, ints_some]; exact List.mem_map_of_mem (List.getElem_mem hpos))
      omega
    have hlen : ((H.ints (plan.right.df.getColumn plan.rightKey)).length : ℤ) =
        plan.right.df.rows.length := by
      rw [hvs, ints_some, List.length_map, ← List.length_map (f := some), ← hvs, length_getColumn]
    have htrue : b = true := hb.2 ⟨by exact_mod_cast hheight, hlen, h.slots⟩
    have hrows := h.rows
    rw [if_neg (by omega), hlcol, hrcol]
    simp only [bind, Except.bind, pure, Except.pure, hnumpy, htrue]
    rw [if_neg (by rw [any_isNone_iff, any_isNone_iff]; exact not_or.2 ⟨h.leftKeys, h.rightKeys⟩),
      if_neg (by decide), if_neg]
    rw [List.any_eq_true]
    rintro ⟨k, hk, hout⟩
    have hin := h.range k hk
    simp only [decide_eq_true_eq] at hout
    omega
  · by_cases hrows : plan.left.df.rows.length = 0 ∨ plan.right.df.rows.length = 0
    · rw [if_pos hrows]
      rfl
    rw [if_neg hrows, hlcol, hrcol]
    simp only [bind, Except.bind, pure, Except.pure, hnumpy]
    by_cases hnulls : none ∈ plan.left.df.getColumn plan.key ∨
        none ∈ plan.right.df.getColumn plan.rightKey
    · rw [if_pos (by rwa [any_isNone_iff, any_isNone_iff])]
    rw [if_neg (by rwa [any_isNone_iff, any_isNone_iff])]
    by_cases hfalse : b = false
    · rw [if_pos hfalse]
    rw [if_neg hfalse]
    by_cases hrange : ∀ k ∈ H.ints (plan.left.df.getColumn plan.key),
        0 ≤ k ∧ k < plan.right.df.rows.length
    · obtain ⟨hl, hr⟩ := not_or.1 hnulls
      exact absurd ⟨by omega, hl, hr, (hb.1 (by simpa using hfalse)).2.2, hrange⟩ h
    · rw [if_pos]
      push Not at hrange
      obtain ⟨k, hk, hout⟩ := hrange
      refine List.any_eq_true.2 ⟨k, hk, ?_⟩
      rw [decide_eq_true_eq]
      by_cases h0 : 0 ≤ k
      · exact Or.inr (hout h0)
      · exact Or.inl (not_le.1 h0)

/-! The right columns through the key. -/

/-- Keys of the two columns with one integer are one key. -/
def IntegerKeys (lkeys rkeys : List (Option V)) : Prop :=
  ∀ a b, some a ∈ lkeys → some b ∈ rkeys → H.toInt a = H.toInt b → a = b

variable {H}

theorem Dense.nodup {plan : JoinPlan V} (h : Dense H plan) :
    (plan.right.df.getColumn plan.rightKey).Nodup := by
  obtain ⟨vs, hvs⟩ := exists_values h.rightKeys
  have hslots := h.slots
  rw [hvs, ints_some] at hslots
  have hints : (vs.map H.toInt).Nodup :=
    hslots.nodup_iff.2 (List.nodup_range.map Int.ofNat_injective)
  rw [hvs]
  exact (List.Nodup.of_map _ hints).map (Option.some_injective V)

theorem Dense.key_mem {plan : JoinPlan V} (h : Dense H plan)
    (hkeys : IntegerKeys H (plan.left.df.getColumn plan.key)
      (plan.right.df.getColumn plan.rightKey)) :
    ∀ k ∈ plan.left.df.getColumn plan.key,
      k ≠ none ∧ k ∈ plan.right.df.getColumn plan.rightKey := by
  obtain ⟨vs, hvs⟩ := exists_values h.rightKeys
  obtain ⟨us, hus⟩ := exists_values h.leftKeys
  have hslots := h.slots
  have hrange := h.range
  rw [hus, ints_some] at hrange
  rw [hvs, ints_some] at hslots
  intro k hk
  rw [hus] at hk
  obtain ⟨a, ha, rfl⟩ := List.mem_map.1 hk
  obtain ⟨b, hb, heq⟩ := List.mem_map.1
    (hslots.mem_iff.2 (mem_slots.2 (hrange _ (List.mem_map_of_mem ha))))
  have hleft : some a ∈ plan.left.df.getColumn plan.key := hus ▸ hk
  have hright : some b ∈ plan.right.df.getColumn plan.rightKey := hvs ▸ List.mem_map_of_mem hb
  obtain rfl := hkeys a b hleft hright heq.symm
  exact ⟨Option.some_ne_none _, hright⟩

theorem takeAt_eq_ok {us : List V} {values : List V} {read : V → V}
    (h : ∀ a ∈ us, 0 ≤ H.toInt a ∧ values[(H.toInt a).toNat]? = some (read a)) :
    takeAt values (us.map H.toInt) = .ok (us.map read) := by
  unfold takeAt
  rw [List.mapM_map]
  refine mapM_eq_ok (fun a ha => ?_)
  obtain ⟨h0, hread⟩ := h a ha
  obtain ⟨hlt, -⟩ := List.getElem?_eq_some_iff.1 hread
  have hslot : slotOf values.length (H.toInt a) = .ok (H.toInt a).toNat := by
    rw [← Int.toNat_of_nonneg h0]
    exact slotOf_of_mem hlt
  rw [Function.comp_apply, hslot]
  change (values[(H.toInt a).toNat]?).elim _ _ = _
  rw [hread]
  rfl

variable [DecidableEq V]

/-- A reordered right column, read at the left keys, holds the cells of the rows they match. -/
theorem dimColumn_spec {plan : JoinPlan V} (h : Dense H plan)
    (hkeys : IntegerKeys H (plan.left.df.getColumn plan.key)
      (plan.right.df.getColumn plan.rightKey))
    {c : String} (hc : c ∈ plan.right.df.columns) :
    ∃ values, dimColumn H plan.right.df (H.ints (plan.right.df.getColumn plan.rightKey)) c =
        .ok (c, values) ∧
      takeAt values (H.ints (plan.left.df.getColumn plan.key)) =
        .ok ((plan.left.df.getColumn plan.key).map (fun k => H.toFloat32
          ((plan.right.df.getColumn c).getD
            ((plan.right.df.getColumn plan.rightKey).idxOf k) none))) := by
  have hmem := h.key_mem hkeys
  obtain ⟨vs, hvs⟩ := exists_values h.rightKeys
  obtain ⟨us, hus⟩ := exists_values h.leftKeys
  have hslots := h.slots
  have hrange := h.range
  have hheight := length_getColumn plan.right.df plan.rightKey
  rw [hus, ints_some] at hrange
  rw [hvs, ints_some] at hslots
  rw [hvs, List.length_map] at hheight
  rw [hus] at hmem ⊢
  rw [hvs] at hmem ⊢
  rw [ints_some, ints_some]
  have hvalue : ((plan.right.df.getColumn c).map H.toFloat32).length = (vs.map H.toInt).length := by
    rw [List.length_map, List.length_map, length_getColumn, hheight]
  have hfresh : ((H.empty plan.right.df.rows.length).length : ℤ) = plan.right.df.rows.length := by
    rw [H.length_empty]
  obtain ⟨values, hrun, -, hread⟩ := reorderByKey_spec hslots hvalue hfresh
  refine ⟨values, ?_, ?_⟩
  · have hcol : plan.right.df.column c = .ok (plan.right.df.getColumn c) := if_pos hc
    unfold dimColumn
    rw [hcol]
    change (numpy (reorderByKey _ _ _) >>= _) = _
    rw [hrun]
    rfl
  · rw [List.map_map]
    refine takeAt_eq_ok (fun a ha => ?_)
    obtain ⟨h0, hlt⟩ := hrange _ (List.mem_map_of_mem ha)
    refine ⟨h0, ?_⟩
    obtain ⟨i, -, huniq, v, hv, hat⟩ := hread (H.toInt a).toNat (by omega)
    -- the key's place in the right column is the row the slot was written from
    have hplace : (vs.map some).idxOf (some a) = i := by
      have hin := (hmem _ (List.mem_map_of_mem ha)).2
      have hidx := List.idxOf_lt_length_of_mem hin
      refine huniq _ ?_
      have hget := List.getElem_idxOf hidx
      rw [List.getElem_map] at hget
      rw [List.length_map] at hidx
      rw [List.getElem?_map, List.getElem?_eq_getElem hidx, Option.map_some,
        Option.some.inj hget, Int.toNat_of_nonneg h0]
    rw [hat, Function.comp_apply, hplace]
    rw [List.getElem?_map, Option.map_eq_some_iff] at hv
    obtain ⟨cell, hcell, rfl⟩ := hv
    rw [List.getD_eq_getElem?_getD, hcell, Option.getD_some]

/-! The branch. -/

/-- What the walker stashed: the right columns the chain reads are gathered, and no other column it
reads is a right one. -/
structure Attached (plan : JoinPlan V) (inSchema : Schema) (g : Gather) : Prop where
  dims : g.outDimCols = plan.dimValueCols
  gathered : g.gatherCols ⊆ plan.dimValueCols
  values : ∀ c, .gatherValue c ∈ g.descriptors → c ∈ g.gatherCols
  cols : ∀ c, .col c ∈ g.descriptors → c ∉ plan.dimValueCols ∧ inSchema c ≠ none

theorem exists_of_forall₂_right {α β : Type} {R : α → β → Prop} {xs : List α} {ys : List β}
    (h : List.Forall₂ R xs ys) {y : β} (hy : y ∈ ys) : ∃ x, R x y := by
  induction h with
  | nil => cases hy
  | cons hR _ ih =>
    rcases List.mem_cons.1 hy with rfl | hy
    · exact ⟨_, hR⟩
    · exact ih hy

omit [DecidableEq V] in
theorem attachGatherScope_spec {nt : NodeTraverser} {inSchema : Schema} {plan : JoinPlan V}
    {binding : FusedBinding nt inSchema} {outSchema : List String} {g : Gather}
    (h : attachGatherScope nt inSchema plan [binding] outSchema = some g) :
    Attached plan inSchema g ∧ g.outName = binding.name ∧ g.outSchema = outSchema := by
  simp only [attachGatherScope] at h
  split_ifs at h
  split at h
  · cases h
  · rename_i scope descriptors outDtype hgather
    obtain rfl := Option.some.inj h
    -- the columns the plain analysis read are those of the tree's leaves
    obtain ⟨⟨scope', ds⟩, hplain, hds⟩ := bind_eq_ok.1 binding.analyzed
    obtain ⟨-, rfl, -⟩ : scope' = binding.scope ∧ ds = binding.descriptors ∧ _ = binding.outDtype := by
      simpa only [pure_eq_ok, Prod.mk.injEq] using hds
    have hread := (analyzeWith_firstPass hplain).cols
    have hpass := (gatherPass_of_analyze hgather).1
    refine ⟨⟨rfl, List.filter_sublist.subset, fun c hc => ?_, fun c hc => ?_⟩, rfl, rfl⟩
    · obtain ⟨id, -, -, hg⟩ := (hpass.values c).1 hc
      exact (isGathered_isSome_iff c).1 hg
    · obtain ⟨id, hid, hcol, hplain⟩ := (hpass.cols c).1 hc
      refine ⟨fun hdim => ?_, ?_⟩
      · have hlisted : c ∈ colNames binding.descriptors :=
          mem_colNames.2 ((hread c).2 (readsColumn_plain.2 ⟨id, hid, hcol⟩))
        have hgathered : c ∈ plan.dimValueCols.filter (· ∈ colNames binding.descriptors) :=
          List.mem_filter.2 ⟨hdim, by simpa using hlisted⟩
        exact (isGathered_none_iff c).1 hplain hgathered
      · obtain ⟨input, hdecl⟩ := exists_of_forall₂_right hpass.paired hc
        obtain ⟨dtype, hdtype, -⟩ := declares_col hdecl
        exact fun hnone => Option.some_ne_none dtype (hdtype.symm.trans hnone)

/-- What the executor gets for a descriptor: a column of the joined frame, or for a gathered one an
array that holds it through the key. -/
def Supplies (H : GatherHost V) (joined : Frame V) (key : List ℤ) : Descriptor → GatherArray V → Prop
  | .gatherKey _, array => array = .int32 (key.map (fun k => k.bmod (2 ^ 32)))
  | .gatherValue c, array => ∃ values, array = .float32 values ∧
    takeAt values key = .ok ((joined.getColumn c).map H.toFloat32)
  | .col c, array => array = .float32 ((joined.getColumn c).map H.toFloat32)
  | .lit x, array => array = .float32 [H.literal x]

/-- The node's schemas are those of its frames, its keys are integer columns and its right columns
`float32` ones. -/
structure TypedJoin (H : GatherHost V) (plan : JoinPlan V) (node : JoinNode) (inSchema : Schema)
    (outName : String) (outSchema : List String) : Prop where
  leftScan : plan.left.result.columns ⊆ plan.left.df.columns
  rightScan : plan.right.result.columns ⊆ plan.right.df.columns
  rightSchema : node.rightSchema.map Prod.fst = plan.right.result.columns
  key : plan.key ∈ plan.left.result.columns
  rightKey : plan.rightKey ∈ plan.right.result.columns
  names : (plan.left.result.columns ++ plan.dimValueCols).Nodup
  inSchema : ∀ c, inSchema c ≠ none → c ∈ plan.left.result.columns ++ plan.dimValueCols
  outSchema : ∀ c, c ∈ outSchema ↔ c ∈ plan.left.result.columns ++ plan.dimValueCols ∨ c = outName
  keys : IntegerKeys H (plan.left.df.getColumn plan.key) (plan.right.df.getColumn plan.rightKey)
  floats : ∀ c ∈ plan.dimValueCols, ∀ v, some v ∈ plan.right.df.getColumn c → H.toFloat32 (some v) = v

omit [DecidableEq V] in
/-- The reordered columns, looked up. -/
theorem dimValues_map {names : List String} (values : String → List V) {c : String} (hc : c ∈ names) :
    dimValues (names.map (fun c => (c, values c))) c = .ok (values c) := by
  unfold dimValues
  have hlookup : (names.map (fun c => (c, values c))).lookup c = some (values c) := by
    induction names with
    | nil => cases hc
    | cons d names ih =>
      rw [List.map_cons, List.lookup_cons]
      by_cases hd : c = d
      · subst hd
        simp
      · rw [beq_false_of_ne hd]
        exact ih ((List.mem_cons.1 hc).resolve_left hd)
  rw [hlookup]
  rfl

/-- The joined frame, and each right column read through the key. -/
theorem denseJoin_spec {plan : JoinPlan V} {node : JoinNode} {inSchema : Schema} {outName : String}
    {outSchema : List String} {left right : WalkedInput V}
    (hwalk : walkJoin node left right = .ok plan)
    (ht : TypedJoin H plan node inSchema outName outSchema) (hdense : Dense H plan) :
    ∃ joined, plan.left.result.join Joiner.asFound plan.right.result plan.key plan.rightKey plan.how =
        some joined ∧
      joined.columns = plan.left.result.columns ++ plan.dimValueCols ∧
      joined.rows.length = plan.left.df.rows.length ∧
      (∀ c ∈ plan.left.result.columns, joined.getColumn c = plan.left.df.getColumn c) ∧
      (∀ c ∈ plan.dimValueCols, ∀ v, some v ∈ joined.getColumn c → H.toFloat32 (some v) = v) ∧
      ∀ c ∈ plan.dimValueCols, ∃ values,
        dimColumn H plan.right.df (H.ints (plan.right.df.getColumn plan.rightKey)) c =
          .ok (c, values) ∧
        takeAt values (H.ints (plan.left.df.getColumn plan.key)) =
          .ok ((joined.getColumn c).map H.toFloat32) := by
  obtain ⟨-, -, -, -, hdims⟩ := walkJoin_eq_ok hwalk
  rw [ht.rightSchema] at hdims
  have hmem : ∀ c, c ∈ plan.dimValueCols ↔ c ∈ plan.right.result.columns ∧ c ≠ plan.rightKey := by
    intro c
    rw [hdims, List.mem_filter]
    simp
  have hclash : NoClash plan.left.result.columns plan.right.result.columns plan.rightKey :=
    fun c hc hne hleft => List.disjoint_of_nodup_append ht.names hleft ((hmem c).2 ⟨hc, hne⟩)
  have hkeys := hdense.key_mem ht.keys
  have hnodup := hdense.nodup
  have hnames := ht.names
  rw [← getColumn_result plan.left ht.key, ← getColumn_result plan.right ht.rightKey] at hkeys
  rw [← getColumn_result plan.right ht.rightKey] at hnodup
  rw [hdims] at hnames
  obtain ⟨joined, hjoin, hcols, hrows, hleft, hright⟩ :=
    plainJoin_spec plan.how hclash hnames hkeys hnodup
  have hcell : ∀ c ∈ plan.dimValueCols, joined.getColumn c =
      (plan.left.df.getColumn plan.key).map (fun k => (plan.right.df.getColumn c).getD
        ((plan.right.df.getColumn plan.rightKey).idxOf k) none) := by
    intro c hc
    obtain ⟨hin, hne⟩ := (hmem c).1 hc
    rw [hright c hin hne, getColumn_result plan.left ht.key, getColumn_result plan.right ht.rightKey,
      getColumn_result plan.right hin]
  refine ⟨joined, hjoin, hcols.trans (by rw [hdims]), hrows.trans (length_result _),
    fun c hc => (hleft c hc).trans (getColumn_result _ hc), fun c hc v hv => ?_, fun c hc => ?_⟩
  · rw [hcell c hc] at hv
    obtain ⟨k, -, hk⟩ := List.mem_map.1 hv
    rw [List.getD_eq_getElem?_getD, Option.getD_eq_iff] at hk
    rcases hk with hk | ⟨-, hk⟩
    · exact ht.floats c hc v (List.mem_of_getElem? hk)
    · cases hk
  · obtain ⟨values, hrun, htake⟩ :=
      dimColumn_spec hdense ht.keys (ht.rightScan ((hmem c).1 hc).1)
    refine ⟨values, hrun, ?_⟩
    rw [htake, hcell c hc, List.map_map]
    rfl

/-! The frame. -/

/-- The chain's column in the joined frame, under the node's schema. -/
def Frame.chained (joined : Frame V) (outName : String) (out : List (Option V))
    (outSchema : List String) : Except GatherError (Frame V) :=
  joined.withColumns [(outName, out)] >>= fun result => result.select outSchema

omit [DecidableEq V] in
theorem toFloat32_eq_iff {cells : List (Option V)}
    (hfloat : ∀ v, some v ∈ cells → H.toFloat32 (some v) = v) :
    (cells.map H.toFloat32).map some = cells ↔ none ∉ cells := by
  rw [List.map_map]
  refine ⟨fun h hnone => ?_, fun h => ?_⟩
  · rw [← h] at hnone
    obtain ⟨cell, -, hcell⟩ := List.mem_map.1 hnone
    cases hcell
  · refine (List.map_congr_left (fun cell hcell => ?_)).trans (List.map_id _)
    rcases cell with _ | v
    · exact absurd hcell h
    · exact congrArg some (hfloat v hcell)

omit [DecidableEq V] in
/-- The left frame with the right columns as floats is the joined frame exactly when they have no
null there. -/
theorem withDims_iff {L joined : Frame V} {lcols dims names : List String} {outName : String}
    {out : List (Option V)} (hrows : joined.rows.length = L.rows.length)
    (hcols : joined.columns = lcols ++ dims) (hsub : lcols ⊆ L.columns) (hnodup : (lcols ++ dims).Nodup)
    (hleft : ∀ c ∈ lcols, joined.getColumn c = L.getColumn c)
    (hfloat : ∀ c ∈ dims, ∀ v, some v ∈ joined.getColumn c → H.toFloat32 (some v) = v)
    (hname : outName ∉ dims) (hout : out.length = L.rows.length)
    (hnames : ∀ c, c ∈ names ↔ c ∈ lcols ++ dims ∨ c = outName) :
    ∃ result, (L.withColumns (dims.map (fun c => (c, ((joined.getColumn c).map H.toFloat32).map some)) ++
        [(outName, out)]) >>= fun result => result.select names) = .ok result ∧
      (joined.chained outName out names = .ok result ↔ ∀ c ∈ dims, none ∉ joined.getColumn c) := by
  have hfst : (dims.map (fun c => (c, ((joined.getColumn c).map H.toFloat32).map some)) ++
      [(outName, out)]).map Prod.fst = dims ++ [outName] := by
    rw [List.map_append, List.map_map]
    exact congrArg (· ++ [outName]) (List.map_id _)
  have hfresh : (dims ++ [outName]).Nodup :=
    List.Nodup.append (List.Nodup.of_append_right hnodup) (List.nodup_singleton _)
      (List.disjoint_singleton.2 hname)
  have hlens : ∀ s ∈ dims.map (fun c => (c, ((joined.getColumn c).map H.toFloat32).map some)) ++
      [(outName, out)], s.2.length = L.rows.length := by
    intro s hs
    rcases List.mem_append.1 hs with hs | hs
    · obtain ⟨c, -, rfl⟩ := List.mem_map.1 hs
      rw [List.length_map, List.length_map, length_getColumn, hrows]
    · rw [List.mem_singleton.1 hs, hout]
  have hlen : ∀ s ∈ [(outName, out)], s.2.length = joined.rows.length := by
    intro s hs
    rw [List.mem_singleton.1 hs, hout, hrows]
  obtain ⟨A, hA, hArows, hAnew, hAold⟩ := withColumns_spec (hfst ▸ hfresh) hlens
  have hsingle : ([(outName, out)].map Prod.fst).Nodup := List.nodup_singleton outName
  obtain ⟨B, hB, hBrows, hBnew, hBold⟩ := withColumns_spec hsingle hlen
  have hdisj := List.disjoint_of_nodup_append hnodup
  have hAcell : ∀ c ∈ names, c ∈ A.columns ∧ A.getColumn c = if c = outName then out
      else if c ∈ dims then ((joined.getColumn c).map H.toFloat32).map some else L.getColumn c := by
    intro c hc
    by_cases hout : c = outName
    · subst hout
      rw [if_pos rfl]
      exact hAnew (c, out) (by simp)
    · rw [if_neg hout]
      have hc := ((hnames c).1 hc).resolve_right hout
      by_cases hdim : c ∈ dims
      · rw [if_pos hdim]
        exact hAnew _ (List.mem_append_left _ (List.mem_map_of_mem hdim))
      · rw [if_neg hdim]
        have hold : c ∈ lcols := (List.mem_append.1 hc).resolve_right hdim
        exact hAold c (hsub hold) (by rw [hfst]; simp [hdim, hout])
  have hBcell : ∀ c ∈ names, c ∈ B.columns ∧ B.getColumn c =
      if c = outName then out else joined.getColumn c := by
    intro c hc
    by_cases hout : c = outName
    · subst hout
      rw [if_pos rfl]
      exact hBnew (c, out) (by simp)
    · rw [if_neg hout]
      exact hBold c (hcols ▸ ((hnames c).1 hc).resolve_right hout) (by simp [hout])
  refine ⟨_, bind_eq_ok.2 ⟨A, hA, select_eq (fun c hc => (hAcell c hc).1)⟩, ?_⟩
  have hchained : joined.chained outName out names = .ok (B.derive (allRows B) (copies names)) :=
    bind_eq_ok.2 ⟨B, hB, select_eq (fun c hc => (hBcell c hc).1)⟩
  rw [hchained, Except.ok.injEq, select_eq_iff (hBrows.trans (hrows.trans hArows.symm))]
  refine ⟨fun h c hc => ?_, fun h c hc => ?_⟩
  · have hne : c ≠ outName := fun heq => hname (heq ▸ hc)
    have hmem : c ∈ names := (hnames c).2 (Or.inl (List.mem_append_right _ hc))
    have heq := h c hmem
    rw [(hAcell c hmem).2, (hBcell c hmem).2, if_neg hne, if_neg hne, if_pos hc] at heq
    exact (toFloat32_eq_iff (hfloat c hc)).1 heq.symm
  · rw [(hAcell c hc).2, (hBcell c hc).2]
    by_cases hout : c = outName
    · rw [if_pos hout, if_pos hout]
    · rw [if_neg hout, if_neg hout]
      by_cases hdim : c ∈ dims
      · rw [if_pos hdim]
        exact ((toFloat32_eq_iff (hfloat c hdim)).2 (h c hdim)).symm
      · rw [if_neg hdim]
        have hc := ((hnames c).1 hc).resolve_right hout
        exact hleft c ((List.mem_append.1 hc).resolve_right hdim)

omit [DecidableEq V] in
/-- The arrays of the branch, and its frame by what the launch writes. -/
theorem gatherColumns_spec {plan : JoinPlan V} {inSchema : Schema} {g : Gather} {joined : Frame V}
    {lcols : List String} (hatt : Attached plan inSchema g)
    (hsub : lcols ⊆ plan.left.df.columns)
    (hschema : ∀ c, inSchema c ≠ none → c ∈ lcols ++ plan.dimValueCols)
    (hleft : ∀ c ∈ lcols, joined.getColumn c = plan.left.df.getColumn c)
    {key rkey : List ℤ}
    (hdims : ∀ c ∈ plan.dimValueCols, ∃ values, dimColumn H plan.right.df rkey c = .ok (c, values) ∧
      takeAt values key = .ok ((joined.getColumn c).map H.toFloat32)) :
    ∃ arrays, List.Forall₂ (Supplies H joined key) g.descriptors arrays ∧
      ∀ written out, H.execute g.scope arrays plan.left.df.rows.length = some (written, out) →
        gatherColumns H plan.left.df plan.right.df g key rkey =
          if written ≠ plan.left.df.rows.length then .ok none
          else plan.left.df.withColumns (plan.dimValueCols.map (fun c =>
              (c, ((joined.getColumn c).map H.toFloat32).map some)) ++
            [(g.outName, (List.range plan.left.df.rows.length).map (fun i => some (out i)))]) >>=
              fun result => result.select g.outSchema >>= fun result => .ok (some result) := by
  have hchoice : ∀ c, ∃ values, c ∈ plan.dimValueCols →
      dimColumn H plan.right.df rkey c = .ok (c, values) ∧
        takeAt values key = .ok ((joined.getColumn c).map H.toFloat32) := by
    intro c
    by_cases hc : c ∈ plan.dimValueCols
    · obtain ⟨values, hvalues⟩ := hdims c hc
      exact ⟨values, fun _ => hvalues⟩
    · exact ⟨[], fun h => absurd h hc⟩
  choose values hvalues using hchoice
  have hnames : ∀ c, c ∈ (g.gatherCols ++ g.outDimCols).dedup ↔ c ∈ plan.dimValueCols := by
    intro c
    rw [List.mem_dedup, List.mem_append, hatt.dims]
    exact ⟨fun h => h.elim (@hatt.gathered c) id, Or.inr⟩
  have hreordered : (g.gatherCols ++ g.outDimCols).dedup.mapM (dimColumn H plan.right.df rkey) =
      .ok ((g.gatherCols ++ g.outDimCols).dedup.map (fun c => (c, values c))) :=
    mapM_eq_ok (fun c hc => (hvalues c ((hnames c).1 hc)).1)
  have hlookup : ∀ c ∈ plan.dimValueCols,
      dimValues ((g.gatherCols ++ g.outDimCols).dedup.map (fun c => (c, values c))) c =
        .ok (values c) := fun c hc => dimValues_map values ((hnames c).2 hc)
  have harray : ∀ d ∈ g.descriptors, ∃ array, gatherArray H plan.left.df key
      ((g.gatherCols ++ g.outDimCols).dedup.map (fun c => (c, values c))) d = .ok array ∧
        Supplies H joined key d array := by
    intro d hd
    cases d with
    | gatherKey k => exact ⟨_, rfl, rfl⟩
    | lit x => exact ⟨_, rfl, rfl⟩
    | gatherValue c =>
      have hc := hatt.gathered (hatt.values c hd)
      refine ⟨.float32 (values c), ?_, values c, rfl, (hvalues c hc).2⟩
      exact bind_eq_ok.2 ⟨values c, hlookup c hc, rfl⟩
    | col c =>
      obtain ⟨hdim, hin⟩ := hatt.cols c hd
      have hc : c ∈ lcols := (List.mem_append.1 (hschema c hin)).resolve_right hdim
      have hcol : plan.left.df.column c = .ok (plan.left.df.getColumn c) := if_pos (hsub hc)
      refine ⟨.float32 ((plan.left.df.getColumn c).map H.toFloat32), ?_, ?_⟩
      · exact bind_eq_ok.2 ⟨_, hcol, rfl⟩
      · rw [Supplies, hleft c hc]
  obtain ⟨arrays, harrays, hsupplies⟩ := mapM_of_forall harray
  refine ⟨arrays, hsupplies, fun written out hrun => ?_⟩
  have hseries : g.outDimCols.mapM (dimSeries key
      ((g.gatherCols ++ g.outDimCols).dedup.map (fun c => (c, values c)))) =
      .ok (plan.dimValueCols.map (fun c => (c, ((joined.getColumn c).map H.toFloat32).map some))) := by
    rw [← hatt.dims] at hlookup hvalues ⊢
    refine mapM_eq_ok (fun c hc => bind_eq_ok.2 ⟨values c, hlookup c hc, ?_⟩)
    rw [(hvalues c hc).2]
    rfl
  unfold gatherColumns
  rw [hreordered]
  simp only [bind, Except.bind]
  rw [harrays]
  simp only [hrun, pure, Except.pure]
  split_ifs with hwritten
  · rfl
  · rw [hseries]

/-- The branch is taken over dense keys only. Its arrays are then the columns of the join in the left
frame's order; it raises where the new column takes a right column's name, and otherwise gives the
frame of the join with the new column exactly when the joined right columns have no null. -/
theorem dispatchJoin_gathers_iff {plan : JoinPlan V} {node : JoinNode} {left right : WalkedInput V}
    {nt : NodeTraverser} {inSchema : Schema} {binding : FusedBinding nt inSchema}
    {outSchema : List String} {g : Gather} (hwalk : walkJoin node left right = .ok plan)
    (ht : TypedJoin H plan node inSchema binding.name outSchema)
    (hattach : attachGatherScope nt inSchema plan [binding] outSchema = some g) (J : Joiner)
    (chain : Frame V → Option (Frame V)) :
    (¬Dense H plan →
      dispatchJoinChain H J chain plan (some g) = (dispatchJoin J plan).bind chain) ∧
    (Dense H plan → ∃ joined arrays,
      plan.left.result.join Joiner.asFound plan.right.result plan.key plan.rightKey plan.how =
        some joined ∧
      List.Forall₂ (Supplies H joined (H.ints (plan.left.df.getColumn plan.key))) g.descriptors
        arrays ∧
      ∀ written out, H.execute g.scope arrays plan.left.df.rows.length = some (written, out) →
        (written ≠ plan.left.df.rows.length →
          dispatchJoinChain H J chain plan (some g) = (dispatchJoin J plan).bind chain) ∧
        (written = plan.left.df.rows.length → binding.name ∈ plan.dimValueCols →
          dispatchJoinChain H J chain plan (some g) = none) ∧
        (written = plan.left.df.rows.length → binding.name ∉ plan.dimValueCols →
          ∃ result, dispatchJoinChain H J chain plan (some g) = some result ∧
            (joined.chained binding.name
                ((List.range plan.left.df.rows.length).map (fun i => some (out i))) outSchema =
              .ok result ↔ ∀ c ∈ plan.dimValueCols, none ∉ joined.getColumn c))) := by
  obtain ⟨hatt, hname, houtSchema⟩ := attachGatherScope_spec hattach
  obtain ⟨-, -, -, hhow, -⟩ := walkJoin_eq_ok hwalk
  obtain ⟨hready, hdecline⟩ :=
    gatherKeys_spec H hhow (ht.leftScan ht.key) (ht.rightScan ht.rightKey)
  refine ⟨fun hnot => ?_, fun hdense => ?_⟩
  · simp only [dispatchJoinChain, tryResidentGather, hdecline hnot, bind, Except.bind, pure, Except.pure]
  obtain ⟨joined, hjoin, hcols, hrows, hleft, hfloat, hdims⟩ := denseJoin_spec hwalk ht hdense
  obtain ⟨arrays, harrays, hrun⟩ := gatherColumns_spec hatt ht.leftScan ht.inSchema hleft hdims
  refine ⟨joined, arrays, hjoin, harrays, fun written out hexecute => ?_⟩
  have htry : tryResidentGather H plan.left.df plan.right.df plan g =
      gatherColumns H plan.left.df plan.right.df g (H.ints (plan.left.df.getColumn plan.key))
        (H.ints (plan.right.df.getColumn plan.rightKey)) := by
    unfold tryResidentGather
    rw [hready hdense]
    rfl
  have hgather := htry.trans (hrun written out hexecute)
  rw [hname, houtSchema] at hgather
  refine ⟨fun hshort => ?_, fun hall hdim => ?_, fun hall hdim => ?_⟩
  · rw [if_pos hshort] at hgather
    simp only [dispatchJoinChain, hgather]
  · rw [if_neg (not_not.2 hall)] at hgather
    have hdup : ¬((plan.dimValueCols.map (fun c =>
        (c, ((joined.getColumn c).map H.toFloat32).map some)) ++ [(binding.name,
          (List.range plan.left.df.rows.length).map (fun i => some (out i)))]).map Prod.fst).Nodup := by
      rw [List.map_append, List.map_map]
      intro hnodup
      exact List.disjoint_of_nodup_append hnodup (List.mem_map.2 ⟨_, hdim, rfl⟩) (by simp)
    rw [Frame.withColumns, if_neg hdup] at hgather
    simp only [dispatchJoinChain, hgather, bind, Except.bind]
  · rw [if_neg (not_not.2 hall)] at hgather
    have hlen : ((List.range plan.left.df.rows.length).map (fun i => some (out i))).length =
        plan.left.df.rows.length := by rw [List.length_map, List.length_range]
    obtain ⟨result, hresult, hiff⟩ := withDims_iff hrows hcols ht.leftScan ht.names hleft hfloat
      hdim hlen ht.outSchema
    obtain ⟨wide, hwide, hselect⟩ := bind_eq_ok.1 hresult
    refine ⟨result, ?_, hiff⟩
    rw [hwide] at hgather
    simp only [bind, Except.bind, hselect] at hgather
    simp only [dispatchJoinChain, hgather]

/-- A launch that takes a gathered column as it is; 0 stands for the NaN. -/
def takeHost : GatherHost ℕ where
  toInt := fun v => v
  toFloat32 := fun cell => cell.getD 0
  literal := fun _ => 1
  empty := fun n => List.replicate n 5
  length_empty := fun _ => List.length_replicate
  execute := fun _ arrays n =>
    match arrays with
    | [.int32 key, .float32 values] => some (n, fun i => values.getD (key.getD i 0).toNat 0)
    | _ => none

/-- The right row of the key 1 has no `v`: the branch gives a NaN for it where the join gives a
null, and declines where a left key has no right row. -/
example :
    let right : Frame ℕ := ⟨["k", "v"], [[some 1, none], [some 0, some 7]]⟩
    let plan : JoinPlan ℕ := ⟨⟨⟨["k"], [[some 0], [some 1]]⟩, none⟩, ⟨right, none⟩, "k", "k", .left, ["v"]⟩
    let g : Gather := ⟨.new, [.gatherKey "k", .gatherValue "v"], .f32, ["v"], ["v"], "k", "y",
      ["k", "v", "y"]⟩
    tryResidentGather takeHost plan.left.df right plan g =
        .ok (some ⟨["k", "v", "y"], [[some 0, some 7, some 7], [some 1, some 0, some 0]]⟩) ∧
      tryResidentGather takeHost ⟨["k"], [[some 2]]⟩ right plan g = .ok none :=
  ⟨rfl, rfl⟩

end PolarsMetal.Lowering
