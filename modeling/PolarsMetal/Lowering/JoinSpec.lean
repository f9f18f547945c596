import PolarsMetal.Lowering.Join

/-! What a join node returns in Polars, and when the UDF's join by key names and type alone returns
it: the node's other options must not matter on the scanned frames. -/

namespace PolarsMetal.Lowering
open Fusion Window Arrangement

variable {V : Type}

namespace JoinNode

/-- The node's columns. -/
def outs (node : JoinNode) (L R : Frame V) (rkey : String) : List (String × JoinSource) :=
  joinOuts node.suffix (node.coalesce != some false) L.columns R.columns rkey

/-- The bounds of the node's slice in `m` rows. -/
def bounds (node : JoinNode) (m : ℕ) : ℕ × ℕ :=
  match node.slice with
  | none => (0, m)
  | some (offset, length) => sliceBounds offset length m

/-- The results Polars may return for the node on two input frames: the matching rows in the order
the node maintains, sliced. -/
def Returns [DecidableEq V] (node : JoinNode) (L R out : Frame V) : Prop :=
  ∃ lkey rkey how ms, node.leftOn = [some lkey] ∧ node.rightOn = [some rkey] ∧ node.how = some how ∧
    Arranges (rank node.maintainOrder R.rows.length)
      (joinMatches how node.nullsEqual (L.getColumn lkey) (R.getColumn rkey)) ms ∧
    out = ⟨(node.outs L R rkey).map Prod.fst,
      (window (node.bounds ms.length).1 (node.bounds ms.length).2 ms).map
        (joinRow (node.outs L R rkey) L R)⟩

end JoinNode

/-! The walk. -/

theorem walkJoin_eq_ok {node : JoinNode} {left right : WalkedInput V} {plan : JoinPlan V}
    (h : walkJoin node left right = .ok plan) :
    node.leftOn = [some plan.key] ∧ node.rightOn = [some plan.rightKey] ∧
      node.how = some plan.how ∧ (plan.how = .left ∨ plan.how = .inner) ∧
      plan.dimValueCols = (node.rightSchema.map Prod.fst).filter (· ≠ plan.rightKey) := by
  unfold walkJoin at h
  rcases hl : node.leftOn with _ | ⟨lkey, _ | _⟩ <;> rw [hl] at h
  · cases h
  · rcases hr : node.rightOn with _ | ⟨rkey, _ | _⟩ <;> rw [hr] at h
    · cases h
    · rcases hhow : node.how with _ | how <;> rw [hhow] at h
      · cases h
      · simp only at h
        split_ifs at h with hplain
        rcases lkey with _ | lkey
        · cases h
        rcases rkey with _ | rkey
        · cases h
        simp only at h
        split at h
        · cases h
        · split_ifs at h
          rcases left with _ | l | _ <;> rcases right with _ | r | _ <;> cases h
          refine ⟨rfl, rfl, rfl, ?_, rfl⟩
          by_contra hother
          exact hplain (not_or.1 hother)
    · cases h
  · cases h

variable [DecidableEq V]

/-! The condition. -/

namespace JoinPlan

/-- The rows that match without the node's options, on the unprojected frames. -/
def plainMatches (plan : JoinPlan V) : List Match :=
  joinMatches plan.how false (plan.left.df.getColumn plan.key)
    (plan.right.df.getColumn plan.rightKey)

def plainOuts (plan : JoinPlan V) : List (String × JoinSource) :=
  joinOuts "_right" true plan.left.df.columns plan.right.df.columns plan.rightKey

def plainRows (plan : JoinPlan V) : List (List (Option V)) :=
  plan.plainMatches.map (joinRow plan.plainOuts plan.left.df plan.right.df)

/-- The rows that match under the node's options. -/
def nodeMatches (plan : JoinPlan V) (node : JoinNode) : List Match :=
  joinMatches plan.how node.nullsEqual (plan.left.result.getColumn plan.key)
    (plan.right.result.getColumn plan.rightKey)

def nodeOuts (plan : JoinPlan V) (node : JoinNode) : List (String × JoinSource) :=
  node.outs plan.left.result plan.right.result plan.rightKey

def nodeRow (plan : JoinPlan V) (node : JoinNode) : Match → List (Option V) :=
  joinRow (plan.nodeOuts node) plan.left.result plan.right.result

def nodeRank (plan : JoinPlan V) (node : JoinNode) : Match → ℕ ×ₗ ℕ :=
  rank node.maintainOrder plan.right.result.rows.length

def nodeBounds (plan : JoinPlan V) (node : JoinNode) : ℕ × ℕ :=
  node.bounds (plan.nodeMatches node).length

/-- The ranks of the places of the node's slice. -/
def places (plan : JoinPlan V) (node : JoinNode) : List (ℕ ×ₗ ℕ) :=
  window (plan.nodeBounds node).1 (plan.nodeBounds node).2
    (ranks (plan.nodeRank node) (plan.nodeMatches node))

/-- The node's options make no difference on the scanned frames: the column names are the same, the
node's slice has a place for every plain row, and every plain row can fill as many places of each
rank as it may come to. -/
structure Inert (plan : JoinPlan V) (node : JoinNode) : Prop where
  names : plan.plainOuts.map Prod.fst = (plan.nodeOuts node).map Prod.fst
  height : plan.plainMatches.length = (plan.nodeBounds node).2 - (plan.nodeBounds node).1
  spread : ∀ place row, min ((plan.places node).count place) (plan.plainRows.count row) ≤
    (((plan.nodeMatches node).filter (fun m => plan.nodeRank node m = place)).map
      (plan.nodeRow node)).count row

end JoinPlan

theorem sliceBounds_mono (offset : ℤ) (length m : ℕ) :
    (sliceBounds offset length m).1 ≤ (sliceBounds offset length m).2 := by
  unfold sliceBounds
  simp only
  omega

theorem bounds_spec (node : JoinNode) (m : ℕ) :
    (node.bounds m).1 ≤ (node.bounds m).2 ∧ (node.bounds m).2 ≤ m := by
  unfold JoinNode.bounds
  rcases node.slice with _ | ⟨offset, length⟩
  · exact ⟨Nat.zero_le _, le_rfl⟩
  · exact ⟨sliceBounds_mono offset length m, (sliceBounds_le offset length m).2⟩

/-- The results of the node, in terms of the plan. -/
theorem returns_iff {node : JoinNode} {plan : JoinPlan V} {left right : WalkedInput V}
    (hwalk : walkJoin node left right = .ok plan) (out : Frame V) :
    node.Returns plan.left.result plan.right.result out ↔
      ∃ ms, Arranges (plan.nodeRank node) (plan.nodeMatches node) ms ∧
        out = ⟨(plan.nodeOuts node).map Prod.fst,
          (window (plan.nodeBounds node).1 (plan.nodeBounds node).2 ms).map (plan.nodeRow node)⟩ := by
  obtain ⟨hl, hr, hhow, -, -⟩ := walkJoin_eq_ok hwalk
  unfold JoinNode.Returns JoinPlan.nodeBounds
  refine ⟨?_, ?_⟩
  · intro ⟨lkey, rkey, how, ms, hl', hr', hhow', hms, hout⟩
    rw [hl] at hl'
    rw [hr] at hr'
    rw [hhow] at hhow'
    cases hl'
    cases hr'
    cases hhow'
    refine ⟨ms, hms, ?_⟩
    rw [hout, hms.perm.length_eq]
    rfl
  · intro ⟨ms, hms, hout⟩
    refine ⟨plan.key, plan.rightKey, plan.how, ms, hl, hr, hhow, hms, ?_⟩
    rw [hout, hms.perm.length_eq]
    rfl

theorem dispatchJoin_eq (J : Joiner) (plan : JoinPlan V) :
    dispatchJoin J plan =
      if (plan.plainOuts.map Prod.fst).Nodup then
        some ⟨plan.plainOuts.map Prod.fst, (J.arrange plan.plainMatches).map
          (joinRow plan.plainOuts plan.left.df plan.right.df)⟩
      else none :=
  rfl

def Joiner.asFound : Joiner := ⟨id, fun ms => List.Perm.refl ms⟩

/-- The joiner that arranges one list of rows in a given way. -/
def Joiner.only (ms ms' : List Match) (h : ms'.Perm ms) : Joiner where
  arrange := fun xs => if xs = ms then ms' else xs
  perm := by
    intro xs
    split_ifs with hxs
    · exact hxs ▸ h
    · exact List.Perm.refl xs

theorem Joiner.only_arrange {ms ms' : List Match} (h : ms'.Perm ms) :
    (Joiner.only ms ms' h).arrange ms = ms' := if_pos rfl

theorem keysMatch_of_not_null {nullsEqual : Bool} {a b : Option V}
    (h : nullsEqual = false ∨ a ≠ none ∨ b ≠ none) : keysMatch nullsEqual a b = keysMatch false a b := by
  rcases a with _ | a <;> rcases b with _ | b
  · simpa [keysMatch] using h
  · rfl
  · rfl
  · rfl

/-- Where nulls do not meet, it does not matter whether they would match. -/
theorem joinMatches_of_not_null {how : JoinHow} {nullsEqual : Bool} {lkeys rkeys : List (Option V)}
    (h : nullsEqual = false ∨ none ∉ lkeys ∨ none ∉ rkeys) :
    joinMatches how nullsEqual lkeys rkeys = joinMatches how false lkeys rkeys := by
  unfold joinMatches
  refine List.flatMap_congr (fun ki hki => ?_)
  obtain ⟨k, i⟩ := ki
  have hkey : ∀ kj ∈ rkeys.zipIdx, keysMatch nullsEqual k kj.1 = keysMatch false k kj.1 := by
    intro kj hkj
    refine keysMatch_of_not_null ?_
    rcases h with h | h | h
    · exact Or.inl h
    · exact Or.inr (Or.inl (fun hk => h (hk ▸ List.fst_mem_of_mem_zipIdx hki)))
    · exact Or.inr (Or.inr (fun hk => h (hk ▸ List.fst_mem_of_mem_zipIdx hkj)))
  simp only [List.filter_congr hkey]

/-- No right column but the key is named like a left one. -/
def NoClash (lcols rcols : List String) (rkey : String) : Prop :=
  ∀ c ∈ rcols, c ≠ rkey → c ∉ lcols

theorem joinOuts_of_no_clash {suffix : String} {lcols rcols : List String} {rkey : String}
    (h : suffix = "_right" ∨ NoClash lcols rcols rkey) :
    joinOuts suffix true lcols rcols rkey = joinOuts "_right" true lcols rcols rkey := by
  rcases h with rfl | h
  · rfl
  · unfold joinOuts
    congr 1
    refine List.map_congr_left (fun c hc => ?_)
    obtain ⟨hmem, hkey⟩ := List.mem_filter.1 hc
    have hne : c ≠ rkey := by simpa using hkey
    rw [if_neg (h c hmem hne), if_neg (h c hmem hne)]

/-- The names tell the suffix apart wherever one is added, and whether the right key is left out. -/
theorem joinOuts_names_iff {suffix : String} {coalesced : Bool} {lcols rcols : List String}
    {rkey : String} (hrkey : rkey ∈ rcols) :
    (joinOuts "_right" true lcols rcols rkey).map Prod.fst =
        (joinOuts suffix coalesced lcols rcols rkey).map Prod.fst ↔
      coalesced = true ∧ (suffix = "_right" ∨ NoClash lcols rcols rkey) := by
  refine ⟨fun h => ?_, fun ⟨hcoalesced, h⟩ => by rw [hcoalesced, joinOuts_of_no_clash h]⟩
  unfold joinOuts at h
  rw [List.map_append, List.map_append, List.append_cancel_left_eq] at h
  have hcoalesced : coalesced = true := by
    by_contra hfalse
    rw [Bool.not_eq_true] at hfalse
    have hlen := congrArg List.length h
    simp only [hfalse, List.length_map, Bool.false_and, Bool.not_false, List.filter_true] at hlen
    exact absurd hlen (List.length_filter_lt_length_iff_exists.2 ⟨rkey, hrkey, by simp⟩).ne
  refine ⟨hcoalesced, ?_⟩
  by_contra hno
  obtain ⟨hsuffix, hclash⟩ := not_or.1 hno
  unfold NoClash at hclash
  push Not at hclash
  obtain ⟨c, hc, hne, hleft⟩ := hclash
  rw [hcoalesced, List.map_map, List.map_map] at h
  have hfilter : c ∈ rcols.filter (fun c => !(true && c == rkey)) :=
    List.mem_filter.2 ⟨hc, by simpa using hne⟩
  have hname := List.map_inj_left.1 h c hfilter
  simp only [Function.comp_apply, if_pos hleft] at hname
  exact hsuffix ((String.append_right_inj _).1 hname).symm

/-! The condition by the options. -/

/-- No row is kept from the places the order leaves open. -/
def JoinPlan.OrderFree (plan : JoinPlan V) (node : JoinNode) : Prop :=
  ∀ place row,
    min ((plan.plainMatches.map (plan.nodeRank node)).count place) (plan.plainRows.count row) ≤
      ((plan.plainMatches.filter (fun m => plan.nodeRank node m = place)).map
        (joinRow plan.plainOuts plan.left.df plan.right.df)).count row

theorem orderFree_of_none {node : JoinNode} {plan : JoinPlan V} (horder : node.maintainOrder = .none) :
    plan.OrderFree node := by
  have hrank : ∀ m, plan.nodeRank node m = toLex (0, 0) := by
    intro m
    unfold JoinPlan.nodeRank
    rw [horder]
    rfl
  intro place row
  by_cases hplace : place = toLex (0, 0)
  · subst hplace
    rw [List.filter_eq_self.2 (fun m _ => by simpa using hrank m)]
    exact min_le_right _ _
  · have hnone : (plan.plainMatches.map (plan.nodeRank node)).count place = 0 := by
      refine List.count_eq_zero.2 (fun hmem => hplace ?_)
      obtain ⟨m, -, hm⟩ := List.mem_map.1 hmem
      rw [← hm, hrank]
    rw [hnone]
    exact (min_le_left _ _).trans (Nat.zero_le _)

/-- On unprojected scans whose null keys cannot meet, the options make no difference exactly when
the right key is coalesced away, the suffix is the default one or never added, the slice leaves all
rows, and the order leaves every row its places. -/
theorem inert_iff_options {node : JoinNode} {plan : JoinPlan V}
    (hrkey : plan.rightKey ∈ plan.right.df.columns)
    (hleft : plan.left.projection = none) (hright : plan.right.projection = none)
    (hnulls : node.nullsEqual = false ∨ none ∉ plan.left.df.getColumn plan.key ∨
      none ∉ plan.right.df.getColumn plan.rightKey) :
    plan.Inert node ↔ node.coalesce ≠ some false ∧
      (node.suffix = "_right" ∨ NoClash plan.left.df.columns plan.right.df.columns plan.rightKey) ∧
      node.bounds plan.plainMatches.length = (0, plan.plainMatches.length) ∧
      plan.OrderFree node := by
  have hl : plan.left.result = plan.left.df := by
    unfold Scan.result
    rw [hleft]
    rfl
  have hr : plan.right.result = plan.right.df := by
    unfold Scan.result
    rw [hright]
    rfl
  have hmatches : plan.nodeMatches node = plan.plainMatches := by
    unfold JoinPlan.nodeMatches JoinPlan.plainMatches
    rw [hl, hr]
    exact joinMatches_of_not_null hnulls
  have hnames : plan.plainOuts.map Prod.fst = (plan.nodeOuts node).map Prod.fst ↔
      node.coalesce ≠ some false ∧ (node.suffix = "_right" ∨
        NoClash plan.left.df.columns plan.right.df.columns plan.rightKey) := by
    unfold JoinPlan.nodeOuts JoinNode.outs JoinPlan.plainOuts
    rw [hl, hr, joinOuts_names_iff hrkey, bne_iff_ne]
  have hbounds : plan.plainMatches.length = (plan.nodeBounds node).2 - (plan.nodeBounds node).1 ↔
      node.bounds plan.plainMatches.length = (0, plan.plainMatches.length) := by
    obtain ⟨hlo, hhi⟩ := bounds_spec node plan.plainMatches.length
    unfold JoinPlan.nodeBounds
    rw [hmatches, Prod.ext_iff]
    omega
  -- with the names and the slice settled, the rows and places are the plain ones
  have hspread : node.coalesce ≠ some false ∧ (node.suffix = "_right" ∨
        NoClash plan.left.df.columns plan.right.df.columns plan.rightKey) →
      node.bounds plan.plainMatches.length = (0, plan.plainMatches.length) →
      ((∀ place row, min ((plan.places node).count place) (plan.plainRows.count row) ≤
        (((plan.nodeMatches node).filter (fun m => plan.nodeRank node m = place)).map
          (plan.nodeRow node)).count row) ↔ plan.OrderFree node) := by
    intro ⟨hcoalesce, hsuffix⟩ hall
    have houts : plan.nodeOuts node = plan.plainOuts := by
      unfold JoinPlan.nodeOuts JoinNode.outs JoinPlan.plainOuts
      rw [hl, hr, bne_iff_ne.2 hcoalesce]
      exact joinOuts_of_no_clash hsuffix
    have hrow : plan.nodeRow node = joinRow plan.plainOuts plan.left.df plan.right.df := by
      unfold JoinPlan.nodeRow
      rw [houts, hl, hr]
    have hplaces : ∀ place, (plan.places node).count place =
        (plan.plainMatches.map (plan.nodeRank node)).count place := by
      intro place
      unfold JoinPlan.places JoinPlan.nodeBounds
      rw [hmatches, hall, ← length_ranks (plan.nodeRank node) plan.plainMatches, window_all]
      exact (ranks_perm _ _).count_eq place
    unfold JoinPlan.OrderFree
    simp only [hplaces, hmatches, hrow]
  refine ⟨fun h => ?_, fun ⟨hcoalesce, hsuffix, hall, horder⟩ => ?_⟩
  · have hopts := hnames.1 h.names
    have hall := hbounds.1 h.height
    exact ⟨hopts.1, hopts.2, hall, (hspread hopts hall).1 h.spread⟩
  · exact ⟨hnames.2 ⟨hcoalesce, hsuffix⟩, hbounds.2 hall,
      (hspread ⟨hcoalesce, hsuffix⟩ hall).2 horder⟩

/-- The UDF's join returns what the node does, in whatever order Polars joins, exactly when the
node's options make no difference on the scanned frames. -/
theorem join_lowering_honours_options_iff {node : JoinNode} {left right : WalkedInput V}
    {plan : JoinPlan V} (hwalk : walkJoin node left right = .ok plan)
    (hnames : ((plan.nodeOuts node).map Prod.fst).Nodup) :
    (∀ J : Joiner, ∃ joined, dispatchJoin J plan = some joined ∧
        node.Returns plan.left.result plan.right.result joined) ↔ plan.Inert node := by
  obtain ⟨hlo, hhi⟩ := bounds_spec node (plan.nodeMatches node).length
  have harranged : (∀ cs, cs.Perm plan.plainRows →
      ∃ ys, Arranges (plan.nodeRank node) (plan.nodeMatches node) ys ∧
        cs = (window (plan.nodeBounds node).1 (plan.nodeBounds node).2 ys).map (plan.nodeRow node)) ↔ _ :=
    forall_perm_exists_arranges_iff hlo hhi
  refine ⟨fun h => ?_, fun h J => ?_⟩
  · have hnodup : (plan.plainOuts.map Prod.fst).Nodup := by
      obtain ⟨joined, hrun, -⟩ := h Joiner.asFound
      by_contra hdup
      rw [dispatchJoin_eq, if_neg hdup] at hrun
      cases hrun
    have hret : ∀ J : Joiner, ∃ ms, Arranges (plan.nodeRank node) (plan.nodeMatches node) ms ∧
        plan.plainOuts.map Prod.fst = (plan.nodeOuts node).map Prod.fst ∧
        (J.arrange plan.plainMatches).map (joinRow plan.plainOuts plan.left.df plan.right.df) =
          (window (plan.nodeBounds node).1 (plan.nodeBounds node).2 ms).map (plan.nodeRow node) := by
      intro J
      obtain ⟨joined, hjoined, hreturns⟩ := h J
      rw [dispatchJoin_eq, if_pos hnodup] at hjoined
      cases hjoined
      obtain ⟨ms, hms, hout⟩ := (returns_iff hwalk _).1 hreturns
      rw [Frame.mk.injEq] at hout
      exact ⟨ms, hms, hout.1, hout.2⟩
    have hrows : ∀ cs, cs.Perm plan.plainRows →
        ∃ ms, Arranges (plan.nodeRank node) (plan.nodeMatches node) ms ∧
          cs = (window (plan.nodeBounds node).1 (plan.nodeBounds node).2 ms).map
            (plan.nodeRow node) := by
      intro cs hcs
      obtain ⟨ds, hds, hmap⟩ := exists_perm_map_eq hcs
      obtain ⟨ms, hms, -, hrows⟩ := hret (Joiner.only plan.plainMatches ds hds)
      refine ⟨ms, hms, ?_⟩
      rw [← hrows, ← hmap, Joiner.only_arrange]
    obtain ⟨hheight, hspread⟩ := harranged.1 hrows
    obtain ⟨-, -, hcols, -⟩ := hret Joiner.asFound
    refine ⟨hcols, ?_, hspread⟩
    rwa [JoinPlan.plainRows, List.length_map] at hheight
  · have hnodup : (plan.plainOuts.map Prod.fst).Nodup := h.names ▸ hnames
    refine ⟨_, (dispatchJoin_eq J plan).trans (if_pos hnodup), (returns_iff hwalk _).2 ?_⟩
    have hheight : plan.plainRows.length = (plan.nodeBounds node).2 - (plan.nodeBounds node).1 := by
      rw [JoinPlan.plainRows, List.length_map]
      exact h.height
    obtain ⟨ms, hms, hrows⟩ := harranged.2 ⟨hheight, h.spread⟩
      ((J.arrange plan.plainMatches).map (joinRow plan.plainOuts plan.left.df plan.right.df))
      ((J.perm _).map _)
    refine ⟨ms, hms, ?_⟩
    rw [h.names, hrows]

/-- Two inner rows of the key 1 under the suffix `_r`, and the same join under the default one. -/
def oneKeyJoin (suffix : String) : JoinNode where
  how := some .inner
  leftOn := [some "k"]
  rightOn := [some "k"]
  nullsEqual := false
  slice := none
  suffix := suffix
  coalesce := none
  maintainOrder := .none
  leftSchema := [("k", .int64), ("a", .float32)]
  rightSchema := [("k", .int64), ("a", .float32)]

def oneKeyPlan : JoinPlan ℕ where
  left := ⟨⟨["k", "a"], [[some 1, some 10]]⟩, none⟩
  right := ⟨⟨["k", "a"], [[some 1, some 20], [some 1, some 30]]⟩, none⟩
  key := "k"
  rightKey := "k"
  how := .inner
  dimValueCols := ["a"]

theorem join_lowering_honours_options_sample :
    oneKeyPlan.Inert (oneKeyJoin "_right") ∧
      ∀ J : Joiner, ∃ joined, dispatchJoin J oneKeyPlan = some joined ∧
        (oneKeyJoin "_right").Returns oneKeyPlan.left.result oneKeyPlan.right.result joined := by
  have hwalk : walkJoin (oneKeyJoin "_right") (.scan oneKeyPlan.left) (.scan oneKeyPlan.right) =
      .ok oneKeyPlan := rfl
  have hinert : oneKeyPlan.Inert (oneKeyJoin "_right") :=
    (inert_iff_options (by decide) rfl rfl (Or.inl rfl)).2
      ⟨by decide, Or.inl rfl, by decide, orderFree_of_none rfl⟩
  exact ⟨hinert, (join_lowering_honours_options_iff hwalk (by decide)).2 hinert⟩

/-- The node's column `a_r` comes back as `a_right`. -/
theorem suffix_is_lost :
    walkJoin (oneKeyJoin "_r") (.scan oneKeyPlan.left) (.scan oneKeyPlan.right) = .ok oneKeyPlan ∧
      ((oneKeyPlan.nodeOuts (oneKeyJoin "_r")).map Prod.fst).Nodup ∧
      ∀ J : Joiner, ∃ joined, dispatchJoin J oneKeyPlan = some joined ∧
        joined.columns = ["k", "a", "a_right"] ∧
        ∀ out, (oneKeyJoin "_r").Returns oneKeyPlan.left.result oneKeyPlan.right.result out →
          out.columns = ["k", "a", "a_r"] := by
  have hnames : ((oneKeyPlan.nodeOuts (oneKeyJoin "_r")).map Prod.fst) = ["k", "a", "a_r"] := by
    decide
  have hplain : oneKeyPlan.plainOuts.map Prod.fst = ["k", "a", "a_right"] := by decide
  refine ⟨rfl, by decide, fun J => ⟨_, rfl, hplain, fun out hout => ?_⟩⟩
  obtain ⟨lkey, rkey, how, ms, -, hr, -, -, hcols⟩ := hout
  cases hr
  rw [hcols]
  exact hnames

end PolarsMetal.Lowering
