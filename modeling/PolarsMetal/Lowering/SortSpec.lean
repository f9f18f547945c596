import PolarsMetal.Lowering.Sort

/-! What a sort node asks for, and when the UDF delivers it: the flags it forwards and the index
arithmetic it replaces Polars' slice by. -/

namespace PolarsMetal.Lowering
open Fusion Window

variable {V : Type} [LinearOrder V]

/-! The row order. -/

theorem cellLe_total (k : SortKey) (a b : Option V) : (cellLe k a b || cellLe k b a) = true := by
  obtain ⟨c, d, n⟩ := k
  cases a <;> cases b <;> cases d <;> cases n <;> simp [cellLe, le_total]

theorem cellLe_trans (k : SortKey) (a b c : Option V) (hab : cellLe k a b = true)
    (hbc : cellLe k b c = true) : cellLe k a c = true := by
  obtain ⟨col, d, n⟩ := k
  cases a <;> cases b <;> cases c <;> cases d <;> cases n <;> simp_all [cellLe]
  · exact hab.trans hbc
  · exact hab.trans hbc
  · exact hbc.trans hab
  · exact hbc.trans hab

theorem cellLe_antisymm (k : SortKey) (a b : Option V) (hab : cellLe k a b = true)
    (hba : cellLe k b a = true) : a = b := by
  obtain ⟨col, d, n⟩ := k
  cases a <;> cases b <;> cases d <;> cases n <;> simp_all [cellLe]
  · exact le_antisymm hab hba
  · exact le_antisymm hab hba
  · exact le_antisymm hba hab
  · exact le_antisymm hba hab

theorem rowLe_total (columns : List String) (keys : List SortKey) (a b : List (Option V)) :
    (rowLe columns keys a b || rowLe columns keys b a) = true := by
  induction keys with
  | nil => rfl
  | cons k keys ih =>
    unfold rowLe
    by_cases h : cellOf columns a k.column = cellOf columns b k.column
    · rw [if_pos h, if_pos h.symm]
      exact ih
    · rw [if_neg h, if_neg (Ne.symm h)]
      exact cellLe_total k _ _

theorem rowLe_trans (columns : List String) (keys : List SortKey) (a b c : List (Option V))
    (hab : rowLe columns keys a b = true) (hbc : rowLe columns keys b c = true) :
    rowLe columns keys a c = true := by
  induction keys with
  | nil => rfl
  | cons k keys ih =>
    unfold rowLe at hab hbc ⊢
    by_cases h : cellOf columns a k.column = cellOf columns b k.column
    · rw [if_pos h] at hab
      rw [h]
      by_cases h' : cellOf columns b k.column = cellOf columns c k.column
      · rw [if_pos h'] at hbc ⊢
        exact ih hab hbc
      · rw [if_neg h'] at hbc ⊢
        exact hbc
    · rw [if_neg h] at hab
      by_cases h' : cellOf columns b k.column = cellOf columns c k.column
      · rw [← h', if_neg h]
        exact hab
      · rw [if_neg h'] at hbc
        have hne : cellOf columns a k.column ≠ cellOf columns c k.column := by
          intro hac
          rw [← hac] at hbc
          exact h (cellLe_antisymm k _ _ hab hbc)
        rw [if_neg hne]
        exact cellLe_trans k _ _ _ hab hbc

/-- Rows the keys cannot tell apart. -/
def Tied (columns : List String) (keys : List SortKey) (a b : List (Option V)) : Prop :=
  rowLe columns keys a b = true ∧ rowLe columns keys b a = true

/-! What the node asks for. -/

/-- A sorted rearrangement of a frame's rows. -/
structure IsSort (keys : List SortKey) (df out : Frame V) : Prop where
  columns : out.columns = df.columns
  perm : out.rows.Perm df.rows
  sorted : out.rows.Pairwise (fun a b => rowLe df.columns keys a b = true)

/-- The stable one. -/
def stableSort (keys : List SortKey) (df : Frame V) : Frame V :=
  ⟨df.columns, df.rows.mergeSort (rowLe df.columns keys)⟩

/-- Both sorts do what they promise: a sorted rearrangement, and an ascending one. -/
structure Sorts.Lawful (S : Sorts V) : Prop where
  frame : ∀ keys df, IsSort keys df (S.frame keys df)
  mlx_perm : ∀ xs, (S.mlx xs).Perm xs
  mlx_sorted : ∀ xs, (S.mlx xs).Pairwise (· ≤ ·)

namespace SortNode

def keys (node : SortNode) (byColumns : List String) : List SortKey :=
  sortKeys byColumns node.descending node.nullsLast

/-- Polars' result: some sorted frame, the stable one if the order is to be maintained, then the
slice. -/
def Returns (node : SortNode) (byColumns : List String) (df out : Frame V) : Prop :=
  ∃ s, IsSort (node.keys byColumns) df s ∧
    (node.maintainOrder = true → s = stableSort (node.keys byColumns) df) ∧
    out = match node.slice with
      | some (off, length) => s.slice off length
      | none => s

end SortNode

/-- The frame has the node's input columns, one cell each per row. -/
structure Frame.Fits (df : Frame V) (schema : List (String × PolarsDtype)) : Prop where
  columns : df.columns = schema.map Prod.fst
  width : ∀ row ∈ df.rows, row.length = df.columns.length

/-- The frame's dtypes are those of the schema. -/
def Typed (dtypeOf : String → PolarsDtype) (schema : List (String × PolarsDtype)) : Prop :=
  ∀ c dtype, (c, dtype) ∈ schema → dtypeOf c = dtype

theorem isSort_stableSort (keys : List SortKey) (df : Frame V) :
    IsSort keys df (stableSort keys df) :=
  ⟨rfl, List.mergeSort_perm _ _,
    List.pairwise_mergeSort (rowLe_trans df.columns keys) (rowLe_total df.columns keys) _⟩

theorem keys_orFalse (byColumns : List String) (descending nullsLast : List Bool) :
    sortKeys byColumns (orFalse descending) (orFalse nullsLast) =
      sortKeys byColumns descending nullsLast := by
  have hflag : ∀ (flags : List Bool) i, (orFalse flags).getD i false = flags.getD i false := by
    intro flags i
    unfold orFalse
    split_ifs with h
    · rfl
    · have hall : ∀ b ∈ flags, b = false := by simpa using h
      rw [List.getD_eq_getElem?_getD, List.getD_eq_getElem?_getD, List.getElem?_nil]
      rcases hi : flags[i]? with _ | b
      · rfl
      · exact (hall b (List.mem_of_getElem? hi)).symm
  simp only [sortKeys, hflag]

/-! Ties. -/

/-- Tied rows are equal rows. -/
def TiesEqual (keys : List SortKey) (df : Frame V) : Prop :=
  ∀ a ∈ df.rows, ∀ b ∈ df.rows, Tied df.columns keys a b → a = b

/-- Without distinguishable ties there is one sorted frame. -/
theorem IsSort.unique {keys : List SortKey} {df s s' : Frame V} (hties : TiesEqual keys df)
    (h : IsSort keys df s) (h' : IsSort keys df s') : s = s' := by
  have hrows : s.rows = s'.rows :=
    List.Perm.eq_of_pairwise (fun a b ha hb hab hba => hties a (h.perm.mem_iff.1 ha) b
      (h'.perm.mem_iff.1 hb) ⟨hab, hba⟩) h.sorted h'.sorted (h.perm.trans h'.perm.symm)
  obtain ⟨columns, rows⟩ := s
  obtain ⟨columns', rows'⟩ := s'
  have hcols : columns = columns' := h.columns.trans h'.columns.symm
  rw [show rows = rows' from hrows, hcols]

/-- A stable sort keeps the order of the rows tied with a given one. -/
theorem filter_tied_stableSort (keys : List SortKey) (columns : List String)
    (rows : List (List (Option V))) (x : List (Option V)) :
    (rows.mergeSort (rowLe columns keys)).filter
        (fun r => rowLe columns keys r x && rowLe columns keys x r) =
      rows.filter (fun r => rowLe columns keys r x && rowLe columns keys x r) := by
  set p : List (Option V) → Bool := fun r => rowLe columns keys r x && rowLe columns keys x r with hp
  have hsorted : (rows.filter p).Pairwise (fun a b => rowLe columns keys a b = true) := by
    refine List.pairwise_of_forall_mem_list (fun a ha b hb => ?_)
    have ha' := (List.mem_filter.1 ha).2
    have hb' := (List.mem_filter.1 hb).2
    simp only [hp, Bool.and_eq_true] at ha' hb'
    exact rowLe_trans columns keys a x b ha'.1 hb'.2
  have hsub := List.sublist_mergeSort (rowLe_trans columns keys) (rowLe_total columns keys) hsorted
    List.filter_sublist
  have hsub' : (rows.filter p).Sublist ((rows.mergeSort (rowLe columns keys)).filter p) := by
    have := hsub.filter p
    rwa [List.filter_filter, show (fun a => p a && p a) = p by funext a; simp] at this
  have hlen : ((rows.mergeSort (rowLe columns keys)).filter p).length = (rows.filter p).length :=
    ((List.mergeSort_perm _ _).filter p).length_eq
  exact (hsub'.eq_of_length hlen.symm).symm

/-! The path through Polars' own sort. -/

/-- A pair of sorts that is stable, except that it puts `x` first among the rows of one frame. -/
def sortsFavouring (df : Frame V) (x : List (Option V)) : Sorts V where
  frame keys f :=
    if f = df then ⟨df.columns, (x :: df.rows.erase x).mergeSort (rowLe df.columns keys)⟩
    else stableSort keys f
  mlx xs := xs.mergeSort (fun a b => a ≤ b)

theorem sortsFavouring_lawful {df : Frame V} {x : List (Option V)} (hx : x ∈ df.rows) :
    (sortsFavouring df x).Lawful := by
  refine ⟨fun keys f => ?_, fun xs => List.mergeSort_perm _ _, fun xs => ?_⟩
  · unfold sortsFavouring
    simp only
    split_ifs with h
    · rw [h]
      exact ⟨rfl, (List.mergeSort_perm _ _).trans (List.perm_cons_erase hx).symm,
        List.pairwise_mergeSort (rowLe_trans df.columns keys) (rowLe_total df.columns keys) _⟩
    · exact isSort_stableSort keys f
  · have h := @List.pairwise_mergeSort V (fun a b => decide (a ≤ b))
      (fun a b c hab hbc => by simpa using le_trans (by simpa using hab) (by simpa using hbc))
      (fun a b => by simpa using le_total a b) xs
    exact h.imp (fun hab => by simpa using hab)

/-- If every pair of sorts agrees with the stable one, tied rows are equal. -/
theorem tiesEqual_of_forall {keys : List SortKey} {df : Frame V}
    (h : ∀ S : Sorts V, S.Lawful → S.frame keys df = stableSort keys df) : TiesEqual keys df := by
  intro a ha b hb htied
  have hfirst : ∀ x ∈ df.rows,
      (x :: df.rows.erase x).mergeSort (rowLe df.columns keys) =
        df.rows.mergeSort (rowLe df.columns keys) := by
    intro x hx
    have := congrArg Frame.rows (h (sortsFavouring df x) (sortsFavouring_lawful hx))
    simpa [sortsFavouring, stableSort] using this
  have hself : rowLe df.columns keys a a = true := by simpa using rowLe_total df.columns keys a a
  -- among the rows tied with `a`, one sort puts `a` first and the other `b`
  have hheads := congrArg (fun l => (l.filter (fun r =>
    rowLe df.columns keys r a && rowLe df.columns keys a r)).head?)
      ((hfirst a ha).trans (hfirst b hb).symm)
  simp only [filter_tied_stableSort] at hheads
  rw [List.filter_cons_of_pos (by simp [hself]), List.filter_cons_of_pos (by simp [htied.1, htied.2])]
    at hheads
  exact Option.some.inj hheads

theorem stableSort_nil (df : Frame V) : stableSort [] df = df := by
  obtain ⟨columns, rows⟩ := df
  have hrows : rows.mergeSort (rowLe columns []) = rows :=
    List.mergeSort_of_pairwise (List.pairwise_of_forall (fun _ _ => rfl))
  unfold stableSort
  rw [hrows]

theorem udfSort_returns_iff {node : SortNode} {byColumns : List String} (df : Frame V)
    (hslice : node.slice = none) :
    (∀ S : Sorts V, S.Lawful → node.Returns byColumns df
        (udfSort S byColumns node.descending node.nullsLast none df)) ↔
      byColumns = [] ∨ node.maintainOrder = false ∨ TiesEqual (node.keys byColumns) df := by
  have hudf : ∀ S : Sorts V, byColumns ≠ [] →
      udfSort S byColumns node.descending node.nullsLast none df =
        S.frame (node.keys byColumns) df := by
    intro S hne
    unfold udfSort
    rw [if_neg hne, keys_orFalse]
    rfl
  unfold SortNode.Returns
  rw [hslice]
  by_cases hby : byColumns = []
  · subst hby
    refine ⟨fun _ => Or.inl rfl, fun _ S _ => ⟨df, ?_, fun _ => (stableSort_nil df).symm, rfl⟩⟩
    exact ⟨rfl, .refl _, List.pairwise_of_forall (fun _ _ => rfl)⟩
  · refine ⟨fun h => Or.inr ?_, fun h S hS => ?_⟩
    · by_cases hm : node.maintainOrder = true
      · refine Or.inr (tiesEqual_of_forall (fun S hS => ?_))
        obtain ⟨s, -, hstable, hout⟩ := h S hS
        rw [← hudf S hby, hout, hstable hm]
      · exact Or.inl (by simpa using hm)
    · refine ⟨_, hS.frame _ df, fun hm => ?_, hudf S hby⟩
      rcases h with hnil | hoff | hties
      · exact absurd hnil hby
      · rw [hm] at hoff
        cases hoff
      · exact (hS.frame _ df).unique hties (isSort_stableSort _ df)

/-! The one-column path. -/

/-- The frame of one column. -/
def oneColumn (c : String) (cells : List (Option V)) : Frame V := ⟨[c], cells.map (fun x => [x])⟩

omit [LinearOrder V] in
theorem getColumn_oneColumn (c : String) (cells : List (Option V)) :
    (oneColumn c cells).getColumn c = cells := by
  have hcell : ((fun row => cellOf [c] row c) ∘ fun x : Option V => [x]) = id := by
    funext x
    simp [cellOf]
  unfold oneColumn Frame.getColumn
  rw [List.map_map, hcell, List.map_id]

omit [LinearOrder V] in
theorem Frame.Fits.oneColumn {df : Frame V} {c : String} {dtype : PolarsDtype}
    (h : df.Fits [(c, dtype)]) : df = Lowering.oneColumn c (df.getColumn c) := by
  obtain ⟨columns, rows⟩ := df
  obtain ⟨hcols, hwidth⟩ := h
  simp only [List.map_cons, List.map_nil] at hcols
  subst hcols
  have hrow : ∀ row ∈ rows, [cellOf [c] row c] = row := by
    intro row hr
    obtain ⟨x, rfl⟩ := List.length_eq_one_iff.1 (hwidth row hr)
    simp [cellOf]
  unfold Lowering.oneColumn Frame.getColumn
  simp only [List.map_map]
  rw [show ((fun x => [x]) ∘ fun row => cellOf [c] row c) = fun row => [cellOf [c] row c] from rfl,
    List.map_congr_left hrow, List.map_id']

theorem tied_single {c : String} {k : SortKey} (hk : k.column = c) {x y : Option V} :
    rowLe [c] [k] [x] [y] = true ↔ cellLe k x y = true := by
  have hself : ∀ x : Option V, cellLe k x x = true := by
    intro x
    simpa using cellLe_total k x x
  subst hk
  simp only [rowLe, cellOf, List.idxOf_cons_self, List.getD_cons_zero]
  by_cases h : x = y
  · rw [if_pos h, h, hself y]
  · rw [if_neg h]

theorem tiesEqual_oneColumn {c : String} {k : SortKey} (hk : k.column = c)
    (cells : List (Option V)) : TiesEqual [k] (oneColumn c cells) := by
  intro a ha b hb htied
  obtain ⟨x, -, rfl⟩ := List.mem_map.1 ha
  obtain ⟨y, -, rfl⟩ := List.mem_map.1 hb
  obtain ⟨hab, hba⟩ := htied
  rw [cellLe_antisymm k x y ((tied_single hk).1 hab) ((tied_single hk).1 hba)]

/-- A null-free column in the key's direction. -/
theorem isSort_ascending {c : String} {k : SortKey} (hk : k.column = c) {values asc : List V}
    (hperm : asc.Perm values) (hasc : asc.Pairwise (· ≤ ·)) :
    IsSort [k] (oneColumn c (values.map some))
      (oneColumn c ((if k.descending then asc.reverse else asc).map some)) := by
  refine ⟨rfl, ?_, ?_⟩
  · refine (List.Perm.map _ ?_).map _
    split_ifs
    · exact (List.reverse_perm asc).trans hperm
    · exact hperm
  · unfold oneColumn
    rw [List.pairwise_map, List.pairwise_map]
    have hle : ∀ x y : V, (if k.descending then y ≤ x else x ≤ y) →
        rowLe [c] [k] [some x] [some y] = true := by
      intro x y hxy
      rw [tied_single hk]
      unfold cellLe
      split_ifs at hxy ⊢ <;> simpa using hxy
    split_ifs with hd
    · rw [List.pairwise_reverse]
      exact hasc.imp (fun hab => hle _ _ (by rw [if_pos hd]; exact hab))
    · exact hasc.imp (fun hab => hle _ _ (by rw [if_neg hd]; exact hab))

/-! Index arithmetic. -/

/-- The slices of `m` sorted values that the host's index arithmetic gets right. Descending with a
negative offset it reads the wrong end of the array, which shows unless all values are equal. -/
def SliceOk (descending : Bool) (sortSlice : Option (ℤ × ℕ)) (values : List V) : Prop :=
  match sortSlice with
  | none => True
  | some (off, length) =>
    if descending then
      (0 ≤ off ∧ (off ≤ values.length ∨ 2 * values.length ≤ off)) ∨
      (off < 0 ∧ (length = 0 ∨ (length : ℤ) ≤ -off - values.length ∨
        ((values.length : ℤ) ≤ -off ∧ values.length - off ≤ (length : ℤ)) ∨
        ((length : ℤ) = -2 * off ∧ ∀ x ∈ values, ∀ y ∈ values, x = y)))
    else 0 ≤ off ∨ off + length < 0 ∨ (values.length : ℤ) ≤ off + length

omit [LinearOrder V] in
theorem window_eq_of_width {lo hi lo' hi' : ℕ} {xs : List V} (h : hi ≤ xs.length)
    (h' : hi' ≤ xs.length) (heq : window lo hi xs = window lo' hi' xs) : hi - lo = hi' - lo' := by
  rw [← length_window h, heq, length_window h']

omit [LinearOrder V] in
theorem window_congr {lo hi lo' hi' : ℕ} (h : (lo = lo' ∧ hi = hi') ∨ (hi ≤ lo ∧ hi' ≤ lo'))
    (xs : List V) : window lo hi xs = window lo' hi' xs := by
  rcases h with ⟨rfl, rfl⟩ | ⟨hle, hle'⟩
  · rfl
  · rw [window_of_le hle, window_of_le hle']

omit [LinearOrder V] in
theorem pySlice_eq_slice_iff (off : ℤ) (length : ℕ) (asc : List V) :
    pySlice off (off + length) asc = Window.slice off length asc ↔
      0 ≤ off ∨ off + length < 0 ∨ (asc.length : ℤ) ≤ off + length := by
  unfold pySlice Window.slice
  have hb := sliceBounds_le off length asc.length
  refine ⟨fun h => ?_, fun h => window_congr ?_ asc⟩
  · have hw := window_eq_of_width (pyIndex_le _ _) hb.2 h
    unfold pyIndex sliceBounds at hw
    simp only at hw
    split_ifs at hw <;> omega
  · unfold pyIndex sliceBounds
    simp only
    split_ifs <;> omega

/-- What the descending slice reads of the ascending array. -/
def readBounds (off : ℤ) (length m : ℕ) : ℕ × ℕ :=
  (pyIndex (max 0 ((m : ℤ) - off - length)) m, pyIndex ((m : ℤ) - off) m)

/-- What it should read. -/
def askedBounds (off : ℤ) (length m : ℕ) : ℕ × ℕ :=
  (m - (sliceBounds off length m).2, m - (sliceBounds off length m).1)

theorem readBounds_ofNat (o length m : ℕ) :
    readBounds o length m = (m - o - length, if o ≤ m then m - o else m - (o - m)) := by
  have hlo : (max 0 ((m : ℤ) - o - length)) = ((m - o - length : ℕ) : ℤ) := by omega
  unfold readBounds
  rw [hlo, pyIndex_ofNat]
  split_ifs with h
  · rw [show (m : ℤ) - o = ((m - o : ℕ) : ℤ) by omega, pyIndex_ofNat]
    refine Prod.ext ?_ ?_ <;> (simp only; omega)
  · rw [show (m : ℤ) - o = -((o - m : ℕ) : ℤ) by omega, pyIndex_neg (by omega)]
    refine Prod.ext ?_ rfl
    simp only
    omega

theorem readBounds_neg (k length m : ℕ) :
    readBounds (-k) length m = (min (m + k - length) m, m) := by
  have hlo : (max 0 ((m : ℤ) - -k - length)) = ((m + k - length : ℕ) : ℤ) := by omega
  unfold readBounds
  rw [hlo, pyIndex_ofNat, show (m : ℤ) - -k = ((m + k : ℕ) : ℤ) by omega, pyIndex_ofNat]
  refine Prod.ext rfl ?_
  simp only
  omega

theorem askedBounds_ofNat (o length m : ℕ) :
    askedBounds o length m = (m - (o + length), m - o) := by
  unfold askedBounds
  rw [sliceBounds_ofNat]
  refine Prod.ext ?_ ?_ <;> simp only <;> omega

theorem askedBounds_neg {k : ℕ} (hk : 0 < k) (length m : ℕ) :
    askedBounds (-k) length m = (m - (m + length - k), min k m) := by
  unfold askedBounds
  rw [sliceBounds_neg hk]
  refine Prod.ext ?_ ?_ <;> simp only <;> omega

theorem bounds_le (off : ℤ) (length m : ℕ) :
    (readBounds off length m).2 ≤ m ∧ (askedBounds off length m).2 ≤ m :=
  ⟨pyIndex_le _ _, Nat.sub_le _ _⟩

/-- The descending case, on the ascending array. -/
theorem window_read_eq_iff (off : ℤ) (length : ℕ) {asc : List V} (hasc : asc.Pairwise (· ≤ ·)) :
    window (readBounds off length asc.length).1 (readBounds off length asc.length).2 asc =
        window (askedBounds off length asc.length).1 (askedBounds off length asc.length).2 asc ↔
      SliceOk true (some (off, length)) asc := by
  obtain ⟨hread, hasked⟩ := bounds_le off length asc.length
  unfold SliceOk
  simp only [if_true]
  rcases Int.lt_or_le off 0 with hneg | hnonneg
  · obtain ⟨k, rfl⟩ : ∃ k : ℕ, off = -k := ⟨(-off).toNat, by omega⟩
    have hk : 0 < k := by omega
    rw [readBounds_neg] at hread ⊢
    rw [askedBounds_neg hk] at hasked ⊢
    simp only at hread hasked ⊢
    by_cases hends : length = 2 * k ∧ k < asc.length
    · -- the windows are the two ends of the array
      rw [show min (asc.length + k - length) asc.length = asc.length - k by omega,
        show asc.length - (asc.length + length - k) = 0 by omega,
        show min k asc.length = k by omega, eq_comm, window_ends_eq_iff hasc hk hends.2]
      refine ⟨fun h => Or.inr ⟨hneg, Or.inr (Or.inr (Or.inr ⟨by omega, h⟩))⟩, fun h => ?_⟩
      rcases h with h | ⟨-, h | h | h | ⟨-, h⟩⟩
      · omega
      · omega
      · omega
      · omega
      · exact h
    · refine ⟨fun h => ?_, fun h => window_congr ?_ asc⟩
      · have hw := window_eq_of_width hread hasked h
        have harith : length = 0 ∨ (length : ℤ) ≤ -(-k : ℤ) - asc.length ∨
            ((asc.length : ℤ) ≤ -(-k : ℤ) ∧ asc.length - (-k : ℤ) ≤ (length : ℤ)) := by omega
        refine Or.inr ⟨hneg, ?_⟩
        rcases harith with h | h | h
        · exact Or.inl h
        · exact Or.inr (Or.inl h)
        · exact Or.inr (Or.inr (Or.inl h))
      · rcases h with h | ⟨-, h | h | h | ⟨h, -⟩⟩ <;> omega
  · obtain ⟨o, rfl⟩ : ∃ o : ℕ, off = o := ⟨off.toNat, by omega⟩
    rw [readBounds_ofNat] at hread ⊢
    rw [askedBounds_ofNat] at hasked ⊢
    simp only at hread hasked ⊢
    refine ⟨fun h => Or.inl ⟨hnonneg, ?_⟩, fun h => window_congr ?_ asc⟩
    · have hw := window_eq_of_width hread hasked h
      split_ifs at hw <;> omega
    · have hsmall : (o : ℤ) ≤ asc.length ∨ 2 * (asc.length : ℤ) ≤ o := by
        rcases h with ⟨-, h⟩ | ⟨h, -⟩
        · exact h
        · omega
      split_ifs <;> omega

theorem pySlice_reverse_eq_iff (off : ℤ) (length : ℕ) {asc : List V} (hasc : asc.Pairwise (· ≤ ·)) :
    (pySlice (max 0 ((asc.length : ℤ) - off - length)) ((asc.length : ℤ) - off) asc).reverse =
        Window.slice off length asc.reverse ↔ SliceOk true (some (off, length)) asc := by
  have hst : (sliceBounds off length asc.length).1 ≤ (sliceBounds off length asc.length).2 := by
    unfold sliceBounds
    simp only
    omega
  unfold Window.slice
  rw [List.length_reverse, window_reverse hst (sliceBounds_le _ _ _).2, List.reverse_inj]
  exact window_read_eq_iff off length hasc

theorem takeSorted_eq_iff (descending : Bool) (sortSlice : Option (ℤ × ℕ)) {asc : List V}
    (hasc : asc.Pairwise (· ≤ ·)) :
    takeSorted descending sortSlice asc =
        (match sortSlice with
          | some (off, length) =>
            Window.slice off length (if descending then asc.reverse else asc)
          | none => if descending then asc.reverse else asc) ↔
      SliceOk descending sortSlice asc := by
  have hall : ∀ n : ℕ, n = asc.length → pySlice 0 n asc = asc := by
    intro n hn
    unfold pySlice
    rw [show (0 : ℤ) = ((0 : ℕ) : ℤ) by rfl, pyIndex_ofNat, pyIndex_ofNat, hn, Nat.min_self,
      Nat.zero_min, window_all]
  unfold takeSorted
  rcases sortSlice with _ | ⟨off, length⟩
  · cases descending with
    | true =>
      simp only [if_true, SliceOk, iff_true]
      rw [show max 0 ((asc.length : ℤ) - 0 - asc.length) = 0 by omega,
        show (asc.length : ℤ) - 0 = asc.length by omega, hall _ rfl]
    | false =>
      simp only [Bool.false_eq_true, if_false, SliceOk, iff_true]
      rw [show (0 : ℤ) + asc.length = asc.length by omega, hall _ rfl]
  · cases descending with
    | true => exact pySlice_reverse_eq_iff off length hasc
    | false => exact pySlice_eq_slice_iff off length asc

omit [LinearOrder V] in
theorem sliceOk_perm {descending : Bool} {sortSlice : Option (ℤ × ℕ)} {xs ys : List V}
    (h : xs.Perm ys) : SliceOk descending sortSlice xs ↔ SliceOk descending sortSlice ys := by
  unfold SliceOk
  simp only [h.length_eq, h.mem_iff]

/-! The whole lowering. -/

theorem walkSort_eq_ok {P : Type} {node : SortNode} {inner : P} {bypassed : Option P}
    {plan : SortPlan P} (h : walkSort node (some inner) bypassed = .ok plan) :
    node.names = some plan.byColumns ∧ plan.descending = node.descending ∧
      plan.nullsLast = node.nullsLast ∧ plan.fusedSort = fusedSortFor node plan.byColumns ∧
      (plan.fusedSort = none → node.slice = none) := by
  unfold walkSort at h
  rcases hnames : node.names with _ | byColumns
  · rw [hnames] at h
    cases h
  · rw [hnames] at h
    simp only at h
    split_ifs at h with hslice
    cases h
    refine ⟨rfl, rfl, rfl, rfl, fun hnone => ?_⟩
    by_contra hs
    exact hslice ⟨hnone, hs⟩

theorem fusedSortFor_eq_some {node : SortNode} {byColumns : List String} {f : FusedSort}
    (h : fusedSortFor node byColumns = some f) :
    byColumns = [f.column] ∧ node.inSchema = [(f.column, .float32)] ∧
      f = ⟨f.column, node.descending.headD false, node.nullsLast.headD false, node.slice, false⟩ := by
  unfold fusedSortFor at h
  split at h
  · split_ifs at h with hc
    cases h
    obtain ⟨rfl, rfl⟩ := hc
    exact ⟨rfl, by assumption, rfl⟩
  · cases h

/-- When the lowering of a sort is right for a frame, whatever the sorts do with ties. -/
def SortOk {P : Type} (node : SortNode) (plan : SortPlan P) (df : Frame V) : Prop :=
  match plan.fusedSort with
  | none => plan.byColumns = [] ∨ node.maintainOrder = false ∨
      TiesEqual (node.keys plan.byColumns) df
  | some f => df.getColumn f.column = [] ∨ none ∈ df.getColumn f.column ∨
      SliceOk f.descending node.slice ((df.getColumn f.column).filterMap id)

theorem keys_single (c : String) (descending nullsLast : List Bool) :
    sortKeys [c] descending nullsLast = [⟨c, descending.headD false, nullsLast.headD false⟩] := by
  have hhead : ∀ flags : List Bool, flags.getD 0 false = flags.headD false := by
    intro flags
    cases flags <;> rfl
  simp only [sortKeys, List.mapIdx_cons, List.mapIdx_nil, hhead]

theorem exists_lawful : ∃ S : Sorts V, S.Lawful := by
  refine ⟨sortsFavouring ⟨[], [[]]⟩ [], sortsFavouring_lawful (by simp)⟩

omit [LinearOrder V] in
theorem slice_oneColumn (c : String) (cells : List (Option V)) (off : ℤ) (length : ℕ) :
    (oneColumn c cells).slice off length = oneColumn c (Window.slice off length cells) := by
  unfold oneColumn Frame.slice Window.slice window
  simp only [List.length_map, List.map_take, List.map_drop]

/-- The fused path on a frame of one `Float32` column without nulls. -/
theorem udfSortFused_returns_iff {node : SortNode} {c : String} {values : List V} {S : Sorts V}
    {dtypeOf : String → PolarsDtype} (hS : S.Lawful) (hdtype : dtypeOf c = .float32)
    (hne : values ≠ []) :
    node.Returns [c] (oneColumn c (values.map some))
        (udfSortFused S dtypeOf [c]
          ⟨c, node.descending.headD false, node.nullsLast.headD false, node.slice, false⟩ none
          (oneColumn c (values.map some))) ↔
      SliceOk (node.descending.headD false) node.slice values := by
  set d := node.descending.headD false with hd
  have hperm := hS.mlx_perm values
  have hasc := hS.mlx_sorted values
  set asc := S.mlx values with hascdef
  have hudf : udfSortFused S dtypeOf [c] ⟨c, d, node.nullsLast.headD false, node.slice, false⟩
      none (oneColumn c (values.map some)) = oneColumn c ((takeSorted d node.slice asc).map some) := by
    have htest : ((values.map some).isEmpty || (values.map some).any Option.isNone ||
        !decide (dtypeOf c = .float32)) = false := by
      simp [hne, hdtype]
    unfold udfSortFused
    simp only [Bool.false_eq_true, if_false, getColumn_oneColumn, htest]
    rw [List.filterMap_map, show (id ∘ some : V → Option V) = some from rfl, List.filterMap_some]
    unfold oneColumn
    rw [List.map_map]
    rfl
  have hkeys : node.keys [c] = [⟨c, d, node.nullsLast.headD false⟩] := keys_single c _ _
  set dir := if d then asc.reverse else asc with hdir
  have hsort : IsSort (node.keys [c]) (oneColumn c (values.map some)) (oneColumn c (dir.map some)) := by
    rw [hkeys]
    exact isSort_ascending (k := ⟨c, d, node.nullsLast.headD false⟩) rfl hperm hasc
  have hties : TiesEqual (node.keys [c]) (oneColumn c (values.map some)) := by
    rw [hkeys]
    exact tiesEqual_oneColumn rfl _
  have hinj : ∀ xs ys : List V, oneColumn c (xs.map some) = oneColumn c (ys.map some) ↔ xs = ys := by
    intro xs ys
    refine ⟨fun h => ?_, fun h => h ▸ rfl⟩
    have := congrArg (fun df : Frame V => (df.getColumn c).filterMap id) h
    simpa only [getColumn_oneColumn, List.filterMap_map, Function.id_comp, List.filterMap_some]
      using this
  rw [hudf, ← sliceOk_perm hperm, ← takeSorted_eq_iff d node.slice hasc]
  unfold SortNode.Returns
  refine ⟨fun ⟨s, hs, _, hout⟩ => ?_, fun h => ⟨_, hsort, fun _ => ?_, ?_⟩⟩
  · rw [hs.unique hties hsort] at hout
    rcases hslice : node.slice with _ | ⟨off, length⟩
    · rw [hslice] at hout
      exact (hinj _ _).1 hout
    · rw [hslice] at hout
      simp only at hout
      rw [slice_oneColumn] at hout
      refine (hinj _ _).1 (hout.trans ?_)
      unfold Window.slice window
      simp only [List.length_map, List.map_take, List.map_drop, hdir]
  · exact hsort.unique hties (isSort_stableSort _ _)
  · rw [h]
    rcases hslice : node.slice with _ | ⟨off, length⟩
    · rfl
    · simp only
      rw [slice_oneColumn]
      unfold Window.slice window
      simp only [List.length_map, List.map_take, List.map_drop, hdir]

omit [LinearOrder V] in
theorem cells_eq_map_some {cells : List (Option V)} (h : none ∉ cells) :
    cells = (cells.filterMap id).map some := by
  induction cells with
  | nil => rfl
  | cons x cells ih =>
    rcases x with _ | v
    · exact absurd List.mem_cons_self h
    · rw [List.filterMap_cons, id, List.map_cons, ← ih (fun hmem => h (List.mem_cons_of_mem _ hmem))]

/-- The lowering of a sort returns what Polars' sort and slice return exactly when: on the path
through Polars' sort, the order need not be maintained or no two different rows tie; on the fused
path, the column is empty, has a null, or its slice is one the index arithmetic gets right. -/
theorem sort_lowering_returns_iff {P : Type} {node : SortNode} {inner : P} {bypassed : Option P}
    {plan : SortPlan P} {df : Frame V} {dtypeOf : String → PolarsDtype}
    (hplan : walkSort node (some inner) bypassed = .ok plan) (hdf : df.Fits node.inSchema)
    (htyped : Typed dtypeOf node.inSchema) :
    (∀ S : Sorts V, S.Lawful → node.Returns plan.byColumns df (buildSort S dtypeOf plan none df)) ↔
      SortOk node plan df := by
  obtain ⟨-, hdesc, hnl, hfused, hslice⟩ := walkSort_eq_ok hplan
  unfold buildSort SortOk
  rcases hf : plan.fusedSort with _ | f
  · simp only
    rw [hdesc, hnl]
    exact udfSort_returns_iff df (hslice hf)
  · simp only
    obtain ⟨hby, hschema, hfeq⟩ := fusedSortFor_eq_some (hfused.symm.trans hf)
    rw [hschema] at hdf htyped
    set c := f.column with hc
    have hdtype : dtypeOf c = .float32 := htyped c .float32 (List.mem_singleton.2 rfl)
    set cells := df.getColumn c with hcells
    have hone : df = oneColumn c cells := hdf.oneColumn
    have hflag : f.descending = node.descending.headD false := by rw [hfeq]
    rw [hby, hflag, hfeq, hone]
    by_cases hcpu : cells = [] ∨ none ∈ cells
    · refine ⟨fun _ => hcpu.imp_right Or.inl, fun _ S hS => ?_⟩
      have hkeys : node.keys [c] = [⟨c, node.descending.headD false, node.nullsLast.headD false⟩] :=
        keys_single c _ _
      have hties : TiesEqual (node.keys [c]) (oneColumn c cells) := by
        rw [hkeys]
        exact tiesEqual_oneColumn rfl _
      have htest : (cells.isEmpty || cells.any Option.isNone ||
          !decide (dtypeOf c = .float32)) = true := by
        rcases hcpu with h | h
        · simp [h]
        · have : ∃ x ∈ cells, x.isNone = true := ⟨none, h, rfl⟩
          simp only [Bool.or_eq_true, List.any_eq_true]
          exact Or.inl (Or.inr this)
      refine ⟨S.frame (node.keys [c]) (oneColumn c cells), hS.frame _ _, fun _ => ?_, ?_⟩
      · exact (hS.frame _ _).unique hties (isSort_stableSort _ _)
      · unfold udfSortFused
        simp only [Bool.false_eq_true, if_false, getColumn_oneColumn, htest, if_true]
        rw [keys_single, hkeys]
        rfl
    · obtain ⟨hne, hnull⟩ := not_or.1 hcpu
      set values := cells.filterMap id with hvalues
      have hcells' : cells = values.map some := cells_eq_map_some hnull
      have hvals : values ≠ [] := by
        intro h
        rw [h] at hcells'
        exact hne hcells'
      rw [hcells']
      obtain ⟨S₀, hS₀⟩ := exists_lawful (V := V)
      refine ⟨fun h => Or.inr (Or.inr ((udfSortFused_returns_iff hS₀ hdtype hvals).1 (h S₀ hS₀))),
        fun h S hS => (udfSortFused_returns_iff hS hdtype hvals).2 ?_⟩
      rcases h with h | h | h
      · exact absurd (hcells'.trans h) hne
      · rw [← hcells'] at h
        exact absurd h hnull
      · exact h

/-- A descending sort of one column, and a slice of it. -/
def descendingNode (offset : ℤ) (length : ℕ) : SortNode where
  byColumns := [some "x"]
  slice := some (offset, length)
  maintainOrder := false
  nullsLast := [false]
  descending := [true]
  inSchema := [("x", .float32)]

def descendingPlan (offset : ℤ) (length : ℕ) : SortPlan Unit :=
  ⟨(), ["x"], [true], [false], some ⟨"x", true, false, some (offset, length), false⟩⟩

def threeValues : Frame ℕ := oneColumn "x" [some 1, some 2, some 3]

theorem threeValues_fits (offset : ℤ) (length : ℕ) :
    threeValues.Fits (descendingNode offset length).inSchema := ⟨rfl, by decide⟩

theorem typed_float32 (offset : ℤ) (length : ℕ) :
    Typed (fun _ => .float32) (descendingNode offset length).inSchema := by
  intro c dtype h
  cases List.mem_singleton.1 h
  rfl

/-- The two largest values. -/
theorem sort_lowering_returns_iff_sample :
    ∃ S : Sorts ℕ, S.Lawful ∧ (descendingNode 0 2).Returns ["x"] threeValues
      (buildSort S (fun _ => .float32) (descendingPlan 0 2) none threeValues) := by
  obtain ⟨S, hS⟩ := exists_lawful (V := ℕ)
  have hall := (@sort_lowering_returns_iff ℕ _ Unit (descendingNode 0 2) () none
    (descendingPlan 0 2) threeValues _ rfl (threeValues_fits 0 2) (typed_float32 0 2)).2
      (Or.inr (Or.inr (Or.inl ⟨by decide, Or.inl (by decide)⟩)))
  exact ⟨S, hS, hall S hS⟩

/-- From position 4 of three values there is nothing to return; the host's arithmetic wraps around
and returns two values. -/
theorem slice_past_the_end_wraps :
    walkSort (descendingNode 4 2) (some ()) none = .ok (descendingPlan 4 2) ∧
      threeValues.Fits (descendingNode 4 2).inSchema ∧
      ¬ ∀ S : Sorts ℕ, S.Lawful → (descendingNode 4 2).Returns ["x"] threeValues
        (buildSort S (fun _ => .float32) (descendingPlan 4 2) none threeValues) := by
  refine ⟨rfl, threeValues_fits 4 2, fun h => ?_⟩
  obtain ⟨S, hS⟩ := exists_lawful (V := ℕ)
  have hok : SliceOk true (some (4, 2)) [1, 2, 3] :=
    (@udfSortFused_returns_iff ℕ _ (descendingNode 4 2) "x" [1, 2, 3] S (fun _ => .float32) hS rfl
      (by simp)).1 (h S hS)
  rcases hok with ⟨-, h | h⟩ | ⟨h, -⟩
  · exact absurd h (by decide)
  · exact absurd h (by decide)
  · exact absurd h (by decide)

end PolarsMetal.Lowering
