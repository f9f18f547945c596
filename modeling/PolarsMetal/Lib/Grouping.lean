import Mathlib.Tactic

/-! Grouping a list by key. A grouping gives every position an id, equal exactly
on equal keys, with ids `0 .. n` all used and the first position of each id
recorded. Any duplicate-free listing of the keys yields one, and two groupings
of the same list differ only by a renaming of ids. -/

namespace Grouping

variable {K : Type*} [DecidableEq K]

structure IsGrouping (keys : List K) (ids firsts : List ℕ) (n : ℕ) : Prop where
  length_ids : ids.length = keys.length
  length_firsts : firsts.length = n
  same_iff : ∀ i j (hi : i < keys.length) (hj : j < keys.length),
    ids[i]? = ids[j]? ↔ keys[i] = keys[j]
  mem_ids : ∀ g, g ∈ ids ↔ g < n
  card : n = keys.dedup.length
  least : ∀ g < n, ∃ r, firsts[g]? = some r ∧ IsLeast {i : ℕ | ids[i]? = some g} r

/-- A listing of the distinct keys, in any order. -/
structure Enumerates (names keys : List K) : Prop where
  nodup : names.Nodup
  mem_iff : ∀ k, k ∈ names ↔ k ∈ keys

def idsBy (names keys : List K) : List ℕ := keys.map (fun k => names.idxOf k)

def firstsBy (names keys : List K) : List ℕ := names.map (fun k => keys.idxOf k)

theorem isLeast_idxOf {keys : List K} {k : K} (hk : k ∈ keys) :
    IsLeast {i : ℕ | keys[i]? = some k} (keys.idxOf k) := by
  refine ⟨?_, ?_⟩
  · have h := List.idxOf_lt_length_of_mem hk
    simp [List.getElem?_eq_getElem h, List.getElem_idxOf h]
  · intro i hi
    by_contra hlt
    have hlt : i < keys.idxOf k := by omega
    obtain ⟨hlen, hget⟩ := List.getElem?_eq_some_iff.1 hi
    have hne := List.not_of_lt_findIdx hlt
    simp [hget] at hne

theorem Enumerates.length_eq {names keys : List K} (h : Enumerates names keys) :
    names.length = keys.dedup.length := by
  have hperm : names.Perm keys.dedup := by
    rw [List.perm_ext_iff_of_nodup h.nodup (List.nodup_dedup keys)]
    intro k
    rw [h.mem_iff, List.mem_dedup]
  exact hperm.length_eq

/-- Numbering the keys by any listing of them is a grouping. -/
theorem Enumerates.isGrouping {names keys : List K} (h : Enumerates names keys) :
    IsGrouping keys (idsBy names keys) (firstsBy names keys) names.length := by
  have hmem : ∀ k ∈ keys, k ∈ names := fun k hk => (h.mem_iff k).2 hk
  have hids : ∀ i (hi : i < keys.length), (idsBy names keys)[i]? = some (names.idxOf keys[i]) := by
    intro i hi
    simp [idsBy, List.getElem?_eq_getElem hi]
  refine ⟨by simp [idsBy], by simp [firstsBy], ?_, ?_, h.length_eq, ?_⟩
  · intro i j hi hj
    rw [hids i hi, hids j hj, Option.some.injEq]
    exact List.idxOf_inj (hmem _ (List.getElem_mem hi))
  · intro g
    simp only [idsBy, List.mem_map]
    refine ⟨?_, ?_⟩
    · rintro ⟨k, hk, rfl⟩
      exact List.idxOf_lt_length_of_mem (hmem k hk)
    · intro hg
      exact ⟨names[g], (h.mem_iff _).1 (List.getElem_mem hg), h.nodup.idxOf_getElem g hg⟩
  · intro g hg
    have hk : names[g] ∈ keys := (h.mem_iff _).1 (List.getElem_mem hg)
    have hset : {i : ℕ | (idsBy names keys)[i]? = some g} = {i : ℕ | keys[i]? = some names[g]} := by
      ext i
      simp only [idsBy, List.getElem?_map, Set.mem_ofPred_eq, Option.map_eq_some_iff]
      refine ⟨?_, ?_⟩
      · rintro ⟨k, hki, rfl⟩
        rw [hki, List.getElem_idxOf]
      · intro hi
        exact ⟨names[g], hi, h.nodup.idxOf_getElem g hg⟩
    exact ⟨keys.idxOf names[g], by simp [firstsBy, List.getElem?_eq_getElem hg],
      hset ▸ isLeast_idxOf hk⟩

/-- Two groupings of one list agree up to one renaming of the ids. -/
theorem IsGrouping.agree {keys : List K} {ids ids' firsts firsts' : List ℕ} {n n' : ℕ}
    (h : IsGrouping keys ids firsts n) (h' : IsGrouping keys ids' firsts' n') :
    n' = n ∧ ∃ σ : ℕ → ℕ, Set.BijOn σ (Set.Iio n) (Set.Iio n) ∧ ids' = ids.map σ ∧
      ∀ g < n, firsts'[σ g]? = firsts[g]? := by
  obtain rfl : n' = n := h'.card.trans h.card.symm
  -- the row that stands for a group, and the other grouping's id of that row
  choose! row hfirst hrow using h.least
  have hlen : ∀ g < n', row g < keys.length := by
    intro g hg
    have := (List.getElem?_eq_some_iff.1 (hrow g hg).1).1
    rwa [h.length_ids] at this
  have hid : ∀ i, i < keys.length → ∃ g < n', ids[i]? = some g := by
    intro i hi
    have hi' : i < ids.length := by rw [h.length_ids]; exact hi
    exact ⟨ids[i], (h.mem_ids _).1 (List.getElem_mem hi'), List.getElem?_eq_getElem hi'⟩
  have hid' : ∀ i, i < keys.length → ∃ g < n', ids'[i]? = some g := by
    intro i hi
    have hi' : i < ids'.length := by rw [h'.length_ids]; exact hi
    exact ⟨ids'[i], (h'.mem_ids _).1 (List.getElem_mem hi'), List.getElem?_eq_getElem hi'⟩
  have hsame : ∀ i j, i < keys.length → j < keys.length →
      (ids[i]? = ids[j]? ↔ ids'[i]? = ids'[j]?) := by
    intro i j hi hj
    rw [h.same_iff i j hi hj, h'.same_iff i j hi hj]
  have hσ : ∀ g < n', ∃ g' < n', ids'[row g]? = some g' := fun g hg => hid' _ (hlen g hg)
  choose! σ hσlt hσ using hσ
  have hmap : ∀ i g, i < keys.length → g < n' → ids[i]? = some g → ids'[i]? = some (σ g) := by
    intro i g hi hg hig
    rw [← hσ g hg]
    exact (hsame i (row g) hi (hlen g hg)).1 (hig.trans (hrow g hg).1.symm)
  have hinj : ∀ g < n', ∀ g' < n', σ g = σ g' → g = g' := by
    intro g hg g' hg' heq
    have hrows : ids[row g]? = ids[row g']? := by
      rw [hsame _ _ (hlen g hg) (hlen g' hg'), hσ g hg, hσ g' hg', heq]
    have h1 : ids[row g]? = some g := (hrow g hg).1
    have h2 : ids[row g']? = some g' := (hrow g' hg').1
    rw [h1, h2] at hrows
    exact Option.some.inj hrows
  refine ⟨rfl, σ, ⟨fun g hg => hσlt g hg, fun g hg g' hg' => hinj g hg g' hg', ?_⟩, ?_, ?_⟩
  · intro g' hg'
    obtain ⟨i, hi, rfl⟩ := List.getElem_of_mem ((h'.mem_ids g').2 hg')
    have hik : i < keys.length := by rwa [h'.length_ids] at hi
    obtain ⟨g, hg, hig⟩ := hid i hik
    have := hmap i g hik hg hig
    rw [List.getElem?_eq_getElem hi, Option.some.injEq] at this
    exact ⟨g, hg, this.symm⟩
  · apply List.ext_getElem?
    intro i
    by_cases hi : i < keys.length
    · obtain ⟨g, hg, hig⟩ := hid i hi
      rw [List.getElem?_map, hig, hmap i g hi hg hig]
      rfl
    · rw [List.getElem?_eq_none (by rw [h'.length_ids]; omega),
        List.getElem?_eq_none (by rw [List.length_map, h.length_ids]; omega)]
  · intro g hg
    obtain ⟨r, hr, hleast⟩ := h'.least (σ g) (hσlt g hg)
    have hset : {i : ℕ | ids'[i]? = some (σ g)} = {i : ℕ | ids[i]? = some g} := by
      ext i
      simp only [Set.mem_ofPred_eq]
      by_cases hi : i < keys.length
      · obtain ⟨g₁, hg₁, hi₁⟩ := hid i hi
        rw [hmap i g₁ hi hg₁ hi₁, hi₁, Option.some.injEq, Option.some.injEq]
        exact ⟨fun heq => hinj g₁ hg₁ g hg heq, fun heq => by rw [heq]⟩
      · rw [List.getElem?_eq_none (by rw [h'.length_ids]; omega),
          List.getElem?_eq_none (by rw [h.length_ids]; omega)]
        simp
    rw [hset] at hleast
    rw [hr, hfirst g hg, hleast.unique (hrow g hg)]

/-- A listing sorts a measure that tells its keys apart exactly when the keys' numbers follow it. -/
theorem pairwise_map_iff_idxOf {names : List K} (h : names.Nodup) {f : K → ℕ}
    (hf : ∀ k ∈ names, ∀ k' ∈ names, f k = f k' → k = k') :
    (names.map f).Pairwise (· < ·) ↔
      ∀ k ∈ names, ∀ k' ∈ names, f k < f k' → names.idxOf k < names.idxOf k' := by
  rw [List.pairwise_map, List.pairwise_iff_getElem]
  refine ⟨fun hsorted k hk k' hk' hlt => ?_, fun horder i j hi hj hij => ?_⟩
  · have hi := List.idxOf_lt_length_of_mem hk
    have hj := List.idxOf_lt_length_of_mem hk'
    rcases Nat.lt_trichotomy (names.idxOf k) (names.idxOf k') with h1 | h1 | h1
    · exact h1
    · rw [(List.idxOf_inj hk).1 h1] at hlt
      exact absurd hlt (lt_irrefl _)
    · have := hsorted _ _ hj hi h1
      rw [List.getElem_idxOf hi, List.getElem_idxOf hj] at this
      omega
  · by_contra hle
    rcases Nat.lt_or_eq_of_le (Nat.le_of_not_lt hle) with hlt | heq
    · have := horder _ (List.getElem_mem hj) _ (List.getElem_mem hi) hlt
      rw [h.idxOf_getElem, h.idxOf_getElem] at this
      omega
    · have hsame := hf _ (List.getElem_mem hj) _ (List.getElem_mem hi) heq
      exact absurd ((h.getElem_inj_iff).1 hsame) (by omega)

/-! The listing in order of first appearance, built one key at a time. -/

def firstSeen (keys : List K) : List K :=
  keys.foldl (fun seen k => if k ∈ seen then seen else seen ++ [k]) []

theorem firstSeen_concat (keys : List K) (k : K) :
    firstSeen (keys ++ [k]) =
      if k ∈ firstSeen keys then firstSeen keys else firstSeen keys ++ [k] := by
  rw [firstSeen, List.foldl_append]
  rfl

theorem mem_firstSeen (keys : List K) (k : K) : k ∈ firstSeen keys ↔ k ∈ keys := by
  induction keys using List.reverseRecOn with
  | nil => simp [firstSeen]
  | append_singleton keys k' ih =>
    rw [firstSeen_concat]
    split_ifs with h
    · simp only [ih, List.mem_append, List.mem_singleton]
      refine ⟨Or.inl, ?_⟩
      rintro (hk | rfl)
      · exact hk
      · rwa [ih] at h
    · simp [ih]

theorem nodup_firstSeen (keys : List K) : (firstSeen keys).Nodup := by
  induction keys using List.reverseRecOn with
  | nil => exact List.nodup_nil
  | append_singleton keys k ih =>
    rw [firstSeen_concat]
    split_ifs with h
    · exact ih
    · exact List.nodup_append.2 ⟨ih, List.nodup_singleton k, by
        rintro a ha b hb rfl
        exact h (List.mem_singleton.1 hb ▸ ha)⟩

theorem enumerates_firstSeen (keys : List K) : Enumerates (firstSeen keys) keys :=
  ⟨nodup_firstSeen keys, mem_firstSeen keys⟩

theorem length_firstSeen_le (keys : List K) : (firstSeen keys).length ≤ keys.length := by
  induction keys using List.reverseRecOn with
  | nil => simp [firstSeen]
  | append_singleton keys k ih =>
    rw [firstSeen_concat]
    split_ifs
    · simp only [List.length_append, List.length_singleton]; omega
    · simp only [List.length_append, List.length_singleton]; omega

theorem firstSeen_sublist (keys : List K) : (firstSeen keys).Sublist keys := by
  induction keys using List.reverseRecOn with
  | nil => exact List.Sublist.refl _
  | append_singleton keys k ih =>
    rw [firstSeen_concat]
    split_ifs
    · exact ih.trans (List.sublist_append_left keys [k])
    · exact ih.append (List.Sublist.refl [k])

/-- A key already seen keeps its number. -/
theorem idxOf_firstSeen_concat {keys : List K} {k' : K} (h : k' ∈ keys) (k : K) :
    (firstSeen (keys ++ [k])).idxOf k' = (firstSeen keys).idxOf k' := by
  rw [firstSeen_concat]
  split_ifs
  · rfl
  · exact List.idxOf_append_of_mem ((mem_firstSeen keys k').2 h)

/-- A new key gets the next number. -/
theorem idxOf_firstSeen_new {keys : List K} {k : K} (h : k ∉ keys) :
    (firstSeen (keys ++ [k])).idxOf k = (firstSeen keys).length := by
  have hnew : k ∉ firstSeen keys := by rwa [mem_firstSeen]
  rw [firstSeen_concat, if_neg hnew, List.idxOf_append_of_notMem hnew]
  simp

/-! One more row, for a grouping by first appearance. -/

theorem idsBy_firstSeen_concat (keys : List K) (k : K) :
    idsBy (firstSeen (keys ++ [k])) (keys ++ [k]) =
      idsBy (firstSeen keys) keys ++ [(firstSeen (keys ++ [k])).idxOf k] := by
  have hold : idsBy (firstSeen (keys ++ [k])) keys = idsBy (firstSeen keys) keys :=
    List.map_congr_left (fun k' hk' => idxOf_firstSeen_concat hk' k)
  rw [← hold]
  simp [idsBy]

theorem firstsBy_concat {names keys : List K} (h : ∀ k ∈ names, k ∈ keys) (k : K) :
    firstsBy names (keys ++ [k]) = firstsBy names keys :=
  List.map_congr_left (fun k' hk' => List.idxOf_append_of_mem (h k' hk'))

theorem firstsBy_firstSeen_concat (keys : List K) (k : K) :
    firstsBy (firstSeen (keys ++ [k])) (keys ++ [k]) =
      if k ∈ keys then firstsBy (firstSeen keys) keys
      else firstsBy (firstSeen keys) keys ++ [keys.length] := by
  have hmem : ∀ k' ∈ firstSeen keys, k' ∈ keys := fun k' => (mem_firstSeen keys k').1
  simp only [firstSeen_concat, mem_firstSeen]
  split_ifs with h
  · exact firstsBy_concat hmem k
  · rw [← firstsBy_concat hmem k]
    simp [firstsBy, List.idxOf_append_of_notMem h]

/-- The first rows of the keys in order of first appearance increase. -/
theorem pairwise_firstsBy_firstSeen (keys : List K) :
    (firstsBy (firstSeen keys) keys).Pairwise (· < ·) := by
  induction keys using List.reverseRecOn with
  | nil => exact List.Pairwise.nil
  | append_singleton keys k ih =>
    rw [firstsBy_firstSeen_concat]
    split_ifs with hk
    · exact ih
    · refine List.pairwise_append.2 ⟨ih, List.pairwise_singleton _ _, fun i hi j hj => ?_⟩
      obtain ⟨k', hk', rfl⟩ := List.mem_map.1 hi
      rw [List.mem_singleton.1 hj]
      exact List.idxOf_lt_length_of_mem ((mem_firstSeen keys k').1 hk')

/-! Listings assembled from parts. -/

/-- Writing one key's entry in a table indexed by a listing. -/
theorem map_set_idxOf {β : Type*} {names : List K} (h : names.Nodup) {k : K} (hk : k ∈ names)
    (f : K → β) (b : β) :
    (names.map f).set (names.idxOf k) b = names.map (fun k' => if k' = k then b else f k') := by
  apply List.ext_getElem?
  intro i
  rw [List.getElem?_set, List.getElem?_map, List.getElem?_map, List.length_map,
    if_pos (List.idxOf_lt_length_of_mem hk)]
  split_ifs with hi
  · subst hi
    have hlt := List.idxOf_lt_length_of_mem hk
    simp [List.getElem?_eq_getElem hlt, List.getElem_idxOf hlt]
  · by_cases hlen : i < names.length
    · have hne : names[i] ≠ k := by
        rintro rfl
        exact hi (h.idxOf_getElem i hlen)
      simp [List.getElem?_eq_getElem hlen, hne]
    · simp [List.getElem?_eq_none (by omega : names.length ≤ i)]

/-- A key of one part is numbered after all the earlier parts. -/
theorem idxOf_flatten (parts : List (List K)) {p : ℕ} (hp : p < parts.length) {k : K}
    (hk : k ∈ parts[p]) (hother : ∀ q (hq : q < p), k ∉ parts[q]) :
    parts.flatten.idxOf k = ((parts.take p).map List.length).sum + parts[p].idxOf k := by
  induction parts generalizing p with
  | nil => exact absurd hp (by simp)
  | cons part parts ih =>
    rw [List.flatten_cons]
    cases p with
    | zero => simpa using List.idxOf_append_of_mem hk
    | succ p =>
      have hnot : k ∉ part := hother 0 (by omega)
      have hrest := ih (p := p) (by simpa using hp) hk
        (fun q hq => hother (q + 1) (by omega))
      rw [List.idxOf_append_of_notMem hnot, hrest]
      simp only [List.take_succ_cons, List.map_cons, List.sum_cons, List.getElem_cons_succ]
      omega

/-! The first rows. -/

section Firsts

variable {keys : List K} {ids firsts : List ℕ} {n : ℕ} (h : IsGrouping keys ids firsts n)

include h

theorem IsGrouping.first_lt {r : ℕ} (hr : r ∈ firsts) : r < keys.length := by
  obtain ⟨g, hg, rfl⟩ := List.getElem_of_mem hr
  obtain ⟨r, hget, hleast⟩ := h.least g (h.length_firsts ▸ hg)
  have heq : firsts[g] = r := Option.some.inj ((List.getElem?_eq_getElem hg).symm.trans hget)
  rw [heq, ← h.length_ids]
  exact (List.getElem?_eq_some_iff.1 hleast.1).1

/-- No row is the first of two groups. -/
theorem IsGrouping.nodup_firsts : firsts.Nodup := by
  rw [List.nodup_iff_injective_get]
  intro g g' heq
  obtain ⟨r, hget, hleast⟩ := h.least g (h.length_firsts ▸ g.isLt)
  obtain ⟨r', hget', hleast'⟩ := h.least g' (h.length_firsts ▸ g'.isLt)
  rw [List.getElem?_eq_getElem g.isLt, Option.some.injEq] at hget
  rw [List.getElem?_eq_getElem g'.isLt, Option.some.injEq] at hget'
  have hr : r = r' := by rw [← hget, ← hget']; exact heq
  have hid : some (g : ℕ) = some (g' : ℕ) := by
    rw [← hleast.1, hr]
    exact hleast'.1
  exact Fin.ext (Option.some.inj hid)

theorem IsGrouping.count_le : n ≤ keys.length := by
  rw [h.card]
  exact (List.dedup_sublist keys).length_le

end Firsts

end Grouping
