import PolarsMetal.Lib.Window

/-! Rearrangements of a list in order of rank, entries of one rank in any order, seen through a
window and a map. Which lists can be seen there, however they are ordered themselves, is a matter
of counting the places of each rank. -/

namespace Arrangement
open Window

variable {α β K : Type*} [LinearOrder K]

/-- A rearrangement of `xs` in order of rank. -/
structure Arranges (rank : α → K) (xs ys : List α) : Prop where
  perm : ys.Perm xs
  sorted : ys.Pairwise (fun x y => rank x ≤ rank y)

/-- The ranks of a list in order: the rank of each place of an arrangement. -/
def ranks (rank : α → K) (xs : List α) : List K := (xs.map rank).mergeSort (· ≤ ·)

theorem ranks_perm (rank : α → K) (xs : List α) : (ranks rank xs).Perm (xs.map rank) :=
  List.mergeSort_perm _ _

theorem ranks_sorted (rank : α → K) (xs : List α) : (ranks rank xs).Pairwise (· ≤ ·) := by
  have h : ((xs.map rank).mergeSort (fun a b : K => decide (a ≤ b))).Pairwise
      (fun a b => decide (a ≤ b) = true) :=
    List.pairwise_mergeSort (fun a b c => by simpa using fun h₁ h₂ => le_trans h₁ h₂)
      (fun a b => by simpa using le_total a b) (xs.map rank)
  exact h.imp (fun h => by simpa using h)

theorem length_ranks (rank : α → K) (xs : List α) : (ranks rank xs).length = xs.length := by
  rw [(ranks_perm rank xs).length_eq, List.length_map]

/-- The places' ranks do not depend on the arrangement. -/
theorem Arranges.map_rank {rank : α → K} {xs ys : List α} (h : Arranges rank xs ys) :
    ys.map rank = ranks rank xs :=
  List.Perm.eq_of_pairwise (fun _ _ _ _ => le_antisymm) (List.pairwise_map.2 h.sorted)
    (ranks_sorted rank xs) ((h.perm.map rank).trans (ranks_perm rank xs).symm)

theorem map_window (f : α → β) (lo hi : ℕ) (xs : List α) :
    (window lo hi xs).map f = window lo hi (xs.map f) := by
  unfold window
  rw [List.map_take, List.map_drop]

theorem window_sublist (lo hi : ℕ) (xs : List α) : (window lo hi xs).Sublist xs :=
  (List.take_sublist _ _).trans (List.drop_sublist _ _)

/-! Finding places. -/

/-- A rearrangement of the images is the image of a rearrangement. -/
theorem exists_perm_map_eq {γ : Type*} {g : α → γ} {xs : List α} {zs : List γ}
    (h : zs.Perm (xs.map g)) : ∃ ws : List α, ws.Perm xs ∧ ws.map g = zs := by
  have hmap : List.Forall₂ (fun z x => z = g x) (xs.map g) xs := by
    rw [List.forall₂_map_left_iff]
    exact List.forall₂_same.2 (fun _ _ => rfl)
  obtain ⟨ws, hws, hwx⟩ := List.perm_comp_forall₂ h hmap
  refine ⟨ws, hwx, ?_⟩
  clear hwx h hmap
  induction hws with
  | nil => rfl
  | cons hz _ ih => rw [List.map_cons, ih, hz]

theorem exists_map_eq_of_subperm {γ : Type*} {g : α → γ} {xs : List α} {zs : List γ}
    (h : zs.Subperm (xs.map g)) : ∃ ws rest : List α, ws.map g = zs ∧ xs.Perm (ws ++ rest) := by
  obtain ⟨_, hperm, hsub⟩ := h
  obtain ⟨ls, hls, rfl⟩ := List.sublist_map_iff.1 hsub
  obtain ⟨ws, hws, hmap⟩ := exists_perm_map_eq hperm.symm
  obtain ⟨rest, hrest⟩ := hls.exists_perm_append
  exact ⟨ws, rest, hmap, hrest.trans (hws.symm.append_right rest)⟩

/-- Places for the entries of `ws` are found by ordering the others around them. -/
theorem exists_arranges {rank : α → K} {xs ws rest : List α} {lo hi : ℕ} (hlo : lo ≤ hi)
    (hhi : hi ≤ xs.length) (hperm : xs.Perm (ws ++ rest))
    (hws : ws.map rank = window lo hi (ranks rank xs)) :
    ∃ ys, Arranges rank xs ys ∧ window lo hi ys = ws := by
  have hlen : (ranks rank xs).length = xs.length := length_ranks rank xs
  set R := ranks rank xs with hR
  have hsplit : R = R.take lo ++ window lo hi R ++ R.drop hi := by
    unfold window
    rw [List.append_assoc]
    have hdrop : R.drop hi = (R.drop lo).drop (hi - lo) := by
      rw [List.drop_drop]
      congr 1
      omega
    rw [hdrop, List.take_append_drop, List.take_append_drop]
  -- the other entries in order of rank
  have hranks : (rest.map rank).Perm (R.take lo ++ R.drop hi) := by
    rw [← List.perm_append_left_iff (ws.map rank), ← List.map_append]
    refine ((hperm.map rank).symm.trans (ranks_perm rank xs).symm).trans ?_
    rw [hws, ← hR]
    nth_rewrite 1 [hsplit]
    rw [← List.append_assoc]
    exact List.perm_append_comm.append_right _
  obtain ⟨zs, hzs, hzranks⟩ := exists_perm_map_eq hranks.symm
  have hwlen : ws.length = hi - lo := by
    rw [← List.length_map (f := rank), hws, length_window (by omega)]
  have htake : (zs.take lo).map rank = R.take lo := by
    rw [List.map_take, hzranks, List.take_append_of_le_length (by simp; omega), List.take_take,
      min_self]
  have hzdrop : (zs.drop lo).map rank = R.drop hi := by
    have hlen' : (R.take lo).length = lo := by
      rw [List.length_take]
      omega
    rw [List.map_drop, hzranks, List.drop_append_of_le_length hlen'.ge,
      List.drop_eq_nil_of_le hlen'.le, List.nil_append]
  have htlen : (zs.take lo).length = lo := by
    rw [← List.length_map (f := rank), htake, List.length_take]
    omega
  refine ⟨zs.take lo ++ ws ++ zs.drop lo, ⟨?_, ?_⟩, ?_⟩
  · calc (zs.take lo ++ ws ++ zs.drop lo).Perm (ws ++ zs.take lo ++ zs.drop lo) :=
          List.perm_append_comm.append_right _
      _ = ws ++ zs := by rw [List.append_assoc, List.take_append_drop]
      _ |>.Perm (ws ++ rest) := hzs.append_left ws
      _ |>.Perm xs := hperm.symm
  · rw [← List.pairwise_map, List.map_append, List.map_append, htake, hws, hzdrop, ← hsplit]
    exact ranks_sorted rank xs
  · unfold window
    rw [List.append_assoc, List.drop_append_of_le_length htlen.ge, List.drop_eq_nil_of_le htlen.le,
      List.nil_append, List.take_append_of_le_length hwlen.ge, List.take_of_length_le hwlen.le]

/-! Counting. -/

variable [BEq K] [LawfulBEq K] [BEq β] [LawfulBEq β]

theorem count_pair (rank : α → K) (f : α → β) (xs : List α) (k : K) (b : β) :
    (xs.map (fun x => (rank x, f x))).count (k, b) =
      ((xs.filter (fun x => rank x = k)).map f).count b := by
  induction xs with
  | nil => rfl
  | cons x xs ih =>
    rw [List.map_cons, List.count_cons, ih]
    by_cases hk : rank x = k
    · rw [List.filter_cons_of_pos (by simpa using hk), List.map_cons, List.count_cons]
      by_cases hb : f x = b
      · simp [hk, hb]
      · simp [hk, hb]
    · rw [List.filter_cons_of_neg (by simpa using hk)]
      simp [hk]

/-- The entries of a list can be ordered so that as many entries `b` as possible meet `k`. -/
theorem exists_perm_count_zip (ks : List K) (bs : List β) (k : K) (b : β)
    (hlen : ks.length = bs.length) :
    ∃ cs : List β, cs.Perm bs ∧ min (ks.count k) (bs.count b) ≤ (ks.zip cs).count (k, b) := by
  induction ks generalizing bs with
  | nil => exact ⟨bs, List.Perm.refl bs, by simp⟩
  | cons k' ks ih =>
    -- the entry that meets `k'`: a `b` where `k' = k`, and if possible another one elsewhere
    have hpick : ∃ c ∈ bs, (k' = k ∧ c = b) ∨
        min ((k' :: ks).count k) (bs.count b) ≤ min (ks.count k) ((bs.erase c).count b) := by
      have hpos : 0 < bs.length := by
        rw [← hlen]
        exact Nat.succ_pos _
      by_cases hk : k' = k
      · by_cases hb : b ∈ bs
        · exact ⟨b, hb, Or.inl ⟨hk, rfl⟩⟩
        · refine ⟨bs[0], List.getElem_mem hpos, Or.inr ?_⟩
          rw [List.count_eq_zero_of_not_mem hb]
          omega
      · rw [List.count_cons_of_ne hk]
        by_cases hother : ∃ c ∈ bs, c ≠ b
        · obtain ⟨c, hc, hcb⟩ := hother
          refine ⟨c, hc, Or.inr ?_⟩
          rw [List.count_erase_of_ne (Ne.symm hcb)]
        · push Not at hother
          have hb : b ∈ bs := hother bs[0] (List.getElem_mem hpos) ▸ List.getElem_mem hpos
          refine ⟨b, hb, Or.inr ?_⟩
          have hall : bs.count b = bs.length :=
            List.count_eq_length.2 (fun c hc => (hother c hc).symm)
          have hle : ks.count k ≤ ks.length := List.count_le_length
          rw [List.count_erase_self, hall, ← hlen, List.length_cons]
          omega
    obtain ⟨c, hc, hcount⟩ := hpick
    have hrest : ks.length = (bs.erase c).length := by
      rw [List.length_erase_of_mem hc, ← hlen, List.length_cons, Nat.add_sub_cancel]
    obtain ⟨cs, hperm, hcs⟩ := ih (bs.erase c) hrest
    refine ⟨c :: cs, (hperm.cons c).trans (List.perm_cons_erase hc).symm, ?_⟩
    rw [List.zip_cons_cons]
    rcases hcount with ⟨rfl, rfl⟩ | hcount
    · rw [List.count_erase_self] at hcs
      have hb : 0 < bs.count c := List.count_pos_iff.2 hc
      rw [List.count_cons_self, List.count_cons_self]
      omega
    · exact hcount.trans (hcs.trans List.count_le_count_cons)

/-- Every ordering of `bs` is seen through the window of some arrangement exactly when it fits and
every entry can fill as many places of each rank as it may come to. -/
theorem forall_perm_exists_arranges_iff {rank : α → K} {f : α → β} {xs : List α} {bs : List β}
    {lo hi : ℕ} (hlo : lo ≤ hi) (hhi : hi ≤ xs.length) :
    (∀ cs, cs.Perm bs → ∃ ys, Arranges rank xs ys ∧ cs = (window lo hi ys).map f) ↔
      bs.length = hi - lo ∧ ∀ k b, min ((window lo hi (ranks rank xs)).count k) (bs.count b) ≤
        ((xs.filter (fun x => rank x = k)).map f).count b := by
  have hwin : (window lo hi (ranks rank xs)).length = hi - lo :=
    length_window (by rw [length_ranks]; exact hhi)
  refine ⟨fun h => ?_, fun ⟨hlen, hcount⟩ cs hcs => ?_⟩
  · have hlen : bs.length = hi - lo := by
      obtain ⟨ys, hys, hbs⟩ := h bs (List.Perm.refl bs)
      rw [hbs, List.length_map, length_window (by rw [hys.perm.length_eq]; exact hhi)]
    refine ⟨hlen, fun k b => ?_⟩
    obtain ⟨cs, hcs, hmin⟩ :=
      exists_perm_count_zip (window lo hi (ranks rank xs)) bs k b (hwin.trans hlen.symm)
    obtain ⟨ys, hys, hseen⟩ := h cs hcs
    have hzip : (window lo hi (ranks rank xs)).zip cs =
        (window lo hi ys).map (fun x => (rank x, f x)) := by
      rw [← hys.map_rank, ← map_window, hseen, List.zip_map']
    calc min ((window lo hi (ranks rank xs)).count k) (bs.count b)
        ≤ ((window lo hi ys).map (fun x => (rank x, f x))).count (k, b) := hzip ▸ hmin
      _ ≤ (ys.map (fun x => (rank x, f x))).count (k, b) :=
          ((window_sublist lo hi ys).map _).count_le _
      _ = (xs.map (fun x => (rank x, f x))).count (k, b) := (hys.perm.map _).count_eq _
      _ = ((xs.filter (fun x => rank x = k)).map f).count b := count_pair rank f xs k b
  · have hlen' : (window lo hi (ranks rank xs)).length = cs.length := by
      rw [hwin, hcs.length_eq, hlen]
    have hsub : ((window lo hi (ranks rank xs)).zip cs).Subperm (xs.map (fun x => (rank x, f x))) := by
      rw [List.subperm_ext_iff]
      intro ⟨k, b⟩ _
      have hk : ((window lo hi (ranks rank xs)).zip cs).count (k, b) ≤
          (window lo hi (ranks rank xs)).count k := by
        have h := List.count_le_count_map (l := (window lo hi (ranks rank xs)).zip cs)
          (f := Prod.fst) (x := (k, b))
        rwa [List.map_fst_zip hlen'.le] at h
      have hb : ((window lo hi (ranks rank xs)).zip cs).count (k, b) ≤ bs.count b := by
        have h := List.count_le_count_map (l := (window lo hi (ranks rank xs)).zip cs)
          (f := Prod.snd) (x := (k, b))
        rw [List.map_snd_zip hlen'.ge] at h
        exact h.trans (hcs.count_eq b).le
      rw [count_pair]
      exact (le_min hk hb).trans (hcount k b)
    obtain ⟨ws, rest, hws, hperm⟩ := exists_map_eq_of_subperm hsub
    have hrank : ws.map rank = window lo hi (ranks rank xs) := by
      have h := congrArg (List.map Prod.fst) hws
      rwa [List.map_map, List.map_fst_zip hlen'.le] at h
    have hf : ws.map f = cs := by
      have h := congrArg (List.map Prod.snd) hws
      rwa [List.map_map, List.map_snd_zip hlen'.ge] at h
    obtain ⟨ys, hys, hseen⟩ := exists_arranges hlo hhi hperm hrank
    exact ⟨ys, hys, by rw [hseen, hf]⟩

end Arrangement
