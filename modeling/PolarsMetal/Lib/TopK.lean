import Mathlib.Data.List.Sort
import Mathlib.Tactic

/-! The `k` first elements of a list under a key, selected at once or tile by tile. A selection is
told by how many of its elements lie at or below each bound. -/

namespace TopK

variable {α κ : Type*} [LinearOrder κ] (key : α → κ)

/-- The number of elements whose key is at most `s`. -/
def upTo (s : κ) (xs : List α) : ℕ := xs.countP (fun x => key x ≤ s)

@[simp] theorem upTo_nil (s : κ) : upTo key s ([] : List α) = 0 := rfl

theorem upTo_cons (s : κ) (x : α) (xs : List α) :
    upTo key s (x :: xs) = upTo key s xs + if key x ≤ s then 1 else 0 := by
  unfold upTo
  rw [List.countP_cons]
  simp only [decide_eq_true_eq]

theorem upTo_append (s : κ) (xs ys : List α) : upTo key s (xs ++ ys) = upTo key s xs + upTo key s ys :=
  List.countP_append

theorem upTo_le_length (s : κ) (xs : List α) : upTo key s xs ≤ xs.length := List.countP_le_length

theorem upTo_perm {xs ys : List α} (h : xs.Perm ys) (s : κ) : upTo key s xs = upTo key s ys :=
  h.countP_eq _

theorem upTo_map {β : Type*} (f : β → α) (s : κ) (xs : List β) :
    upTo key s (xs.map f) = upTo (fun x => key (f x)) s xs := List.countP_map

/-- A part none of whose elements is beyond one that was left out. -/
theorem upTo_part {xs ys : List α} (h : ∀ x ∈ xs, ∀ y ∈ ys, key x ≤ key y) (s : κ) :
    upTo key s xs = min xs.length (upTo key s (xs ++ ys)) := by
  have hle := upTo_le_length key s xs
  rw [upTo_append]
  by_cases hbelow : ∃ y ∈ ys, key y ≤ s
  · obtain ⟨y, hy, hys⟩ := hbelow
    have hall : upTo key s xs = xs.length := by
      unfold upTo
      rw [List.countP_eq_length]
      exact fun x hx => decide_eq_true ((h x hx y hy).trans hys)
    omega
  · have hnone : upTo key s ys = 0 := by
      unfold upTo
      rw [List.countP_eq_zero]
      exact fun y hy hys => hbelow ⟨y, hy, of_decide_eq_true hys⟩
    omega

/-- A part carries the least keys exactly when none of its elements is beyond one that was left out. -/
theorem upTo_part_iff {xs ys : List α} :
    (∀ s, upTo key s xs = min xs.length (upTo key s (xs ++ ys))) ↔
      ∀ x ∈ xs, ∀ y ∈ ys, key x ≤ key y := by
  refine ⟨fun h x hx y hy => ?_, upTo_part key⟩
  have hcount := h (key y)
  have hpos : 0 < upTo key (key y) ys :=
    List.countP_pos_iff.2 ⟨y, hy, decide_eq_true le_rfl⟩
  have hle := upTo_le_length key (key y) xs
  rw [upTo_append] at hcount
  have hall : upTo key (key y) xs = xs.length := by omega
  exact of_decide_eq_true (List.countP_eq_length.1 hall x hx)

omit [LinearOrder κ] in
/-- Where no two elements tie, a part that precedes the rest holds the elements of least rank. -/
theorem mem_part_iff {lt : α → α → Prop} [DecidableRel lt] {xs ys : List α} (hnodup : (xs ++ ys).Nodup)
    (hasymm : ∀ x ∈ xs ++ ys, ∀ y ∈ xs ++ ys, lt x y → ¬ lt y x)
    (htotal : ∀ x ∈ xs ++ ys, ∀ y ∈ xs ++ ys, x ≠ y → lt x y ∨ lt y x)
    (hpart : ∀ x ∈ xs, ∀ y ∈ ys, ¬ lt y x) {a : α} (ha : a ∈ xs ++ ys) :
    a ∈ xs ↔ (xs ++ ys).countP (fun b => lt b a) < xs.length := by
  rw [List.countP_append]
  refine ⟨fun hx => ?_, fun hcount => ?_⟩
  · have hys : ys.countP (fun b => lt b a) = 0 := by
      rw [List.countP_eq_zero]
      exact fun b hb hlt => hpart a hx b hb (of_decide_eq_true hlt)
    have hxs : xs.countP (fun b => lt b a) ≠ xs.length := by
      rw [Ne, List.countP_eq_length]
      intro hall
      have hself : lt a a := of_decide_eq_true (hall a hx)
      exact hasymm a ha a ha hself hself
    have hle := List.countP_le_length (p := fun b => decide (lt b a)) (l := xs)
    omega
  · obtain hx | hy := List.mem_append.1 ha
    · exact hx
    · -- every element of the part comes before one that was left out
      have hall : xs.countP (fun b => lt b a) = xs.length := by
        rw [List.countP_eq_length]
        intro x hx
        have hne : x ≠ a := fun heq => List.disjoint_of_nodup_append hnodup hx (heq ▸ hy)
        have hlt := htotal x (List.mem_append_left _ hx) a ha hne
        exact decide_eq_true (hlt.resolve_right (hpart x hx a hy))
      omega

/-- The first `k` of a sorted list. -/
theorem upTo_take {xs : List α} (h : xs.Pairwise (fun x y => key x ≤ key y)) (k : ℕ) (s : κ) :
    upTo key s (xs.take k) = min k (upTo key s xs) := by
  have hsplit := h
  rw [← List.take_append_drop k xs, List.pairwise_append] at hsplit
  have hpart := upTo_part key hsplit.2.2 s
  rw [List.take_append_drop, List.length_take] at hpart
  have hle := upTo_le_length key s xs
  omega

/-- The keys of a list are known from its counts. -/
theorem map_perm_iff {xs ys : List α} :
    (xs.map key).Perm (ys.map key) ↔ ∀ s, upTo key s xs = upTo key s ys := by
  have hmap : ∀ (s : κ) (zs : List α), upTo id s (zs.map key) = upTo key s zs :=
    fun s zs => upTo_map id key s zs
  refine ⟨fun h s => ?_, fun h => ?_⟩
  · rw [← hmap, ← hmap, upTo_perm id h]
  -- two sorted lists with the same counts are equal
  have hsorted : ∀ us vs : List κ, us.Pairwise (· ≤ ·) → vs.Pairwise (· ≤ ·) →
      (∀ s, upTo id s us = upTo id s vs) → us = vs := by
    have hmem : ∀ (u : κ) (us : List κ), upTo id u (u :: us) ≠ 0 := by
      intro u us
      rw [upTo_cons, if_pos (show id u ≤ u from le_rfl)]
      exact Nat.succ_ne_zero _
    have hhead : ∀ (u v : κ) (us vs : List κ), (v :: vs).Pairwise (· ≤ ·) →
        upTo id u (u :: us) = upTo id u (v :: vs) → v ≤ u := by
      intro u v us vs hvs hcount
      by_contra hnot
      refine hmem u us (hcount.trans ?_)
      unfold upTo
      rw [List.countP_eq_zero]
      intro w hw hwu
      obtain rfl | hw := List.mem_cons.1 hw
      · exact hnot (of_decide_eq_true hwu)
      · exact hnot (((List.pairwise_cons.1 hvs).1 w hw).trans (of_decide_eq_true hwu))
    intro us
    induction us with
    | nil =>
      intro vs _ _ hcount
      cases vs with
      | nil => rfl
      | cons v vs => exact absurd (hcount v).symm (hmem v vs)
    | cons u us ih =>
      intro vs hus hvs hcount
      cases vs with
      | nil => exact absurd (hcount u) (hmem u us)
      | cons v vs =>
        obtain rfl : u = v := le_antisymm (hhead v u vs us hus (hcount v).symm)
          (hhead u v us vs hvs (hcount u))
        rw [ih vs (List.pairwise_cons.1 hus).2 (List.pairwise_cons.1 hvs).2 (fun s => ?_)]
        have := hcount s
        rw [upTo_cons, upTo_cons] at this
        omega
  have hus := List.perm_insertionSort (· ≤ ·) (xs.map key)
  have hvs := List.perm_insertionSort (· ≤ ·) (ys.map key)
  have heq := hsorted _ _ (List.pairwise_insertionSort (· ≤ ·) (xs.map key))
    (List.pairwise_insertionSort (· ≤ ·) (ys.map key)) (fun s => by
      rw [upTo_perm id hus, upTo_perm id hvs, hmap, hmap, h])
  exact hus.symm.trans (heq ▸ hvs)

/-- Where two selections of distinct elements carry the same keys, an element that only one of them
has is tied with one that only the other has. -/
theorem exists_tied [DecidableEq α] {xs ys : List α} (hxs : xs.Nodup) (hys : ys.Nodup)
    (h : (xs.map key).Perm (ys.map key)) {x : α} (hx : x ∈ xs) (hxy : x ∉ ys) :
    ∃ y ∈ ys, y ∉ xs ∧ key y = key x := by
  have hcommon : (xs.filter (· ∈ ys)).Perm (ys.filter (· ∈ xs)) := by
    refine (List.perm_ext_iff_of_nodup (hxs.filter _) (hys.filter _)).2 (fun a => ?_)
    rw [List.mem_filter, List.mem_filter, decide_eq_true_eq, decide_eq_true_eq, and_comm]
  have hsplit : ∀ us vs : List α, (us.map key).count (key x) =
      ((us.filter (· ∈ vs)).map key).count (key x) +
        ((us.filter (fun u => !decide (u ∈ vs))).map key).count (key x) := by
    intro us vs
    rw [← List.count_append, ← List.map_append]
    exact ((List.filter_append_perm _ us).map key).symm.count_eq _
  have hrest : ((xs.filter (fun u => !decide (u ∈ ys))).map key).count (key x) =
      ((ys.filter (fun u => !decide (u ∈ xs))).map key).count (key x) := by
    have hx := hsplit xs ys
    have hy := hsplit ys xs
    have hc := (hcommon.map key).count_eq (key x)
    have hall := h.count_eq (key x)
    omega
  have hpos : 0 < ((xs.filter (fun u => !decide (u ∈ ys))).map key).count (key x) :=
    List.count_pos_iff.2 (List.mem_map_of_mem (List.mem_filter.2 ⟨hx, by simpa using hxy⟩))
  rw [hrest, List.count_pos_iff, List.mem_map] at hpos
  obtain ⟨y, hy, hkey⟩ := hpos
  rw [List.mem_filter] at hy
  exact ⟨y, hy.1, by simpa using hy.2, hkey⟩

/-- `ts` is a selection of the `k` first of the candidates. -/
structure Selects (k : ℕ) (cands ts : List α) : Prop where
  subperm : ts.Subperm cands
  length : ts.length = min k cands.length
  count : ∀ s, upTo key s ts = min k (upTo key s cands)

variable {key}

theorem Selects.nil (k : ℕ) : Selects key k ([] : List α) [] :=
  ⟨List.Subperm.refl _, by simp, by simp⟩

/-- Selecting again after more candidates have come in. -/
theorem Selects.step {k : ℕ} {cands ts new : List α} {le : α → α → Prop} [DecidableRel le]
    [Std.Total le] [IsTrans α le] (hkey : ∀ x y, le x y → key x ≤ key y) (h : Selects key k cands ts) :
    Selects key k (cands ++ new) (((ts ++ new).insertionSort le).take k) := by
  have hperm := List.perm_insertionSort le (ts ++ new)
  have hsorted : ((ts ++ new).insertionSort le).Pairwise (fun x y => key x ≤ key y) :=
    (List.pairwise_insertionSort le (ts ++ new)).imp (hkey _ _)
  refine ⟨?_, ?_, fun s => ?_⟩
  · have htake : (((ts ++ new).insertionSort le).take k).Subperm (ts ++ new) :=
      (List.take_sublist _ _).subperm.trans hperm.subperm
    exact htake.trans ((List.subperm_append_right new).2 h.subperm)
  · rw [List.length_take, hperm.length_eq, List.length_append, List.length_append, h.length]
    omega
  · rw [upTo_take key hsorted, upTo_perm key hperm, upTo_append, upTo_append, h.count]
    omega

end TopK
