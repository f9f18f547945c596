import Mathlib.Tactic

/-! Least-significant-digit radix sort: passes that distribute a list into digit
buckets, each bucket keeping its input order, from the lowest digit up. -/

namespace StableSort

variable {α : Type*}

/-- One pass: the buckets `0 .. base` in turn, each in input order. -/
def bucketPass (base : ℕ) (digit : α → ℕ) (xs : List α) : List α :=
  (List.range base).flatMap (fun d => xs.filter (fun x => digit x = d))

def lsdSort (base : ℕ) (digit : ℕ → α → ℕ) (passes : ℕ) (xs : List α) : List α :=
  (List.range passes).foldl (fun ys lane => bucketPass base (digit lane) ys) xs

theorem count_bucketPass [DecidableEq α] {base : ℕ} {digit : α → ℕ} {x : α} (xs : List α)
    (hx : digit x < base) : (bucketPass base digit xs).count x = xs.count x := by
  have hbucket : ∀ d, (xs.filter (fun y => digit y = d)).count x =
      if d = digit x then xs.count x else 0 := by
    intro d
    split_ifs with h
    · exact List.count_filter (by simp [h])
    · exact List.count_eq_zero.2 (fun hmem => h (by simpa [eq_comm] using (List.mem_filter.1 hmem).2))
  rw [bucketPass, List.count_flatMap]
  have : (List.count x ∘ fun d => xs.filter (fun y => digit y = d)) =
      fun d => if d = digit x then xs.count x else 0 := funext hbucket
  rw [this]
  clear this hbucket
  induction base with
  | zero => omega
  | succ base ih =>
    rw [List.range_succ, List.map_append, List.sum_append]
    by_cases h : digit x = base
    · have hzero : ((List.range base).map (fun d => if d = digit x then xs.count x else 0)).sum = 0 := by
        apply List.sum_eq_zero
        intro n hn
        obtain ⟨d, hd, rfl⟩ := List.mem_map.1 hn
        rw [if_neg (by have := List.mem_range.1 hd; omega)]
      rw [hzero]
      simp [h]
    · rw [ih (by omega)]
      simp [Ne.symm h]

theorem bucketPass_perm {base : ℕ} {digit : α → ℕ} {xs : List α} (h : ∀ x ∈ xs, digit x < base) :
    (bucketPass base digit xs).Perm xs := by
  classical
  rw [List.perm_iff_count]
  intro x
  by_cases hx : digit x < base
  · exact count_bucketPass xs hx
  · have hnot : x ∉ xs := fun hmem => hx (h x hmem)
    rw [List.count_eq_zero.2 hnot, List.count_eq_zero]
    intro hmem
    obtain ⟨d, -, hd⟩ := List.mem_flatMap.1 hmem
    exact hnot (List.mem_filter.1 hd).1

/-- A pass orders by its digit and, within a digit, keeps the order it was given. -/
theorem bucketPass_pairwise {base : ℕ} {digit : α → ℕ} {xs : List α} {R : α → α → Prop}
    (h : xs.Pairwise R) :
    (bucketPass base digit xs).Pairwise
      (fun a b => digit a < digit b ∨ digit a = digit b ∧ R a b) := by
  rw [bucketPass, List.pairwise_flatMap]
  refine ⟨?_, ?_⟩
  · intro d _
    refine (h.filter _).imp_of_mem (fun ha hb hab => Or.inr ⟨?_, hab⟩)
    have ha := (List.mem_filter.1 ha).2
    have hb := (List.mem_filter.1 hb).2
    simp only [decide_eq_true_eq] at ha hb
    rw [ha, hb]
  · refine List.pairwise_lt_range.imp (fun hlt a ha b hb => Or.inl ?_)
    have ha := (List.mem_filter.1 ha).2
    have hb := (List.mem_filter.1 hb).2
    simp only [decide_eq_true_eq] at ha hb
    omega

theorem bucketPass_map {β : Type*} (f : α → β) (base : ℕ) (digit : β → ℕ) (xs : List α) :
    bucketPass base digit (xs.map f) =
      (bucketPass base (digit ∘ f) xs).map f := by
  unfold bucketPass
  rw [List.map_flatMap]
  refine List.flatMap_congr fun d _ => ?_
  rw [List.filter_map]
  rfl

theorem bucketPass_congr {base : ℕ} {digit digit' : α → ℕ} {xs : List α}
    (h : ∀ x ∈ xs, digit x = digit' x) :
    bucketPass base digit xs = bucketPass base digit' xs := by
  unfold bucketPass
  refine List.flatMap_congr fun d _ => List.filter_congr fun x hx => ?_
  rw [h x hx]

section Digits

variable {base : ℕ} (key : α → ℕ)

def keyDigit (base : ℕ) (lane : ℕ) (x : α) : ℕ := key x / base ^ lane % base

/-- Ordered by the low `m` digits of the key, ties in the order `R`. -/
def SortedLow (base : ℕ) (R : α → α → Prop) (m : ℕ) (xs : List α) : Prop :=
  xs.Pairwise (fun a b => key a % base ^ m < key b % base ^ m ∨
    key a % base ^ m = key b % base ^ m ∧ R a b)

theorem lsdSort_perm (hb : 0 < base) (passes : ℕ) (xs : List α) :
    (lsdSort base (keyDigit key base) passes xs).Perm xs := by
  induction passes with
  | zero => exact List.Perm.refl _
  | succ m ih =>
    rw [lsdSort, List.range_succ, List.foldl_append]
    exact (bucketPass_perm (fun x _ => Nat.mod_lt _ hb)).trans ih

theorem lsdSort_sortedLow (hb : 0 < base) {R : α → α → Prop} {xs : List α} (h : xs.Pairwise R)
    (passes : ℕ) : SortedLow key base R passes (lsdSort base (keyDigit key base) passes xs) := by
  induction passes with
  | zero =>
    refine h.imp (fun hab => Or.inr ⟨?_, hab⟩)
    simp [Nat.mod_one]
  | succ m ih =>
    rw [lsdSort, List.range_succ, List.foldl_append]
    refine (bucketPass_pairwise ih).imp ?_
    intro a b hab
    have ha := Nat.mod_lt (key a) (Nat.pow_pos (n := m) hb)
    have hbm := Nat.mod_lt (key b) (Nat.pow_pos (n := m) hb)
    simp only [keyDigit] at hab
    rw [Nat.mod_pow_succ, Nat.mod_pow_succ]
    rcases hab with hlt | ⟨heq, hlt | ⟨heq', hR⟩⟩
    · left
      calc key a % base ^ m + base ^ m * (key a / base ^ m % base)
          < base ^ m + base ^ m * (key a / base ^ m % base) := Nat.add_lt_add_right ha _
        _ = base ^ m * (key a / base ^ m % base + 1) := by ring
        _ ≤ base ^ m * (key b / base ^ m % base) := Nat.mul_le_mul_left _ hlt
        _ ≤ key b % base ^ m + base ^ m * (key b / base ^ m % base) := Nat.le_add_left _ _
    · left
      rw [heq]
      exact Nat.add_lt_add_right hlt _
    · right
      rw [heq, heq']
      exact ⟨rfl, hR⟩

/-- Enough passes for the whole key: a stable sort. -/
theorem lsdSort_sorted (hb : 0 < base) {R : α → α → Prop} {xs : List α} (h : xs.Pairwise R)
    {passes : ℕ} (hkey : ∀ x, key x < base ^ passes) :
    (lsdSort base (keyDigit key base) passes xs).Pairwise
      (fun a b => key a < key b ∨ key a = key b ∧ R a b) := by
  refine (lsdSort_sortedLow key hb h passes).imp ?_
  intro a b hab
  rwa [Nat.mod_eq_of_lt (hkey a), Nat.mod_eq_of_lt (hkey b)] at hab

end Digits

end StableSort
