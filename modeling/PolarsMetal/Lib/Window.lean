import Mathlib.Tactic

/-! Windows of a list: the entries between two positions, and the two ways a pair of integers
names one. A dataframe slice counts a negative offset from the end and clamps both ends; a
Python slice treats each of its two bounds that way on its own. -/

namespace Window

variable {α : Type*}

def window (lo hi : ℕ) (xs : List α) : List α := (xs.drop lo).take (hi - lo)

/-- The positions a dataframe slice names in `m` rows. -/
def sliceBounds (offset : ℤ) (length m : ℕ) : ℕ × ℕ :=
  let start := if offset < 0 then offset + m else offset
  let stop := start + length
  ((max 0 (min start m)).toNat, (max 0 (min stop m)).toNat)

def slice (offset : ℤ) (length : ℕ) (xs : List α) : List α :=
  window (sliceBounds offset length xs.length).1 (sliceBounds offset length xs.length).2 xs

/-- Where a bound of a Python slice falls in `m` entries. -/
def pyIndex (i : ℤ) (m : ℕ) : ℕ := (if i < 0 then max 0 (i + m) else min i m).toNat

/-- `xs[lo:hi]`. -/
def pySlice (lo hi : ℤ) (xs : List α) : List α :=
  window (pyIndex lo xs.length) (pyIndex hi xs.length) xs

theorem length_window {lo hi : ℕ} {xs : List α} (h : hi ≤ xs.length) :
    (window lo hi xs).length = hi - lo := by
  rw [window, List.length_take, List.length_drop]
  omega

theorem window_of_le {lo hi : ℕ} (h : hi ≤ lo) (xs : List α) : window lo hi xs = [] := by
  rw [window, Nat.sub_eq_zero_of_le h, List.take_zero]

theorem window_all (xs : List α) : window 0 xs.length xs = xs := by
  rw [window, List.drop_zero, Nat.sub_zero, List.take_length]

theorem getElem?_window {lo hi i : ℕ} (xs : List α) (h : i < hi - lo) :
    (window lo hi xs)[i]? = xs[lo + i]? := by
  rw [window, List.getElem?_take_of_lt h, List.getElem?_drop]

theorem sliceBounds_le (offset : ℤ) (length m : ℕ) :
    (sliceBounds offset length m).1 ≤ m ∧ (sliceBounds offset length m).2 ≤ m := by
  unfold sliceBounds
  refine ⟨?_, ?_⟩ <;> simp only <;> omega

theorem pyIndex_le (i : ℤ) (m : ℕ) : pyIndex i m ≤ m := by
  unfold pyIndex
  split_ifs <;> omega

/-- A window of the reversed list, read from the other end. -/
theorem window_reverse {lo hi : ℕ} {xs : List α} (hlo : lo ≤ hi) (hhi : hi ≤ xs.length) :
    window lo hi xs.reverse = (window (xs.length - hi) (xs.length - lo) xs).reverse := by
  have hlen : xs.length - lo - (xs.length - hi) = hi - lo := by omega
  apply List.ext_getElem?
  intro i
  by_cases hi' : i < hi - lo
  · rw [getElem?_window _ hi', List.getElem?_reverse (by omega),
      List.getElem?_reverse (by rw [length_window (by omega)]; omega),
      length_window (Nat.sub_le _ _), hlen, getElem?_window _ (by omega)]
    congr 1
    omega
  · rw [List.getElem?_eq_none (by rw [length_window (by simpa using hhi)]; omega),
      List.getElem?_eq_none (by rw [List.length_reverse, length_window (Nat.sub_le _ _)]; omega)]

/-- Two windows of the same width hold the same entries exactly position by position. -/
theorem window_eq_iff {lo hi lo' hi' : ℕ} {xs : List α} (h : hi ≤ xs.length) (h' : hi' ≤ xs.length)
    (hw : hi - lo = hi' - lo') :
    window lo hi xs = window lo' hi' xs ↔ ∀ i < hi - lo, xs[lo + i]? = xs[lo' + i]? := by
  refine ⟨fun heq i hi₀ => ?_, fun hall => List.ext_getElem? (fun i => ?_)⟩
  · rw [← getElem?_window xs hi₀, ← @getElem?_window _ lo' hi' i xs (by omega), heq]
  · by_cases hi₀ : i < hi - lo
    · rw [getElem?_window _ hi₀, getElem?_window _ (by omega), hall i hi₀]
    · rw [List.getElem?_eq_none (by rw [length_window h]; omega),
        List.getElem?_eq_none (by rw [length_window h']; omega)]

/-- In a sorted list the first and last windows of one width agree only if all entries do. -/
theorem window_ends_eq_iff {β : Type*} [PartialOrder β] {xs : List β} (hs : xs.Pairwise (· ≤ ·))
    {k : ℕ} (hk : 0 < k) (hkm : k < xs.length) :
    window 0 k xs = window (xs.length - k) xs.length xs ↔ ∀ x ∈ xs, ∀ y ∈ xs, x = y := by
  have hwidth : k - 0 = xs.length - (xs.length - k) := by omega
  rw [window_eq_iff hkm.le le_rfl hwidth]
  refine ⟨fun h => ?_, fun h i hi => ?_⟩
  · -- entry `i` equals entry `i + (m - k)`, and everything between them by order
    have hstep : ∀ i (hi : i + 1 < xs.length), xs[i] = xs[i + 1] := by
      intro i hi
      have hle : xs[i] ≤ xs[i + 1] := List.pairwise_iff_getElem.1 hs i (i + 1) _ _ (by omega)
      refine le_antisymm hle ?_
      -- the last index below `k` that is at most `i`
      obtain ⟨j, hj, hji, hij⟩ : ∃ j < k, j ≤ i ∧ i + 1 ≤ j + (xs.length - k) := by
        by_cases hik : i < k
        · exact ⟨i, hik, le_rfl, by omega⟩
        · exact ⟨k - 1, by omega, by omega, by omega⟩
      have heq := h j (by omega)
      rw [Nat.zero_add, List.getElem?_eq_getElem (by omega), List.getElem?_eq_getElem (by omega),
        Option.some.injEq] at heq
      have hmono : ∀ a b (ha : a < xs.length) (hb : b < xs.length), a ≤ b → xs[a] ≤ xs[b] := by
        intro a b ha hb hab
        rcases hab.lt_or_eq with hlt | rfl
        · exact List.pairwise_iff_getElem.1 hs a b ha hb hlt
        · exact le_rfl
      calc xs[i + 1] ≤ xs[xs.length - k + j] := hmono _ _ _ (by omega) (by omega)
        _ = xs[j] := heq.symm
        _ ≤ xs[i] := hmono _ _ (by omega) (by omega) hji
    have hfirst : ∀ i (hi : i < xs.length), xs[0] = xs[i] := by
      intro i
      induction i with
      | zero => exact fun _ => rfl
      | succ i ih => exact fun hi => (ih (by omega)).trans (hstep i hi)
    intro x hx y hy
    obtain ⟨i, hi, rfl⟩ := List.getElem_of_mem hx
    obtain ⟨j, hj, rfl⟩ := List.getElem_of_mem hy
    rw [← hfirst i hi, ← hfirst j hj]
  · rw [List.getElem?_eq_getElem (by omega), List.getElem?_eq_getElem (by omega), Option.some.injEq]
    exact h _ (List.getElem_mem _) _ (List.getElem_mem _)

/-! The bounds by the sign of the offset. -/

theorem sliceBounds_ofNat (o length m : ℕ) :
    sliceBounds o length m = (min o m, min (o + length) m) := by
  unfold sliceBounds
  rw [if_neg (by omega)]
  refine Prod.ext ?_ ?_ <;> simp only <;> omega

theorem slice_of_length_le {length : ℕ} {xs : List α} (h : xs.length ≤ length) : slice 0 length xs = xs := by
  have hbounds := sliceBounds_ofNat 0 length xs.length
  rw [Nat.zero_min, Nat.zero_add, Nat.min_eq_right h, Nat.cast_zero] at hbounds
  rw [slice, hbounds]
  exact window_all xs

theorem sliceBounds_neg {k : ℕ} (hk : 0 < k) (length m : ℕ) :
    sliceBounds (-k) length m = (m - k, min (m + length - k) m) := by
  unfold sliceBounds
  rw [if_pos (by omega)]
  refine Prod.ext ?_ ?_ <;> simp only <;> omega

theorem pyIndex_ofNat (i m : ℕ) : pyIndex i m = min i m := by
  unfold pyIndex
  rw [if_neg (by omega)]
  omega

theorem pyIndex_neg {k : ℕ} (hk : 0 < k) (m : ℕ) : pyIndex (-k) m = m - k := by
  unfold pyIndex
  rw [if_pos (by omega)]
  omega

end Window
