import Mathlib.Tactic

/-! Buckets laid end to end in one array. Entry `i` of bucket `b` has its own cell, the cells fill
the array, and an array with every entry in its cell is the buckets joined. -/

namespace Placement

variable {α : Type*}

/-- Where bucket `b` starts, from the sizes of the buckets. -/
def start (sizes : List ℕ) (b : ℕ) : ℕ := (sizes.take b).sum

theorem start_zero (sizes : List ℕ) : start sizes 0 = 0 := by simp [start]

theorem start_succ {sizes : List ℕ} {b : ℕ} (hb : b < sizes.length) :
    start sizes (b + 1) = start sizes b + sizes[b] := by
  unfold start
  exact List.sum_take_succ sizes b hb

theorem start_length (sizes : List ℕ) : start sizes sizes.length = sizes.sum := by
  unfold start
  rw [List.take_length]

theorem start_mono (sizes : List ℕ) {b c : ℕ} (h : b ≤ c) : start sizes b ≤ start sizes c := by
  induction h with
  | refl => exact le_refl _
  | step h ih =>
    rename_i c
    by_cases hc : c < sizes.length
    · rw [start_succ hc]
      omega
    · have hall : sizes.take (c + 1) = sizes.take c := by
        rw [List.take_of_length_le (show sizes.length ≤ c + 1 by omega),
          List.take_of_length_le (show sizes.length ≤ c by omega)]
      unfold start at *
      rwa [hall]

/-- Cells of different buckets are different. -/
theorem cell_inj {sizes : List ℕ} {b c i j : ℕ} (hb : b < sizes.length) (hc : c < sizes.length)
    (hi : i < sizes[b]) (hj : j < sizes[c]) (h : start sizes b + i = start sizes c + j) :
    b = c ∧ i = j := by
  rcases Nat.lt_trichotomy b c with hlt | heq | hlt
  · have := start_mono sizes (show b + 1 ≤ c from hlt)
    rw [start_succ hb] at this
    omega
  · subst heq
    exact ⟨rfl, by omega⟩
  · have := start_mono sizes (show c + 1 ≤ b from hlt)
    rw [start_succ hc] at this
    omega

theorem cell_lt {sizes : List ℕ} {b i : ℕ} (hb : b < sizes.length) (hi : i < sizes[b]) :
    start sizes b + i < sizes.sum := by
  have := start_mono sizes (show b + 1 ≤ sizes.length from hb)
  rw [start_length, start_succ hb] at this
  omega

def sizes (buckets : List (List α)) : List ℕ := buckets.map List.length

/-- The joined buckets hold each entry in its cell. -/
theorem getElem?_flatten (buckets : List (List α)) {b i : ℕ} (hb : b < buckets.length)
    (hi : i < buckets[b].length) :
    buckets.flatten[start (sizes buckets) b + i]? = some buckets[b][i] := by
  induction buckets generalizing b with
  | nil => exact absurd hb (Nat.not_lt_zero b)
  | cons bucket buckets ih =>
    rw [List.flatten_cons]
    cases b with
    | zero =>
      rw [start_zero, Nat.zero_add]
      rw [List.getElem_cons_zero] at hi
      rw [List.getElem?_append_left hi]
      exact List.getElem?_eq_getElem hi
    | succ b =>
      have hrest := ih (b := b) (by simpa using hb) (by simpa using hi)
      have hstart : start (sizes (bucket :: buckets)) (b + 1) =
          bucket.length + start (sizes buckets) b := by
        unfold start sizes
        rw [List.map_cons, List.take_succ_cons, List.sum_cons]
      rw [hstart, List.getElem?_append_right (by omega),
        show bucket.length + start (sizes buckets) b + i - bucket.length =
          start (sizes buckets) b + i by omega, hrest]
      rfl

theorem length_flatten (buckets : List (List α)) :
    buckets.flatten.length = (sizes buckets).sum := by
  rw [List.length_flatten]
  rfl

/-- Every cell belongs to an entry of a bucket. -/
theorem exists_cell {sizes : List ℕ} {j : ℕ} (hj : j < sizes.sum) :
    ∃ b i, ∃ h : b < sizes.length, i < sizes[b] ∧ start sizes b + i = j := by
  induction sizes generalizing j with
  | nil => simp at hj
  | cons size sizes ih =>
    by_cases hlt : j < size
    · exact ⟨0, j, by simp, by simpa using hlt, by rw [start_zero, Nat.zero_add]⟩
    · rw [List.sum_cons] at hj
      obtain ⟨b, i, hb, hi, heq⟩ := ih (j := j - size) (by omega)
      refine ⟨b + 1, i, by simpa using hb, by simpa using hi, ?_⟩
      unfold start at *
      rw [List.take_succ_cons, List.sum_cons]
      omega

/-- An array with every entry in its cell is the buckets joined. -/
theorem eq_flatten {buckets : List (List α)} {out : List α}
    (hlen : out.length = (sizes buckets).sum)
    (h : ∀ b (hb : b < buckets.length), ∀ i (hi : i < buckets[b].length),
      out[start (sizes buckets) b + i]? = some buckets[b][i]) : out = buckets.flatten := by
  refine List.ext_getElem? fun j => ?_
  by_cases hj : j < (sizes buckets).sum
  · obtain ⟨b, i, hb, hi, rfl⟩ := exists_cell hj
    have hb' : b < buckets.length := by simpa [sizes] using hb
    have hi' : i < buckets[b].length := by simpa [sizes] using hi
    rw [h b hb' i hi', getElem?_flatten buckets hb' hi']
  · rw [List.getElem?_eq_none (by omega), List.getElem?_eq_none (by rw [length_flatten]; omega)]

/-- The slice of bucket `b` is the bucket. -/
theorem slice_flatten {buckets : List (List α)} {b : ℕ} (hb : b < buckets.length) :
    (buckets.flatten.take (start (sizes buckets) (b + 1))).drop (start (sizes buckets) b) =
      buckets[b] := by
  have hb' : b < (sizes buckets).length := by simpa [sizes] using hb
  have hsize : (sizes buckets)[b] = buckets[b].length := by simp [sizes]
  have hle := start_mono (sizes buckets) (show b + 1 ≤ (sizes buckets).length from hb')
  rw [start_length, ← length_flatten] at hle
  rw [start_succ hb', hsize] at hle ⊢
  refine List.ext_getElem (by rw [List.length_drop, List.length_take]; omega) fun i hi hi' => ?_
  have hcell := getElem?_flatten buckets hb hi'
  rw [List.getElem_drop, List.getElem_take]
  exact Option.some.inj ((List.getElem?_eq_getElem _).symm.trans hcell)

/-! Ranks: the entry of a filtered list that stands behind `count` others. -/

theorem length_filter_range (p : ℕ → Prop) [DecidablePred p] (n : ℕ) :
    ((List.range n).filter p).length = Nat.count p n := by
  induction n with
  | zero => rfl
  | succ n ih =>
    rw [List.range_succ, List.filter_append, List.length_append, ih, Nat.count_succ,
      List.filter_singleton]
    by_cases hp : p n
    · rw [if_pos hp, decide_eq_true hp, cond_true, List.length_singleton]
    · rw [if_neg hp, decide_eq_false hp, cond_false, List.length_nil]

theorem getElem?_filter_range {p : ℕ → Prop} [DecidablePred p] {n i : ℕ} (hi : i < n) (hp : p i) :
    ((List.range n).filter p)[Nat.count p i]? = some i := by
  obtain ⟨k, rfl⟩ := Nat.exists_eq_add_of_le (Nat.succ_le_of_lt hi)
  rw [List.range_add, List.range_succ, List.filter_append, List.filter_append,
    List.filter_singleton, decide_eq_true hp, cond_true, List.append_assoc, ← length_filter_range]
  rw [List.getElem?_append_right (Nat.le_refl _), Nat.sub_self]
  rfl

end Placement
