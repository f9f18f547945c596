import Mathlib.Tactic

/-! Reads of a list with a default, after writes and maps. -/

namespace Reads

variable {α β : Type*}

theorem getD_set (l : List α) {i : ℕ} (j : ℕ) (a d : α) (hi : i < l.length) :
    (l.set i a).getD j d = if i = j then a else l.getD j d := by
  rw [List.getD_eq_getElem?_getD, List.getElem?_set, List.getD_eq_getElem?_getD]
  split_ifs with h <;> simp_all

theorem getD_map (f : α → β) (l : List α) (i : ℕ) (a : α) :
    (l.map f).getD i (f a) = f (l.getD i a) := by
  simp only [List.getD_eq_getElem?_getD, List.getElem?_map]
  cases l[i]? <;> rfl

theorem getD_replicate (n i : ℕ) (a : α) : (List.replicate n a).getD i a = a := by
  rw [List.getD_eq_getElem?_getD, List.getElem?_replicate]
  split_ifs <;> rfl

theorem getD_of_lt (l : List α) {i : ℕ} (hi : i < l.length) (d : α) : l.getD i d = l[i] := by
  rw [List.getD_eq_getElem?_getD, List.getElem?_eq_getElem hi, Option.getD_some]

/-- A list is determined by its length and its reads. -/
theorem ext_getD {l l' : List α} (d : α) (hlen : l.length = l'.length)
    (h : ∀ i < l.length, l.getD i d = l'.getD i d) : l = l' := by
  apply List.ext_getElem hlen
  intro i hi hi'
  rw [← getD_of_lt l hi d, ← getD_of_lt l' hi' d, h i hi]

theorem zip_eq_map_range {xs : List α} {ys : List β} (h : xs.length = ys.length)
    (d : α) (e : β) :
    xs.zip ys = (List.range xs.length).map (fun r => (xs.getD r d, ys.getD r e)) := by
  refine List.ext_getElem (by simp [h]) fun i hi hi' => ?_
  have hx : i < xs.length := by simpa using hi'
  rw [List.getElem_zip, List.getElem_map, List.getElem_range, getD_of_lt _ hx,
    getD_of_lt _ (h ▸ hx)]

end Reads
