import PolarsMetal.Lib.Reads

/-! Reductions that may be split and reordered. A commutative, associative
operation with an identity gives the same total however its inputs are divided
among workers, in whatever order partial results are combined, and whether or
not partials equal to the identity are dropped. -/

namespace Reduce
open Reads

structure Reduction (α : Type*) where
  identity : α
  combine : α → α → α
  comm : ∀ a b, combine a b = combine b a
  assoc : ∀ a b c, combine (combine a b) c = combine a (combine b c)
  left_id : ∀ a, combine identity a = a

variable {α : Type*} (R : Reduction α)

def total (xs : List α) : α := xs.foldl R.combine R.identity

theorem Reduction.right_id (a : α) : R.combine a R.identity = a := by rw [R.comm, R.left_id]

theorem foldl_combine (a : α) (xs : List α) : xs.foldl R.combine a = R.combine a (total R xs) := by
  induction xs generalizing a with
  | nil => exact (R.right_id a).symm
  | cons x xs ih =>
    rw [total, List.foldl_cons, List.foldl_cons, ih, ih, R.left_id, R.assoc]

@[simp] theorem total_nil : total R [] = R.identity := rfl

theorem total_cons (x : α) (xs : List α) : total R (x :: xs) = R.combine x (total R xs) := by
  rw [total, List.foldl_cons, R.left_id, foldl_combine]

theorem total_append (xs ys : List α) :
    total R (xs ++ ys) = R.combine (total R xs) (total R ys) := by
  rw [total, List.foldl_append, foldl_combine]
  rfl

/-- Order does not matter. -/
theorem total_perm {xs ys : List α} (h : xs.Perm ys) : total R xs = total R ys := by
  induction h with
  | nil => rfl
  | cons x _ ih => rw [total_cons, total_cons, ih]
  | swap x y xs =>
    rw [total_cons, total_cons, total_cons, total_cons, ← R.assoc, R.comm y x, R.assoc]
  | trans _ _ ih₁ ih₂ => exact ih₁.trans ih₂

/-- Totals of parts combine to the total of the whole. -/
theorem total_map_total {β : Type*} (parts : List β) (f : β → List α) :
    total R (parts.map (fun p => total R (f p))) = total R (parts.flatMap f) := by
  induction parts with
  | nil => rfl
  | cons p parts ih => rw [List.map_cons, total_cons, ih, List.flatMap_cons, total_append]

/-- Partials equal to the identity may be skipped. -/
theorem total_filter {xs : List α} (keep : α → Bool)
    (h : ∀ x ∈ xs, keep x = false → x = R.identity) : total R (xs.filter keep) = total R xs := by
  induction xs with
  | nil => rfl
  | cons x xs ih =>
    obtain ⟨hx, hrest⟩ := List.forall_mem_cons.1 h
    rw [List.filter_cons, total_cons]
    split_ifs with hk
    · rw [total_cons, ih hrest]
    · rw [ih hrest, hx (by simpa using hk), R.left_id]

/-! Scattered updates: one total per bucket. -/

/-- Combine each update into its bucket, in the given order. -/
def scatter (out : List α) (updates : List (ℕ × α)) : List α :=
  updates.foldl (fun out u => out.modify u.1 (fun old => R.combine old u.2)) out

def valuesAt (g : ℕ) (updates : List (ℕ × α)) : List α :=
  updates.filterMap (fun u => if u.1 = g then some u.2 else none)

theorem valuesAt_cons (g : ℕ) (u : ℕ × α) (updates : List (ℕ × α)) :
    valuesAt g (u :: updates) =
      if u.1 = g then u.2 :: valuesAt g updates else valuesAt g updates := by
  rw [valuesAt, List.filterMap_cons]
  by_cases h : u.1 = g
  · simp [h, valuesAt]
  · simp [h, valuesAt]

@[simp] theorem length_scatter (out : List α) (updates : List (ℕ × α)) :
    (scatter R out updates).length = out.length := by
  induction updates generalizing out with
  | nil => rfl
  | cons u updates ih =>
    rw [scatter, List.foldl_cons, ← scatter, ih, List.length_modify]

theorem getD_modify (out : List α) (i : ℕ) (f : α → α) {g : ℕ} (hg : g < out.length) (d : α) :
    (out.modify i f).getD g d = if i = g then f (out.getD g d) else out.getD g d := by
  rw [getD_of_lt _ (by rwa [List.length_modify]), getD_of_lt _ hg, List.getElem_modify]

/-- A bucket holds its start value combined with the total of its own updates. -/
theorem getD_scatter (out : List α) (updates : List (ℕ × α)) {g : ℕ} (hg : g < out.length) (d : α) :
    (scatter R out updates).getD g d =
      R.combine (out.getD g d) (total R (valuesAt g updates)) := by
  induction updates generalizing out with
  | nil => exact (R.right_id _).symm
  | cons u updates ih =>
    rw [scatter, List.foldl_cons, ← scatter, ih _ (by rwa [List.length_modify]),
      getD_modify out _ _ hg, valuesAt_cons]
    split_ifs
    · rw [total_cons, R.assoc]
    · rfl

theorem valuesAt_append (g : ℕ) (us vs : List (ℕ × α)) :
    valuesAt g (us ++ vs) = valuesAt g us ++ valuesAt g vs := List.filterMap_append

theorem valuesAt_flatMap {β : Type*} (g : ℕ) (parts : List β) (f : β → List (ℕ × α)) :
    valuesAt g (parts.flatMap f) = parts.flatMap (fun p => valuesAt g (f p)) := by
  induction parts with
  | nil => rfl
  | cons p parts ih => rw [List.flatMap_cons, valuesAt_append, ih, List.flatMap_cons]

theorem valuesAt_perm {us vs : List (ℕ × α)} (h : us.Perm vs) (g : ℕ) :
    (valuesAt g us).Perm (valuesAt g vs) := h.filterMap _

end Reduce
