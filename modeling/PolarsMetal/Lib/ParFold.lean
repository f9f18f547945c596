import PolarsMetal.Lib.Reduce

/-! Folds that a scheduler may divide. The items are cut into runs along a binary tree; each run
is folded from the identity, and the partial results are reduced up the tree. -/

namespace ParFold
open Reads Reduce

/-- How a run of items is divided: folded by one worker, or cut after `at` items. -/
inductive Split where
  | leaf
  | node (cut : ℕ) (left right : Split)

variable {ι α β : Type*}

def foldReduce (identity : α) (fold : α → ι → α) (reduce : α → α → α) : Split → List ι → α
  | .leaf, items => reduce identity (items.foldl fold identity)
  | .node cut left right, items =>
    reduce (foldReduce identity fold reduce left (items.take cut))
      (foldReduce identity fold reduce right (items.drop cut))

/-- A division computes what one worker computes as soon as that splits at every cut. -/
theorem foldReduce_eq {identity : α} {fold : α → ι → α} {reduce : α → α → α} {whole : List ι → α}
    (hleaf : ∀ items, reduce identity (items.foldl fold identity) = whole items)
    (happend : ∀ xs ys, whole (xs ++ ys) = reduce (whole xs) (whole ys)) (split : Split)
    (items : List ι) : foldReduce identity fold reduce split items = whole items := by
  induction split generalizing items with
  | leaf => exact hleaf items
  | node cut left right ihl ihr =>
    unfold foldReduce
    rw [ihl, ihr, ← happend, List.take_append_drop]

/-- What a division computes of the items, from what one fold and one reduce do. -/
theorem foldReduce_induct {identity : α} {fold : α → ι → α} {reduce : α → α → α}
    {P : List ι → α → Prop} (hidentity : P [] identity)
    (hfold : ∀ items a i, P items a → P (items ++ [i]) (fold a i))
    (hreduce : ∀ xs ys a b, P xs a → P ys b → P (xs ++ ys) (reduce a b)) (split : Split)
    (items : List ι) : P items (foldReduce identity fold reduce split items) := by
  have hleaf : ∀ items : List ι, P items (items.foldl fold identity) := by
    intro items
    induction items using List.reverseRecOn with
    | nil => exact hidentity
    | append_singleton items i ih =>
      rw [List.foldl_concat]
      exact hfold items _ i ih
  induction split generalizing items with
  | leaf => exact hreduce [] items _ _ hidentity (hleaf items)
  | node cut left right ihl ihr =>
    unfold foldReduce
    have hjoin := hreduce _ _ _ _ (ihl (items.take cut)) (ihr (items.drop cut))
    rwa [List.take_append_drop] at hjoin

/-- Two accumulators that ignore each other may be folded apart. -/
theorem foldReduce_prod {a₀ : α} {b₀ : β} {foldA : α → ι → α} {foldB : β → ι → β}
    {reduceA : α → α → α} {reduceB : β → β → β} (split : Split) (items : List ι) :
    foldReduce (a₀, b₀) (fun acc i => (foldA acc.1 i, foldB acc.2 i))
        (fun x y => (reduceA x.1 y.1, reduceB x.2 y.2)) split items =
      (foldReduce a₀ foldA reduceA split items, foldReduce b₀ foldB reduceB split items) := by
  have hfold : ∀ (items : List ι) (a : α) (b : β),
      items.foldl (fun acc i => (foldA acc.1 i, foldB acc.2 i)) (a, b) =
        (items.foldl foldA a, items.foldl foldB b) := by
    intro items
    induction items with
    | nil => intro a b; rfl
    | cons i items ih => intro a b; rw [List.foldl_cons, ih]; rfl
  induction split generalizing items with
  | leaf =>
    unfold foldReduce
    rw [hfold]
  | node cut left right ihl ihr =>
    unfold foldReduce
    rw [ihl, ihr]

/-! Accumulators that hold one reduction a bucket. -/

section Buckets

variable (R : Reduction α) (n : ℕ) (update : ι → Option (ℕ × α))

/-- Apply an item's update to its bucket. -/
def applyUpdate (acc : List α) (i : ι) : List α :=
  match update i with
  | none => acc
  | some u => acc.modify u.1 (fun old => R.combine old u.2)

/-- The buckets a single worker ends with. -/
def buckets (items : List ι) : List α :=
  scatter R (List.replicate n R.identity) (items.filterMap update)

theorem foldl_applyUpdate (acc : List α) (items : List ι) :
    items.foldl (applyUpdate R update) acc = scatter R acc (items.filterMap update) := by
  induction items generalizing acc with
  | nil => rfl
  | cons i items ih =>
    rw [List.foldl_cons, ih, List.filterMap_cons, applyUpdate]
    cases update i with
    | none => rfl
    | some u => rfl

@[simp] theorem length_buckets (items : List ι) : (buckets R n update items).length = n := by
  rw [buckets, length_scatter, List.length_replicate]

theorem getD_buckets (items : List ι) {g : ℕ} (hg : g < n) (d : α) :
    (buckets R n update items).getD g d = total R (valuesAt g (items.filterMap update)) := by
  rw [buckets, getD_scatter _ _ _ (by rwa [List.length_replicate]),
    getD_of_lt _ (by rwa [List.length_replicate]), List.getElem_replicate, R.left_id]

theorem zipWith_replicate_identity {xs : List α} (h : xs.length = n) :
    List.zipWith R.combine (List.replicate n R.identity) xs = xs := by
  refine List.ext_getElem (by simp [h]) (fun g _ hg => ?_)
  rw [List.getElem_zipWith, List.getElem_replicate, R.left_id]

theorem buckets_append (xs ys : List ι) : buckets R n update (xs ++ ys) =
    List.zipWith R.combine (buckets R n update xs) (buckets R n update ys) := by
  refine List.ext_getElem (by simp) (fun g hg _ => ?_)
  have hn : g < n := by simpa using hg
  have hcell : ∀ (items : List ι) (h : g < (buckets R n update items).length),
      (buckets R n update items)[g] = total R (valuesAt g (items.filterMap update)) := by
    intro items h
    rw [← getD_buckets R n update items hn R.identity, getD_of_lt _ h]
  rw [List.getElem_zipWith, hcell, hcell, hcell, List.filterMap_append, valuesAt_append,
    total_append]

/-- However the items are divided, the buckets are those of a single worker. -/
theorem foldReduce_buckets (split : Split) (items : List ι) :
    foldReduce (List.replicate n R.identity) (applyUpdate R update) (List.zipWith R.combine)
      split items = buckets R n update items := by
  refine foldReduce_eq (fun items => ?_) (buckets_append R n update) split items
  rw [foldl_applyUpdate, ← buckets, zipWith_replicate_identity R n (length_buckets R n update items)]

end Buckets

/-! The reduction that keeps a least element. -/

section Least

variable {κ : Type*} [LinearOrder κ]

/-- Keep the element of smaller key; `top` has the largest. -/
def least (key : α → κ) (hkey : Function.Injective key) (top : α) (htop : ∀ a, key a ≤ key top) :
    Reduction α :=
  have hmin : ∀ a b, key (if key b < key a then b else a) = min (key a) (key b) := by
    intro a b
    split_ifs with h
    · exact (min_eq_right h.le).symm
    · exact (min_eq_left (not_lt.1 h)).symm
  { identity := top
    combine := fun a b => if key b < key a then b else a
    comm := fun a b => hkey (by rw [hmin, hmin, min_comm])
    assoc := fun a b c => hkey (by rw [hmin, hmin, hmin, hmin, min_assoc])
    left_id := fun a => hkey (by rw [hmin, min_eq_right (htop a)]) }

variable {key : α → κ} {hkey : Function.Injective key} {top : α} {htop : ∀ a, key a ≤ key top}

theorem key_combine_least (a b : α) :
    key ((least key hkey top htop).combine a b) = min (key a) (key b) := by
  change key (if key b < key a then b else a) = _
  split_ifs with h
  · exact (min_eq_right h.le).symm
  · exact (min_eq_left (not_lt.1 h)).symm

theorem key_total_least_le {xs : List α} {x : α} (hx : x ∈ xs) :
    key (total (least key hkey top htop) xs) ≤ key x := by
  induction xs with
  | nil => cases hx
  | cons y xs ih =>
    have hcombine := @key_combine_least _ _ _ key hkey top htop y
      (total (least key hkey top htop) xs)
    rw [total_cons, hcombine]
    obtain rfl | hx := List.mem_cons.1 hx
    · exact min_le_left _ _
    · exact (min_le_right _ _).trans (ih hx)

/-- The total of a nonempty list is one of its elements, also when that is the start value. -/
theorem total_least_mem {xs : List α} (hxs : xs ≠ []) :
    total (least key hkey top htop) xs ∈ xs := by
  induction xs with
  | nil => exact absurd rfl hxs
  | cons y xs ih =>
    rw [total_cons]
    by_cases hnil : xs = []
    · rw [hnil, total_nil, Reduction.right_id]
      exact List.mem_cons_self
    · change (if key (total (least key hkey top htop) xs) < key y
        then total (least key hkey top htop) xs else y) ∈ _
      split_ifs
      · exact List.mem_cons_of_mem _ (ih hnil)
      · exact List.mem_cons_self

end Least

/-! The reduction that remembers whether anything was seen. -/

def anySeen : Reduction Bool where
  identity := false
  combine := or
  comm := Bool.or_comm
  assoc := Bool.or_assoc
  left_id := Bool.false_or

theorem total_anySeen (xs : List Bool) : total anySeen xs = xs.any id := by
  induction xs with
  | nil => rfl
  | cons x xs ih =>
    rw [total_cons, ih]
    rfl

end ParFold
