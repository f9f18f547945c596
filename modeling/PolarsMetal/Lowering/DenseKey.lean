import PolarsMetal.Lib.Fallible
import Mathlib.Tactic

/-! The dense-key test of the join gather, and the reorder it allows. An array's index may count from
its end, and an index outside the array is an error; the test's range check comes before its
scatter. -/

namespace PolarsMetal.Lowering.DenseKey
open Fallible

variable {α β : Type}

inductive NumpyError where
  | emptyReduction
  | indexOutOfBounds (index : ℤ) (size : ℕ)
  | shapeMismatch
deriving DecidableEq, Repr

/-- The slot an index names in an array of `size` entries. -/
def slotOf (size : ℕ) (index : ℤ) : Except NumpyError ℕ :=
  if 0 ≤ index ∧ index < size then .ok index.toNat
  else if -(size : ℤ) ≤ index ∧ index < 0 then .ok (index + size).toNat
  else .error (.indexOutOfBounds index size)

/-- The values of an assignment, one for each index; a single value goes to all of them. -/
def broadcast (n : ℕ) (values : List α) : Except NumpyError (List α) :=
  if values.length = n then .ok values
  else match values with
    | [v] => .ok (List.replicate n v)
    | _ => .error .shapeMismatch

/-- `out[key] = values` -/
def assign (out : List α) (key : List ℤ) (values : List α) : Except NumpyError (List α) := do
  let values ← broadcast key.length values
  (key.zip values).foldlM (fun out kv => do
    let slot ← slotOf out.length kv.1
    pure (out.set slot kv.2)) out

/-- The checks before the scatter. -/
def rangeCheck (key : List ℤ) (dimHeight : ℤ) : Except NumpyError Bool :=
  if dimHeight ≤ 0 ∨ (key.length : ℤ) ≠ dimHeight then .ok false
  else match key.min?, key.max? with
    | some lo, some hi => .ok (!decide (lo ≠ 0 ∨ hi ≠ dimHeight - 1))
    | _, _ => .error .emptyReduction

def isDenseKey (key : List ℤ) (dimHeight : ℤ) : Except NumpyError Bool := do
  if ← rangeCheck key dimHeight then
    let seen ← assign (List.replicate dimHeight.toNat false) key [true]
    pure (seen.all id)
  else pure false

/-- `fresh` is the array that `np.empty` returns. -/
def reorderByKey (fresh : List β) (key : List ℤ) (value : List β) : Except NumpyError (List β) :=
  assign fresh key value

/-! Assignments whose indices are in range. -/

theorem slotOf_of_mem {size k : ℕ} (h : k < size) : slotOf size k = .ok k := by
  unfold slotOf
  rw [if_pos ⟨Int.natCast_nonneg k, by exact_mod_cast h⟩, Int.toNat_natCast]

theorem foldlM_assign {writes : List (ℕ × α)} {out : List α}
    (h : ∀ w ∈ writes, w.1 < out.length) :
    (writes.map fun w => ((w.1 : ℤ), w.2)).foldlM (fun out kv => do
        let slot ← slotOf out.length kv.1
        pure (out.set slot kv.2)) out =
      .ok (writes.foldl (fun out w => out.set w.1 w.2) out) := by
  induction writes generalizing out with
  | nil => rfl
  | cons w writes ih =>
    obtain ⟨hw, hwrites⟩ := List.forall_mem_cons.1 h
    rw [List.map_cons, List.foldlM_cons, slotOf_of_mem hw]
    exact ih fun v hv => by rw [List.length_set]; exact hwrites v hv

theorem length_foldl_set (writes : List (ℕ × α)) (out : List α) :
    (writes.foldl (fun out w => out.set w.1 w.2) out).length = out.length := by
  induction writes generalizing out with
  | nil => rfl
  | cons w writes ih => rw [List.foldl_cons, ih, List.length_set]

/-- A slot that no write names keeps its entry; one that some write names holds a written value. -/
theorem getElem?_foldl_set (writes : List (ℕ × α)) (out : List α) (k : ℕ) (hk : k < out.length) :
    ((∀ w ∈ writes, w.1 ≠ k) ∧ (writes.foldl (fun out w => out.set w.1 w.2) out)[k]? = out[k]?) ∨
      ∃ w ∈ writes, w.1 = k ∧ (writes.foldl (fun out w => out.set w.1 w.2) out)[k]? = some w.2 := by
  induction writes using List.reverseRecOn with
  | nil => exact .inl ⟨by simp, rfl⟩
  | append_singleton writes w ih =>
    rw [List.foldl_append, List.foldl_cons, List.foldl_nil]
    by_cases hw : w.1 = k
    · refine .inr ⟨w, by simp, hw, ?_⟩
      rw [hw, List.getElem?_set_self (by rwa [length_foldl_set])]
    · rw [List.getElem?_set_ne hw]
      rcases ih with ⟨hnone, hkeep⟩ | ⟨v, hv, hvk, hread⟩
      · refine .inl ⟨fun v hv => ?_, hkeep⟩
        rcases List.mem_append.1 hv with hv | hv
        · exact hnone v hv
        · rwa [List.mem_singleton.1 hv]
      · exact .inr ⟨v, List.mem_append_left _ hv, hvk, hread⟩

theorem assign_eq {keys : List ℕ} {values vs out : List α}
    (hvalues : broadcast keys.length values = .ok vs) (hkeys : ∀ k ∈ keys, k < out.length) :
    assign out (keys.map fun k : ℕ => (k : ℤ)) values =
      .ok ((keys.zip vs).foldl (fun out w => out.set w.1 w.2) out) := by
  have hzip : (keys.map (fun k : ℕ => (k : ℤ))).zip vs =
      (keys.zip vs).map fun w => ((w.1 : ℤ), w.2) := by
    rw [List.zip_map_left]
    rfl
  unfold assign
  rw [List.length_map]
  refine bind_eq_ok.2 ⟨vs, hvalues, ?_⟩
  rw [hzip]
  exact foldlM_assign fun w hw => hkeys _ (List.of_mem_zip hw).1

/-! The range check. -/

/-- The check never fails, and passes when the ends are hit and nothing lies outside them. -/
theorem rangeCheck_eq (key : List ℤ) (n : ℤ) : ∃ b, rangeCheck key n = .ok b ∧
    (b = true ↔ 0 < n ∧ (key.length : ℤ) = n ∧ 0 ∈ key ∧ n - 1 ∈ key ∧
      ∀ k ∈ key, 0 ≤ k ∧ k ≤ n - 1) := by
  unfold rangeCheck
  split_ifs with hshape
  · exact ⟨false, rfl, fun h => (by cases h), fun h => by omega⟩
  have hne : key ≠ [] := fun h => hshape (by rw [h]; simp; omega)
  obtain ⟨lo, hlo⟩ := Option.isSome_iff_exists.1 (List.isSome_min?_of_ne_nil hne)
  obtain ⟨hi, hhi⟩ := Option.isSome_iff_exists.1 (List.isSome_max?_of_ne_nil hne)
  obtain ⟨hlomem, hlole⟩ := List.min?_eq_some_iff.1 hlo
  obtain ⟨himem, hhile⟩ := List.max?_eq_some_iff.1 hhi
  simp only [hlo, hhi]
  refine ⟨_, rfl, ?_⟩
  rw [Bool.not_eq_true', decide_eq_false_iff_not]
  refine ⟨fun h => ?_, fun ⟨_, _, hzero, hlast, hrange⟩ hends => ?_⟩
  · obtain rfl : lo = 0 := by omega
    obtain rfl : hi = n - 1 := by omega
    exact ⟨by omega, by omega, hlomem, himem, fun k hk => ⟨hlole k hk, hhile k hk⟩⟩
  · have h1 := hlole 0 hzero
    have h2 := (hrange lo hlomem).1
    have h3 := hhile (n - 1) hlast
    have h4 := (hrange hi himem).2
    omega

theorem exists_nat_keys {key : List ℤ} (h : ∀ k ∈ key, 0 ≤ k) :
    ∃ keys : List ℕ, key = keys.map fun k : ℕ => (k : ℤ) := by
  refine ⟨key.map Int.toNat, ?_⟩
  have hid : key.map ((fun k : ℕ => (k : ℤ)) ∘ Int.toNat) = key.map id :=
    List.map_congr_left fun k hk => Int.toNat_of_nonneg (h k hk)
  rw [List.map_map, hid, List.map_id]

/-! The scatter. -/

theorem broadcast_single (n : ℕ) (v : α) : broadcast n [v] = .ok (List.replicate n v) := by
  unfold broadcast
  split_ifs with h
  · rw [← h]
    rfl
  · rfl

theorem seen_all_iff (keys : List ℕ) (n : ℕ) :
    ((keys.zip (List.replicate keys.length true)).foldl (fun out w => out.set w.1 w.2)
      (List.replicate n false)).all id ↔ ∀ k < n, k ∈ keys := by
  have hlen := length_foldl_set (keys.zip (List.replicate keys.length true)) (List.replicate n false)
  rw [List.length_replicate] at hlen
  have hmem : ∀ k ∈ keys, (k, true) ∈ keys.zip (List.replicate keys.length true) := fun k hk => by
    obtain ⟨i, hi, rfl⟩ := List.mem_iff_getElem.1 hk
    exact List.mem_iff_getElem.2 ⟨i, by simpa using hi, by simp⟩
  have hread := fun k hk => getElem?_foldl_set (keys.zip (List.replicate keys.length true))
    (List.replicate n false) k (by simpa using hk)
  rw [List.all_eq_true]
  refine ⟨fun hall k hk => ?_, fun hall b hb => ?_⟩
  · obtain ⟨-, hkeep⟩ | ⟨w, hw, rfl, -⟩ := hread k hk
    · rw [List.getElem?_replicate, if_pos hk] at hkeep
      exact absurd (hall false (List.mem_of_getElem? hkeep)) (by simp)
    · exact (List.of_mem_zip hw).1
  · obtain ⟨k, hk, rfl⟩ := List.mem_iff_getElem.1 hb
    rw [hlen] at hk
    obtain ⟨hnone, -⟩ | ⟨w, hw, -, hsome⟩ := hread k hk
    · exact absurd rfl (hnone _ (hmem k (hall k hk)))
    · rw [List.getElem?_eq_getElem (by omega), Option.some.injEq] at hsome
      rw [hsome, List.eq_of_mem_replicate (List.of_mem_zip hw).2]
      rfl

/-- Hitting every slot with as many keys as slots is hitting each once. -/
theorem perm_range_iff {keys : List ℕ} {n : ℕ} (hlen : keys.length = n) :
    keys.Perm (List.range n) ↔ ∀ k < n, k ∈ keys := by
  refine ⟨fun h k hk => h.mem_iff.2 (List.mem_range.2 hk), fun h => ?_⟩
  have hsub : (List.range n).Subperm keys :=
    List.subperm_of_subset List.nodup_range fun k hk => h k (List.mem_range.1 hk)
  exact (hsub.perm_of_length_le (by rw [List.length_range, hlen])).symm

theorem isDenseKey_of_rangeCheck {keys : List ℕ} {n : ℕ} (hkeys : ∀ k ∈ keys, k < n)
    (hlen : keys.length = n) (hcheck : rangeCheck (keys.map fun k : ℕ => (k : ℤ)) n = .ok true) :
    ∃ b, isDenseKey (keys.map fun k : ℕ => (k : ℤ)) n = .ok b ∧
      (b = true ↔ keys.Perm (List.range n)) := by
  have hassign := @assign_eq _ keys [true] _ (List.replicate n false)
    (broadcast_single keys.length true) fun k hk => by rw [List.length_replicate]; exact hkeys k hk
  unfold isDenseKey
  rw [hcheck, Int.toNat_natCast]
  refine ⟨_, bind_eq_ok.2 ⟨true, rfl, bind_eq_ok.2 ⟨_, hassign, rfl⟩⟩, ?_⟩
  rw [seen_all_iff, perm_range_iff hlen]

/-- The slots `0..n-1` as an index array. -/
def slots (n : ℤ) : List ℤ := (List.range n.toNat).map fun k : ℕ => (k : ℤ)

theorem mem_slots {n k : ℤ} : k ∈ slots n ↔ 0 ≤ k ∧ k < n := by
  unfold slots
  rw [List.mem_map]
  refine ⟨fun ⟨j, hj, heq⟩ => ?_, fun ⟨h0, hn⟩ => ⟨k.toNat, ?_, Int.toNat_of_nonneg h0⟩⟩
  · have := List.mem_range.1 hj
    omega
  · rw [List.mem_range]
    omega

theorem length_slots (n : ℤ) : (slots n).length = n.toNat := by simp [slots]

theorem perm_map_cast {keys keys' : List ℕ} :
    (keys.map fun k : ℕ => (k : ℤ)).Perm (keys'.map fun k : ℕ => (k : ℤ)) ↔ keys.Perm keys' := by
  refine ⟨fun h => ?_, fun h => h.map _⟩
  have hid : Int.toNat ∘ (fun k : ℕ => (k : ℤ)) = id := funext Int.toNat_natCast
  have hnat := h.map Int.toNat
  rwa [List.map_map, List.map_map, hid, List.map_id, List.map_id] at hnat

/-- The test answers for every key array and every height, and says whether the keys are the slots
in some order. -/
theorem isDenseKey_spec (key : List ℤ) (n : ℤ) : ∃ b, isDenseKey key n = .ok b ∧
    (b = true ↔ 0 < n ∧ (key.length : ℤ) = n ∧ key.Perm (slots n)) := by
  obtain ⟨b, hcheck, hb⟩ := rangeCheck_eq key n
  cases b with
  | false =>
    refine ⟨false, bind_eq_ok.2 ⟨false, hcheck, rfl⟩, fun h => (by cases h), fun h => ?_⟩
    obtain ⟨hpos, hlen, hperm⟩ := h
    refine hb.2 ⟨hpos, hlen, hperm.mem_iff.2 (mem_slots.2 (by omega)),
      hperm.mem_iff.2 (mem_slots.2 (by omega)), fun k hk => ?_⟩
    have := mem_slots.1 (hperm.mem_iff.1 hk)
    omega
  | true =>
    obtain ⟨hpos, hlen, -, -, hrange⟩ := hb.1 rfl
    obtain ⟨keys, rfl⟩ := exists_nat_keys fun k hk => (hrange k hk).1
    lift n to ℕ using hpos.le
    rw [List.length_map] at hlen
    have hlen : keys.length = n := by exact_mod_cast hlen
    have hkeys : ∀ k ∈ keys, k < n := fun k hk => by
      have := (hrange k (List.mem_map_of_mem hk)).2
      omega
    obtain ⟨b, hdense, hperm⟩ := isDenseKey_of_rangeCheck hkeys hlen hcheck
    refine ⟨b, hdense, hperm.trans ⟨fun h => ⟨hpos, by simpa using hlen, ?_⟩, fun h => ?_⟩⟩
    · rw [slots, Int.toNat_natCast]
      exact perm_map_cast.2 h
    · rw [slots, Int.toNat_natCast] at h
      exact perm_map_cast.1 h.2.2

/-! The reorder. -/

/-- Over keys that are the slots in some order, each slot gets the value of the one row whose key
names it. -/
theorem reorderByKey_spec {key : List ℤ} {n : ℤ} (hperm : key.Perm (slots n)) {value fresh : List β}
    (hvalue : value.length = key.length) (hfresh : (fresh.length : ℤ) = n) :
    ∃ out, reorderByKey fresh key value = .ok out ∧ (out.length : ℤ) = n ∧
      ∀ k : ℕ, k < n → ∃ i : ℕ, key[i]? = some (k : ℤ) ∧ (∀ j : ℕ, key[j]? = some (k : ℤ) → j = i) ∧
        ∃ v, value[i]? = some v ∧ out[k]? = some v := by
  obtain ⟨keys, rfl⟩ := exists_nat_keys fun k hk => (mem_slots.1 (hperm.mem_iff.1 hk)).1
  lift n to ℕ using by omega
  have hfresh : fresh.length = n := by exact_mod_cast hfresh
  rw [slots, Int.toNat_natCast] at hperm
  have hperm := perm_map_cast.1 hperm
  rw [List.length_map] at hvalue
  have hbroadcast : broadcast keys.length value = .ok value := if_pos hvalue
  have hassign := assign_eq hbroadcast fun k hk => by
    rw [hfresh]
    exact List.mem_range.1 (hperm.mem_iff.1 hk)
  refine ⟨_, hassign, by rw [length_foldl_set, hfresh], fun k hk => ?_⟩
  have hk : k < n := by exact_mod_cast hk
  have hkey : ∀ i : ℕ, (keys.map fun k : ℕ => (k : ℤ))[i]? = some (k : ℤ) ↔ keys[i]? = some k := by
    intro i
    rw [List.getElem?_map, Option.map_eq_some_iff]
    refine ⟨fun ⟨j, hj, heq⟩ => ?_, fun h => ⟨k, h, rfl⟩⟩
    rwa [Int.ofNat_inj.1 heq] at hj
  -- the keys are distinct, so one row at most names the slot
  have hnodup : keys.Nodup := hperm.nodup_iff.2 List.nodup_range
  obtain ⟨hnone, -⟩ | ⟨w, hw, hwk, hread⟩ :=
    getElem?_foldl_set (keys.zip value) fresh k (by omega)
  · obtain ⟨i, hi, hik⟩ := List.mem_iff_getElem.1 (hperm.mem_iff.2 (List.mem_range.2 hk))
    have hmem : (k, value[i]) ∈ keys.zip value :=
      List.mem_iff_getElem.2 ⟨i, by simp; omega, by simp [hik]⟩
    exact absurd rfl (hnone _ hmem)
  · obtain ⟨i, hi, rfl⟩ := List.mem_iff_getElem.1 hw
    rw [List.length_zip] at hi
    rw [List.getElem_zip] at hwk hread
    simp only at hwk hread
    have hik : keys[i]? = some k := by rw [List.getElem?_eq_getElem (by omega), hwk]
    refine ⟨i, (hkey i).2 hik, fun j hj => ?_, value[i], List.getElem?_eq_getElem (by omega), hread⟩
    have hjk := (hkey j).1 hj
    obtain ⟨hjlt, hjget⟩ := List.getElem?_eq_some_iff.1 hjk
    exact (List.Nodup.getElem_inj_iff hnodup).1 (hjget.trans hwk.symm)

/-- The test is exact, its scatter stays inside the array, and the reorder it allows writes every
slot once. -/
theorem denseKey_exact (key : List ℤ) (n : ℤ) :
    (∃ b, isDenseKey key n = .ok b ∧
      (b = true ↔ 0 < n ∧ (key.length : ℤ) = n ∧ key.Perm (slots n))) ∧
    (rangeCheck key n = .ok true → ∀ k ∈ key, 0 ≤ k ∧ k < n) ∧
    ∀ (β : Type) (value fresh : List β), value.length = key.length → (fresh.length : ℤ) = n →
      isDenseKey key n = .ok true →
      ∃ out, reorderByKey fresh key value = .ok out ∧ (out.length : ℤ) = n ∧
        ∀ k : ℕ, k < n → ∃ i : ℕ, key[i]? = some (k : ℤ) ∧
          (∀ j : ℕ, key[j]? = some (k : ℤ) → j = i) ∧
          ∃ v, value[i]? = some v ∧ out[k]? = some v := by
  refine ⟨isDenseKey_spec key n, fun hcheck k hk => ?_, fun β value fresh hvalue hfresh hdense => ?_⟩
  · obtain ⟨b, heq, hb⟩ := rangeCheck_eq key n
    obtain rfl : b = true := by
      rw [heq] at hcheck
      exact Except.ok.inj hcheck
    have := (hb.1 rfl).2.2.2.2 k hk
    omega
  · obtain ⟨b, heq, hb⟩ := isDenseKey_spec key n
    obtain rfl : b = true := by
      rw [heq] at hdense
      exact Except.ok.inj hdense
    exact reorderByKey_spec (hb.1 rfl).2.2 hvalue hfresh

/-- A dense key in another order, one with a repeat and one with a negative entry. -/
example : isDenseKey [2, 0, 3, 1] 4 = .ok true ∧ isDenseKey [3, 0, 3, 1] 4 = .ok false ∧
    isDenseKey [-1, 0, 1, 2] 4 = .ok false ∧
    reorderByKey ["", "", "", ""] [2, 0, 3, 1] ["a", "b", "c", "d"] = .ok ["b", "d", "a", "c"] :=
  ⟨rfl, rfl, rfl, rfl⟩

end PolarsMetal.Lowering.DenseKey
