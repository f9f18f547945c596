import PolarsMetal.Lib.Runs
import Mathlib.Data.List.Induction
import Mathlib.Logic.Function.Basic

/-! Threads whose operations do not depend on what the others write: each has its list of
operations and takes one at a time, in any order among the threads. -/

namespace Interleave
open Runs

variable {Mem Op α : Type*}

structure State (Mem : Type*) where
  mem : Mem
  taken : ℕ → ℕ

def step (ops : ℕ → List Op) (apply : Mem → Op → Mem) (s : State Mem) (t : ℕ) : State Mem :=
  match (ops t)[s.taken t]? with
  | some op => ⟨apply s.mem op, Function.update s.taken t (s.taken t + 1)⟩
  | none => s

theorem step_of_some {ops : ℕ → List Op} (apply : Mem → Op → Mem) {s : State Mem} {t : ℕ} {op : Op}
    (h : (ops t)[s.taken t]? = some op) : step ops apply s t =
      ⟨apply s.mem op, Function.update s.taken t (s.taken t + 1)⟩ := by
  rw [step, h]

theorem step_of_none {ops : ℕ → List Op} (apply : Mem → Op → Mem) {s : State Mem} {t : ℕ}
    (h : (ops t)[s.taken t]? = none) : step ops apply s t = s := by
  rw [step, h]

/-- The memory after `order`, the threads' turns. -/
def exec (ops : ℕ → List Op) (apply : Mem → Op → Mem) (mem : Mem) (order : List ℕ) : Mem :=
  (run (step ops apply) ⟨mem, fun _ => 0⟩ order).mem

/-- Each of the first `n` threads gets enough turns to finish. -/
def Complete (ops : ℕ → List Op) (n : ℕ) (order : List ℕ) : Prop :=
  ∀ t < n, (ops t).length ≤ order.count t

instance (ops : ℕ → List Op) (n : ℕ) (order : List ℕ) : Decidable (Complete ops n order) :=
  inferInstanceAs (Decidable (∀ t < n, (ops t).length ≤ order.count t))

/-- `trace` is a record of a run of the first `n` threads: its operations in the order they took
effect. -/
structure Traced (ops : ℕ → List Op) (apply : Mem → Op → Mem) (mem : Mem) (n : ℕ) (order : List ℕ)
    (trace : List Op) : Prop where
  mem_eq : (run (step ops apply) ⟨mem, fun _ => 0⟩ order).mem = trace.foldl apply mem
  taken_eq : ∀ t, (run (step ops apply) ⟨mem, fun _ => 0⟩ order).taken t =
    min (order.count t) (ops t).length
  perm : trace.Perm ((List.range n).flatMap fun t => (ops t).take (order.count t))

/-- One thread's part of a joined list grows. -/
theorem flatMap_grow {n t : ℕ} (ht : t < n) {f g : ℕ → List Op} {rest : List Op}
    (hself : g t = f t ++ rest) (hother : ∀ u, u ≠ t → g u = f u) :
    ((List.range n).flatMap g).Perm ((List.range n).flatMap f ++ rest) := by
  induction n with
  | zero => exact absurd ht (Nat.not_lt_zero t)
  | succ n ih =>
    rw [List.range_succ, List.flatMap_append, List.flatMap_append, List.flatMap_singleton,
      List.flatMap_singleton]
    by_cases hn : t = n
    · subst hn
      have hsame : (List.range t).flatMap g = (List.range t).flatMap f :=
        List.flatMap_congr fun u hu => hother u (Nat.ne_of_lt (List.mem_range.1 hu))
      rw [hself, hsame, List.append_assoc]
    · rw [hother n (Ne.symm hn), List.append_assoc]
      refine ((ih (by omega)).append_right _).trans ?_
      rw [List.append_assoc]
      exact List.perm_append_comm.append_left _

theorem exists_trace {ops : ℕ → List Op} (apply : Mem → Op → Mem) (mem : Mem) {n : ℕ}
    (hidle : ∀ t, n ≤ t → ops t = []) (order : List ℕ) :
    ∃ trace, Traced ops apply mem n order trace := by
  induction order using List.reverseRecOn with
  | nil => exact ⟨[], rfl, fun t => by simp [run], by simp⟩
  | append_singleton order t ih =>
    obtain ⟨trace, h⟩ := ih
    have hrun : run (step ops apply) ⟨mem, fun _ => 0⟩ (order ++ [t]) =
        step ops apply (run (step ops apply) ⟨mem, fun _ => 0⟩ order) t := by
      rw [run_append]; rfl
    have hcount : ∀ t', t' ≠ t → (order ++ [t]).count t' = order.count t' := fun t' ht => by
      rw [List.count_append, List.count_singleton, if_neg (by simpa using Ne.symm ht)]
      rfl
    have hself : (order ++ [t]).count t = order.count t + 1 := by simp
    by_cases hlt : order.count t < (ops t).length
    · have htaken : (run (step ops apply) ⟨mem, fun _ => 0⟩ order).taken t = order.count t := by
        rw [h.taken_eq]; omega
      obtain ⟨op, hop⟩ : ∃ op, (ops t)[order.count t]? = some op :=
        ⟨_, List.getElem?_eq_getElem hlt⟩
      have ht : t < n := by
        by_contra hge
        rw [hidle t (by omega)] at hlt
        exact absurd hlt (Nat.not_lt_zero _)
      rw [step_of_some apply (htaken.symm ▸ hop), htaken] at hrun
      refine ⟨trace ++ [op], ?_, fun t' => ?_, ?_⟩
      · simp only [hrun, List.foldl_append, ← h.mem_eq, List.foldl_cons, List.foldl_nil]
      · simp only [hrun]
        by_cases ht : t' = t
        · subst ht
          rw [Function.update_self, hself]
          omega
        · rw [Function.update_of_ne ht, h.taken_eq, hcount t' ht]
      · refine (h.perm.append_right [op]).trans (flatMap_grow ht ?_ fun u hu => ?_).symm
        · rw [hself, List.take_add_one, hop, Option.toList_some]
        · rw [hcount u hu]
    · have hop : (ops t)[(run (step ops apply) ⟨mem, fun _ => 0⟩ order).taken t]? = none := by
        rw [h.taken_eq, List.getElem?_eq_none (by omega)]
      rw [step_of_none apply hop] at hrun
      refine ⟨trace, ?_, fun t' => ?_, ?_⟩
      · rw [hrun, h.mem_eq]
      · rw [hrun, h.taken_eq]
        by_cases ht : t' = t
        · subst ht
          rw [hself]
          omega
        · rw [hcount t' ht]
      · have hsame : ((List.range n).flatMap fun u => (ops u).take ((order ++ [t]).count u)) =
            (List.range n).flatMap fun u => (ops u).take (order.count u) := by
          refine List.flatMap_congr fun u _ => ?_
          by_cases hu : u = t
          · rw [hu, hself, List.take_of_length_le (by omega), List.take_of_length_le (by omega)]
          · rw [hcount u hu]
        rw [hsame]
        exact h.perm

/-- A complete run takes effect as some ordering of all the threads' operations. -/
theorem exec_eq_foldl_perm {ops : ℕ → List Op} (apply : Mem → Op → Mem) (mem : Mem) {n : ℕ}
    {order : List ℕ} (hidle : ∀ t, n ≤ t → ops t = []) (hcomplete : Complete ops n order) :
    ∃ trace : List Op, exec ops apply mem order = trace.foldl apply mem ∧
      trace.Perm ((List.range n).flatMap ops) := by
  obtain ⟨trace, h⟩ := exists_trace apply mem hidle order
  refine ⟨trace, h.mem_eq, h.perm.trans (List.Perm.of_eq ?_)⟩
  exact List.flatMap_congr fun t ht => List.take_of_length_le (hcomplete t (List.mem_range.1 ht))

theorem exec_eq_foldl {ops : ℕ → List Op} (apply : Mem → Op → Mem) (mem : Mem) {n : ℕ}
    {order : List ℕ} (hidle : ∀ t, n ≤ t → ops t = []) (hcomplete : Complete ops n order) :
    ∃ trace : List Op, exec ops apply mem order = trace.foldl apply mem ∧
      ∀ op, op ∈ trace ↔ ∃ t < n, op ∈ ops t := by
  obtain ⟨trace, hexec, hperm⟩ := exec_eq_foldl_perm apply mem hidle hcomplete
  refine ⟨trace, hexec, fun op => ?_⟩
  rw [hperm.mem_iff, List.mem_flatMap]
  simp only [List.mem_range]

/-! Strided loops: each of `size` threads takes every `size`-th index. -/

def strided (tid size stop : ℕ) : List ℕ :=
  (List.range ((stop + size - 1 - tid) / size)).map (fun k => tid + k * size)

theorem mem_strided {tid size stop i : ℕ} (htid : tid < size) :
    i ∈ strided tid size stop ↔ i < stop ∧ i % size = tid := by
  have hpos : 0 < size := by omega
  unfold strided
  rw [List.mem_map]
  refine ⟨fun ⟨k, hk, heq⟩ => ?_, fun ⟨hi, hmod⟩ => ⟨i / size, ?_, ?_⟩⟩
  · have hk := (Nat.le_div_iff_mul_le hpos).1 (List.mem_range.1 hk)
    rw [Nat.succ_mul] at hk
    refine ⟨by omega, ?_⟩
    rw [← heq, Nat.add_mul_mod_self_right, Nat.mod_eq_of_lt htid]
  · have hdiv := Nat.div_add_mod i size
    rw [List.mem_range, Nat.lt_iff_add_one_le, Nat.le_div_iff_mul_le hpos, Nat.succ_mul]
    rw [Nat.mul_comm] at hdiv
    omega
  · have hdiv := Nat.div_add_mod i size
    rw [Nat.mul_comm] at hdiv
    omega

/-! What one thread leaves in the part of memory that only it writes. -/

/-- A view that one thread's operations determine and no other thread's operations change ends as if
the thread had run alone. -/
theorem exec_view {View : Type*} {ops : ℕ → List Op} {apply : Mem → Op → Mem} {mem : Mem} {n : ℕ}
    {order : List ℕ} (hidle : ∀ t, n ≤ t → ops t = []) (hcomplete : Complete ops n order) (t : ℕ)
    {view : Mem → View} (hown : ∀ m m', view m = view m' → ∀ op ∈ ops t,
      view (apply m op) = view (apply m' op))
    (hother : ∀ u, u ≠ t → ∀ op ∈ ops u, ∀ m, view (apply m op) = view m) :
    view (exec ops apply mem order) = view ((ops t).foldl apply mem) := by
  have hpart : ∀ turns : List ℕ, view (run (step ops apply) ⟨mem, fun _ => 0⟩ turns).mem =
      view (((ops t).take (turns.count t)).foldl apply mem) := by
    intro turns
    induction turns using List.reverseRecOn with
    | nil => rfl
    | append_singleton turns u ih =>
      obtain ⟨trace, h⟩ := exists_trace apply mem hidle turns
      have hrun : run (step ops apply) ⟨mem, fun _ => 0⟩ (turns ++ [u]) =
          step ops apply (run (step ops apply) ⟨mem, fun _ => 0⟩ turns) u := by
        rw [run_append]
        rfl
      rw [hrun, List.count_append, List.count_singleton]
      cases hop : (ops u)[(run (step ops apply) ⟨mem, fun _ => 0⟩ turns).taken u]? with
      | none =>
        rw [step_of_none apply hop, ih]
        by_cases hu : u = t
        · subst hu
          rw [h.taken_eq, List.getElem?_eq_none_iff] at hop
          rw [List.take_of_length_le (by omega), List.take_of_length_le (by omega)]
        · rw [if_neg (by simpa using hu), Nat.add_zero]
      | some op =>
        have hmem := List.mem_of_getElem? hop
        rw [step_of_some apply hop]
        by_cases hu : u = t
        · subst hu
          have hlt := (List.getElem?_eq_some_iff.1 hop).1
          rw [h.taken_eq] at hop hlt
          rw [Nat.min_eq_left (by omega)] at hop
          rw [if_pos (beq_self_eq_true u), List.take_add_one, hop, Option.toList_some,
            List.foldl_append, List.foldl_cons, List.foldl_nil]
          exact hown _ _ ih op hmem
        · rw [if_neg (by simpa using hu), Nat.add_zero]
          exact (hother u hu op hmem _).trans ih
  have hall : (ops t).take (order.count t) = ops t := by
    refine List.take_of_length_le ?_
    by_cases ht : t < n
    · exact hcomplete t ht
    · rw [hidle t (by omega)]
      exact Nat.zero_le _
  rw [exec, hpart, hall]

/-- What no thread changes stays. -/
theorem exec_frame {View : Type*} {ops : ℕ → List Op} {apply : Mem → Op → Mem} {view : Mem → View}
    (hkeep : ∀ t, ∀ op ∈ ops t, ∀ m, view (apply m op) = view m) (mem : Mem) (order : List ℕ) :
    view (exec ops apply mem order) = view mem := by
  unfold exec
  refine run_invariant (I := fun s : State Mem => view s.mem = view mem) (fun s t hs => ?_) rfl order
  cases hop : (ops t)[s.taken t]? with
  | none => rwa [step_of_none apply hop]
  | some op =>
    rw [step_of_some apply hop]
    exact (hkeep t op (List.mem_of_getElem? hop) s.mem).trans hs

/-! The threads going round `k` times. -/

def rounds (k n : ℕ) : List ℕ := (List.replicate k (List.range n)).flatten

theorem count_rounds (k : ℕ) {n t : ℕ} (ht : t < n) : (rounds k n).count t = k := by
  have hone : (List.range n).count t = 1 :=
    (List.nodup_range.count).trans (if_pos (List.mem_range.2 ht))
  simp [rounds, List.count_flatten, hone]

/-! Stores: the last one to a slot stays, so slots that all writers agree on are settled. -/

def store (mem : List α) (write : ℕ × α) : List α := mem.set write.1 write.2

theorem length_foldl_store (writes : List (ℕ × α)) (mem : List α) :
    (writes.foldl store mem).length = mem.length := by
  induction writes generalizing mem with
  | nil => rfl
  | cons w writes ih => rw [List.foldl_cons, ih, store, List.length_set]

theorem getElem?_foldl_store_of_notMem {writes : List (ℕ × α)} {i : ℕ}
    (h : ∀ v, (i, v) ∉ writes) (mem : List α) : (writes.foldl store mem)[i]? = mem[i]? := by
  induction writes generalizing mem with
  | nil => rfl
  | cons w writes ih =>
    have hne : w.1 ≠ i := fun hi => h w.2 (by simp [← hi])
    rw [List.foldl_cons, ih (fun v hv => h v (List.mem_cons_of_mem _ hv)), store,
      List.getElem?_set_ne hne]

theorem getElem?_foldl_store {writes : List (ℕ × α)} {i : ℕ} {v : α} {mem : List α}
    (hi : i < mem.length) (hmem : (i, v) ∈ writes) (hv : ∀ w, (i, w) ∈ writes → w = v) :
    (writes.foldl store mem)[i]? = some v := by
  induction writes using List.reverseRecOn with
  | nil => simp at hmem
  | append_singleton writes w ih =>
    rw [List.foldl_append, List.foldl_cons, List.foldl_nil, store]
    by_cases hw : w.1 = i
    · rw [hw, List.getElem?_set_self (by rwa [length_foldl_store]),
        hv w.2 (by rw [← hw]; simp)]
    · rw [List.getElem?_set_ne hw]
      refine ih ?_ (fun w' hw' => hv w' (List.mem_append_left _ hw'))
      rcases List.mem_append.1 hmem with h | h
      · exact h
      · rw [List.mem_singleton] at h
        exact absurd (congrArg Prod.fst h.symm) hw

section Phases

variable {ops : ℕ → List (ℕ × α)} {m : List α} {n : ℕ} {order : List ℕ}
  (hidle : ∀ t, n ≤ t → ops t = []) (hcomplete : Complete ops n order)

include hidle hcomplete

theorem length_exec_store : (exec ops store m order).length = m.length := by
  obtain ⟨trace, hexec, -⟩ := exec_eq_foldl store m hidle hcomplete
  rw [hexec, length_foldl_store]

theorem getElem?_exec_store {i : ℕ} {v : α} (hi : i < m.length) (hmem : ∃ t < n, (i, v) ∈ ops t)
    (hv : ∀ t < n, ∀ w, (i, w) ∈ ops t → w = v) : (exec ops store m order)[i]? = some v := by
  obtain ⟨trace, hexec, htrace⟩ := exec_eq_foldl store m hidle hcomplete
  rw [hexec]
  refine getElem?_foldl_store hi ((htrace _).2 hmem) fun w hw => ?_
  obtain ⟨t, ht, hop⟩ := (htrace _).1 hw
  exact hv t ht w hop

theorem getElem?_exec_store_of_notMem {i : ℕ} (h : ∀ t < n, ∀ v, (i, v) ∉ ops t) :
    (exec ops store m order)[i]? = m[i]? := by
  obtain ⟨trace, hexec, htrace⟩ := exec_eq_foldl store m hidle hcomplete
  rw [hexec]
  refine getElem?_foldl_store_of_notMem (fun v hv => ?_) m
  obtain ⟨t, ht, hop⟩ := (htrace _).1 hv
  exact h t ht v hop

end Phases

/-! Counters: each operation adds one, on words that wrap. -/

def addOne (modulus : ℕ) (counters : List ℕ) (d : ℕ) : List ℕ :=
  counters.set d ((counters.getD d 0 + 1) % modulus)

theorem getD_foldl_addOne {modulus : ℕ} {counters : List ℕ} {d : ℕ} (hd : d < counters.length)
    (hfit : counters.getD d 0 < modulus) (adds : List ℕ) :
    (adds.foldl (addOne modulus) counters).getD d 0 =
      (counters.getD d 0 + adds.count d) % modulus := by
  induction adds generalizing counters with
  | nil => rw [List.foldl_nil, List.count_nil, Nat.add_zero, Nat.mod_eq_of_lt hfit]
  | cons e adds ih =>
    have hread : (addOne modulus counters e).getD d 0 =
        if e = d then (counters.getD d 0 + 1) % modulus else counters.getD d 0 := by
      rw [addOne, List.getD_eq_getElem?_getD, List.getElem?_set]
      by_cases he : e = d
      · subst he
        rw [if_pos rfl, if_pos hd, Option.getD_some, if_pos rfl]
      · rw [if_neg he, if_neg he, List.getD_eq_getElem?_getD]
    have hd' : d < (addOne modulus counters e).length := by
      unfold addOne
      rwa [List.length_set]
    have hfit' : (addOne modulus counters e).getD d 0 < modulus := by
      rw [hread]
      split_ifs
      · exact Nat.mod_lt _ (by omega)
      · exact hfit
    rw [List.foldl_cons, ih hd' hfit', hread, List.count_cons]
    by_cases he : e = d
    · rw [if_pos he, Nat.mod_add_mod, if_pos (by simpa using he)]
      congr 1
      omega
    · rw [if_neg he, if_neg (by simpa using he), Nat.add_zero]

end Interleave
