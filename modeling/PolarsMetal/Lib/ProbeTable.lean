import PolarsMetal.Lib.Reads

/-! Open addressing with linear probing. A table represents a finite map when every
stored key is reachable from its start slot through slots held by other keys;
then a probe for any key ends, at the key's own slot or at a free one. -/

namespace ProbeTable
open Reads

variable {K V : Type*} [DecidableEq K]

inductive Probe (V : Type*) where
  | vacant (slot : ℕ)
  | found (value : V)
deriving DecidableEq

/-- Look at slots `idx, idx + 1, …` (wrapping) until one is free or holds the key.
`none`: the fuel ran out. -/
def probe (slots : List (Option (K × V))) (key : K) : ℕ → ℕ → Option (Probe V)
  | 0, _ => none
  | fuel + 1, idx =>
    match slots.getD idx none with
    | none => some (.vacant idx)
    | some (k, v) =>
      if k = key then some (.found v) else probe slots key fuel ((idx + 1) % slots.length)

/-- The slot `d` steps after a key's start slot. -/
def walk (slots : List (Option (K × V))) (start d : ℕ) : Option (K × V) :=
  slots.getD ((start + d) % slots.length) none

def Passes (key : K) (slot : Option (K × V)) : Prop := ∃ k v, slot = some (k, v) ∧ k ≠ key

structure Represents (hash : K → ℕ) (slots : List (Option (K × V))) (m : K → Option V) : Prop where
  slot : ∀ i k v, slots.getD i none = some (k, v) → m k = some v
  chain : ∀ k v, m k = some v → ∃ d, walk slots (hash k) d = some (k, v) ∧
    ∀ e < d, Passes k (walk slots (hash k) e)

omit [DecidableEq K] in
theorem represents_replicate (hash : K → ℕ) (cap : ℕ) :
    Represents hash (List.replicate cap (none : Option (K × V))) (fun _ => none) := by
  refine ⟨fun i k v h => ?_, fun k v h => by cases h⟩
  rw [getD_replicate] at h
  cases h

/-- A probe stops at the first slot that is free or holds the key. -/
theorem probe_walk {slots : List (Option (K × V))} {key : K} {start d₀ : ℕ}
    (hstop : ¬ Passes key (walk slots start d₀)) (hpass : ∀ e < d₀, Passes key (walk slots start e)) :
    ∀ fuel d, d ≤ d₀ → d₀ < d + fuel →
      probe slots key fuel ((start + d) % slots.length) =
        match walk slots start d₀ with
        | none => some (.vacant ((start + d₀) % slots.length))
        | some (_, v) => some (.found v) := by
  intro fuel
  induction fuel with
  | zero => intro d h1 h2; omega
  | succ fuel ih =>
    intro d hd hfuel
    rw [probe, show slots.getD ((start + d) % slots.length) none = walk slots start d from rfl]
    rcases Nat.lt_or_eq_of_le hd with hlt | rfl
    · obtain ⟨k, v, hslot, hne⟩ := hpass d hlt
      simp only [hslot, if_neg hne]
      have hnext : ((start + d) % slots.length + 1) % slots.length =
          (start + (d + 1)) % slots.length := by
        rw [Nat.mod_add_mod, Nat.add_assoc]
      rw [hnext]
      exact ih (d + 1) hlt (by omega)
    · rcases hslot : walk slots start d with _ | ⟨k, v⟩
      · rfl
      · have hk : k = key := by
          by_contra hne
          exact hstop ⟨k, v, hslot, hne⟩
        simp [hk]

omit [DecidableEq K] in
theorem exists_stop {slots : List (Option (K × V))} (key : K) (start : ℕ) {i : ℕ}
    (hi : i < slots.length) (hfree : slots.getD i none = none) :
    ∃ d₀ < slots.length, ¬ Passes key (walk slots start d₀) ∧
      ∀ e < d₀, Passes key (walk slots start e) := by
  classical
  have hreach : ∃ d < slots.length, (start + d) % slots.length = i := by
    refine ⟨(i + (slots.length - start % slots.length)) % slots.length,
      Nat.mod_lt _ (by omega), ?_⟩
    have hs := Nat.mod_lt start (show 0 < slots.length by omega)
    rw [Nat.add_mod_mod, ← Nat.mod_add_mod,
      show start % slots.length + (i + (slots.length - start % slots.length)) = i + slots.length
        by omega, Nat.add_mod_right, Nat.mod_eq_of_lt hi]
  obtain ⟨d, hd, hdi⟩ := hreach
  have hstop : ∃ d, ¬ Passes key (walk slots start d) := by
    refine ⟨d, ?_⟩
    rintro ⟨k, v, hslot, -⟩
    rw [walk, hdi, hfree] at hslot
    cases hslot
  have hd' : ¬ Passes key (walk slots start d) := by
    rintro ⟨k, v, hslot, -⟩
    rw [walk, hdi, hfree] at hslot
    cases hslot
  exact ⟨Nat.find hstop, (Nat.find_min' hstop hd').trans_lt hd, Nat.find_spec hstop,
    fun e he => not_not.1 (Nat.find_min hstop he)⟩

/-- With a free slot left, a probe returns the map's value, or a free slot at the end of the
key's chain. -/
theorem probe_spec {hash : K → ℕ} {slots : List (Option (K × V))} {m : K → Option V}
    (h : Represents hash slots m) (key : K) {i : ℕ} (hi : i < slots.length)
    (hfree : slots.getD i none = none) :
    (∃ v, m key = some v ∧
      probe slots key slots.length (hash key % slots.length) = some (.found v)) ∨
    (m key = none ∧ ∃ d, walk slots (hash key) d = none ∧
      (∀ e < d, Passes key (walk slots (hash key) e)) ∧
      probe slots key slots.length (hash key % slots.length) =
        some (.vacant ((hash key + d) % slots.length))) := by
  obtain ⟨d₀, hd₀, hstop, hpass⟩ := exists_stop key (hash key) hi hfree
  have hrun := probe_walk hstop hpass slots.length 0 (by omega) (by omega)
  rw [Nat.add_zero] at hrun
  rw [hrun]
  rcases hslot : walk slots (hash key) d₀ with _ | ⟨k, v⟩
  · right
    refine ⟨?_, d₀, hslot, hpass, rfl⟩
    -- a stored key would be found before the free slot
    rcases hm : m key with _ | v
    · rfl
    · obtain ⟨d, hd, hchain⟩ := h.chain key v hm
      rcases Nat.lt_trichotomy d d₀ with hlt | rfl | hgt
      · obtain ⟨k, v', hk, hne⟩ := hpass d hlt
        rw [hd] at hk
        cases hk
        exact absurd rfl hne
      · rw [hd] at hslot
        cases hslot
      · obtain ⟨k, v', hk, -⟩ := hchain d₀ hgt
        rw [hslot] at hk
        cases hk
  · left
    have hk : k = key := by
      by_contra hne
      exact hstop ⟨k, v, hslot, hne⟩
    subst hk
    exact ⟨v, h.slot _ _ _ hslot, rfl⟩

/-- Storing a new key in the free slot its probe found extends the map by that key. -/
theorem Represents.insert {hash : K → ℕ} {slots : List (Option (K × V))} {m : K → Option V}
    (h : Represents hash slots m) {key : K} (hnew : m key = none) (value : V) {d : ℕ}
    (hcap : 0 < slots.length) (hfree : walk slots (hash key) d = none)
    (hpass : ∀ e < d, Passes key (walk slots (hash key) e)) :
    Represents hash (slots.set ((hash key + d) % slots.length) (some (key, value)))
      (fun k => if k = key then some value else m k) := by
  have hlt : (hash key + d) % slots.length < slots.length := Nat.mod_lt _ hcap
  have hwalk : ∀ s e, walk (slots.set ((hash key + d) % slots.length) (some (key, value))) s e =
      if (hash key + d) % slots.length = (s + e) % slots.length then some (key, value)
      else walk slots s e := by
    intro s e
    rw [walk, List.length_set, getD_set _ _ _ _ hlt]
    rfl
  -- a chain never ran through the slot that was free
  have hkeep : ∀ k s e, k ≠ key → Passes k (walk slots s e) →
      Passes k (walk (slots.set ((hash key + d) % slots.length) (some (key, value))) s e) := by
    intro k s e hk hp
    rw [hwalk]
    split_ifs
    · exact ⟨key, value, rfl, fun heq => hk heq.symm⟩
    · exact hp
  refine ⟨?_, ?_⟩
  · intro i k v hget
    rw [getD_set _ _ _ _ hlt] at hget
    split_ifs at hget with hi
    · cases hget; simp
    · have hmk := h.slot i k v hget
      have hne : k ≠ key := by
        rintro rfl
        rw [hnew] at hmk
        cases hmk
      rw [if_neg hne, hmk]
  · intro k v hk
    by_cases hkey : k = key
    · subst hkey
      rw [if_pos rfl] at hk
      cases hk
      refine ⟨d, by rw [hwalk, if_pos rfl], fun e he => ?_⟩
      obtain ⟨k', v', hslot, hne⟩ := hpass e he
      rw [hwalk]
      split_ifs with heq
      · have : walk slots (hash k) e = walk slots (hash k) d := by rw [walk, walk, heq]
        rw [hslot, hfree] at this
        cases this
      · exact ⟨k', v', hslot, hne⟩
    · rw [if_neg hkey] at hk
      obtain ⟨d', hd', hchain⟩ := h.chain k v hk
      refine ⟨d', ?_, fun e he => hkeep k _ _ hkey (hchain e he)⟩
      rw [hwalk]
      split_ifs with heq
      · have : walk slots (hash k) d' = walk slots (hash key) d := by rw [walk, walk, heq]
        rw [hd', hfree] at this
        cases this
      · exact hd'

omit [DecidableEq K] in
/-- Fewer stored entries than slots leaves a slot free. -/
theorem exists_free (slots : List (Option (K × V)))
    (h : slots.countP Option.isSome < slots.length) :
    ∃ i < slots.length, slots.getD i none = none := by
  by_contra hall
  push Not at hall
  have hfull : slots.countP Option.isSome = slots.length := by
    rw [List.countP_eq_length]
    intro s hs
    obtain ⟨i, hi, rfl⟩ := List.getElem_of_mem hs
    have := hall i hi
    rw [getD_of_lt slots hi] at this
    exact Option.isSome_iff_ne_none.2 this
  omega

omit [DecidableEq K] in
theorem countP_set_le (slots : List (Option (K × V))) (i : ℕ) (s : Option (K × V)) :
    (slots.set i s).countP Option.isSome ≤ slots.countP Option.isSome + 1 := by
  induction slots generalizing i with
  | nil => simp
  | cons a slots ih =>
    cases i with
    | zero => simp only [List.set_cons_zero, List.countP_cons]; split_ifs <;> omega
    | succ i =>
      have := ih i
      simp only [List.set_cons_succ, List.countP_cons]
      omega

end ProbeTable
