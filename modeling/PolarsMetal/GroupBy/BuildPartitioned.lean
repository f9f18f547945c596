import PolarsMetal.GroupBy.BuildHash

/-! The partitioned build. Each partition numbers its keys by first appearance in
an open-addressing table that never fills, and a key's global id is its
partition's offset plus its local number: the keys are numbered partition by
partition. -/

namespace PolarsMetal.GroupBy
open Bitmap ProbeTable Grouping Reads

def hashKey (k : Lane) : ℕ := (hashU128 k).toNat

/-! One partition's table. -/

theorem capacity_spec (n : ℕ) : ∃ b, capacity n = 2 ^ b := by
  rcases Nat.le_total (nextPowerOfTwo (n * 2)) 8 with h | h
  · exact ⟨3, by rw [capacity, Nat.max_eq_right h]; rfl⟩
  · exact ⟨Nat.clog 2 (n * 2), by rw [capacity, Nat.max_eq_left h, nextPowerOfTwo]⟩

theorem lt_capacity (n : ℕ) : n < capacity n := by
  have : n * 2 ≤ nextPowerOfTwo (n * 2) := Nat.le_pow_clog (by decide) _
  rw [capacity]
  omega

/-- The source's mask wrap-around is the table's modular walk. -/
theorem probeLoop_eq {slots : List (Option (Lane × ℕ))} {b : ℕ} (hcap : slots.length = 2 ^ b)
    (k : Lane) (fuel idx : ℕ) :
    probeLoop slots k (2 ^ b) fuel idx = probe slots k fuel idx := by
  induction fuel generalizing idx with
  | zero => rfl
  | succ fuel ih =>
    rw [probeLoop, probe, hcap, and_mask]
    rcases slots.getD idx none with _ | ⟨existing, gid⟩
    · rfl
    · simp only
      rw [ih]

def localNumber (seen : List Lane) (k : Lane) : Option ℕ :=
  if k ∈ seen then some (seen.idxOf k) else none

structure PartitionInv (keys : List Lane) (cap : ℕ) (before : List ℕ) (rows : List ℕ)
    (s : PartitionState) : Prop where
  cap : s.slots.length = cap
  table : Represents hashKey s.slots (localNumber (firstSeen (rows.map (keyOf keys))))
  used : s.slots.countP Option.isSome ≤ rows.length
  groups : s.table.length = (firstSeen (rows.map (keyOf keys))).length
  next : s.localNext = (firstSeen (rows.map (keyOf keys))).length
  length : s.rowLocalGroup.length = before.length
  done : ∀ r ∈ rows, s.rowLocalGroup.getD r 0 =
    (firstSeen (rows.map (keyOf keys))).idxOf (keyOf keys r)
  kept : ∀ r, r ∉ rows → s.rowLocalGroup.getD r 0 = before.getD r 0

theorem partitionInv_init (keys : List Lane) (cap : ℕ) (before : List ℕ) :
    PartitionInv keys cap before [] ⟨List.replicate cap none, [], 0, before⟩ := by
  refine ⟨by simp, represents_replicate hashKey cap, ?_, rfl, rfl, rfl, by simp, fun _ _ => rfl⟩
  simp [List.countP_replicate]

/-- A row of the partition finds its key's number, or stores the next one; the probe never
goes round a full table. -/
theorem partitionInv_step {keys : List Lane} {cap : ℕ} {before rows : List ℕ} {s : PartitionState}
    (h : PartitionInv keys cap before rows s) (hpow : ∃ b, cap = 2 ^ b) (hfit : rows.length < cap)
    {r : ℕ} (hr : r < before.length) :
    ∃ s', partitionStep keys cap s r = some s' ∧
      PartitionInv keys cap before (rows ++ [r]) s' := by
  obtain ⟨b, rfl⟩ := hpow
  set k := keyOf keys r with hk
  set seen := firstSeen (rows.map (keyOf keys)) with hseen
  have hmap : (rows ++ [r]).map (keyOf keys) = rows.map (keyOf keys) ++ [k] := by simp [hk]
  have hlt : r < s.rowLocalGroup.length := by rw [h.length]; exact hr
  have hprobe : probeLoop s.slots k (2 ^ b) (2 ^ b) ((hashU128 k).toNat &&& (2 ^ b - 1)) =
      probe s.slots k s.slots.length (hashKey k % s.slots.length) := by
    rw [probeLoop_eq h.cap, h.cap, and_mask, hashKey]
  -- the rows written so far keep their numbers when the row's own number `g` is set
  have hdone : ∀ g, g = (firstSeen (rows.map (keyOf keys) ++ [k])).idxOf k →
      ∀ r' ∈ rows ++ [r], (s.rowLocalGroup.set r g).getD r' 0 =
        (firstSeen ((rows ++ [r]).map (keyOf keys))).idxOf (keyOf keys r') := by
    intro g hg r' hr'
    rw [getD_set _ _ _ _ hlt, hmap]
    split_ifs with heq
    · rw [← heq, ← hk, hg]
    · have hr' : r' ∈ rows := by
        rcases List.mem_append.1 hr' with hr' | hr'
        · exact hr'
        · exact absurd (List.mem_singleton.1 hr').symm heq
      rw [h.done r' hr', idxOf_firstSeen_concat (List.mem_map_of_mem hr')]
  have hkept : ∀ g, ∀ r', r' ∉ rows ++ [r] →
      (s.rowLocalGroup.set r g).getD r' 0 = before.getD r' 0 := by
    intro g r' hr'
    simp only [List.mem_append, List.mem_singleton, not_or] at hr'
    rw [getD_set _ _ _ _ hlt, if_neg (Ne.symm hr'.2), h.kept r' hr'.1]
  obtain ⟨i, hi, hfree⟩ := exists_free s.slots (by rw [h.cap]; have := h.used; omega)
  rcases probe_spec h.table k hi hfree with ⟨g, hg, hrun⟩ | ⟨hnew, d, hslot, hpass, hrun⟩
  · have hmem : k ∈ seen := by
      by_contra hnot
      rw [localNumber, if_neg hnot] at hg
      cases hg
    rw [localNumber, if_pos hmem] at hg
    cases hg
    have hsame : firstSeen (rows.map (keyOf keys) ++ [k]) = seen := by
      rw [firstSeen_concat, if_pos hmem]
    refine ⟨{ s with rowLocalGroup := s.rowLocalGroup.set r (seen.idxOf k) }, ?_, h.cap, ?_, ?_,
      ?_, ?_, by simpa using h.length, hdone _ (by rw [hsame]), hkept _⟩
    · simp only [partitionStep, ← keyOf.eq_1, ← hk, hprobe, hrun]
      rfl
    · rw [hmap, hsame]; exact h.table
    · have := h.used
      simp only [List.length_append, List.length_singleton]
      omega
    · rw [hmap, hsame]; exact h.groups
    · rw [hmap, hsame]; exact h.next
  · have hnot : k ∉ seen := by
      intro hmem
      rw [localNumber, if_pos hmem] at hnew
      cases hnew
    have hgrow : firstSeen (rows.map (keyOf keys) ++ [k]) = seen ++ [k] := by
      rw [firstSeen_concat, if_neg hnot]
    have hnum : (firstSeen (rows.map (keyOf keys) ++ [k])).idxOf k = s.localNext := by
      rw [idxOf_firstSeen_new (by rwa [hseen, mem_firstSeen] at hnot), h.next]
    refine ⟨{ slots := s.slots.set ((hashKey k + d) % s.slots.length) (some (k, s.localNext))
              table := s.table ++ [(k, s.localNext)]
              localNext := s.localNext + 1
              rowLocalGroup := s.rowLocalGroup.set r s.localNext }, ?_, ?_, ?_, ?_, ?_, ?_,
      by simpa using h.length, hdone _ hnum.symm, hkept _⟩
    · simp only [partitionStep, ← keyOf.eq_1, ← hk, hprobe, hrun]
      rfl
    · simpa using h.cap
    · have hins := h.table.insert hnew s.localNext (by omega) hslot hpass
      have hnext : (fun k' => if k' = k then some s.localNext else localNumber seen k') =
          localNumber (firstSeen ((rows ++ [r]).map (keyOf keys))) := by
        funext k'
        rw [hmap, localNumber, localNumber, hgrow]
        by_cases hk' : k' = k
        · subst hk'
          rw [if_pos rfl, if_pos (by simp), ← hgrow, hnum]
        · rw [if_neg hk']
          by_cases hmem : k' ∈ seen
          · rw [if_pos hmem, if_pos (List.mem_append_left _ hmem), List.idxOf_append_of_mem hmem]
          · rw [if_neg hmem, if_neg (by simp [hmem, hk'])]
      rwa [hnext] at hins
    · refine (countP_set_le _ _ _).trans ?_
      have := h.used
      simp only [List.length_append, List.length_singleton]
      omega
    · rw [hmap, hgrow]
      simp [h.groups, hseen]
    · rw [hmap, hgrow]
      simp [h.next, hseen]

theorem partitionInv_run (keys : List Lane) {cap : ℕ} {before rows : List ℕ}
    (hpow : ∃ b, cap = 2 ^ b) (hfit : rows.length < cap) (hrows : ∀ r ∈ rows, r < before.length) :
    ∃ s, rows.foldlM (partitionStep keys cap) ⟨List.replicate cap none, [], 0, before⟩ = some s ∧
      PartitionInv keys cap before rows s := by
  induction rows using List.reverseRecOn with
  | nil => exact ⟨_, rfl, partitionInv_init keys cap before⟩
  | append_singleton rows r ih =>
    rw [List.length_append, List.length_singleton] at hfit
    obtain ⟨s, hs, hinv⟩ := ih (by omega) (fun r' hr' => hrows r' (List.mem_append_left _ hr'))
    obtain ⟨s', hs', hinv'⟩ := partitionInv_step hinv hpow (by omega) (hrows r (by simp))
    refine ⟨s', ?_, hinv'⟩
    rw [List.foldlM_append, hs]
    simpa using hs'

/-- One partition's build: its number of groups, its rows' numbers, other rows untouched. -/
theorem buildPartition_spec (keys : List Lane) (before rows : List ℕ)
    (hrows : ∀ r ∈ rows, r < before.length) :
    ∃ table local', buildPartition keys rows before = some (table, local') ∧
      table.length = (firstSeen (rows.map (keyOf keys))).length ∧
      local'.length = before.length ∧
      (∀ r ∈ rows, local'.getD r 0 = (firstSeen (rows.map (keyOf keys))).idxOf (keyOf keys r)) ∧
      ∀ r, r ∉ rows → local'.getD r 0 = before.getD r 0 := by
  obtain ⟨s, hs, hinv⟩ := partitionInv_run keys (capacity_spec rows.length)
    (lt_capacity rows.length) hrows
  refine ⟨s.table, s.rowLocalGroup, ?_, hinv.groups, hinv.length, hinv.done, hinv.kept⟩
  rw [buildPartition, hs]
  rfl

/-! All partitions in turn. -/

theorem buildPartitions_spec (keys : List Lane) (partitions : List (List ℕ))
    (hrows : ∀ rows ∈ partitions, ∀ r ∈ rows, r < keys.length)
    (hdisj : partitions.Pairwise List.Disjoint) :
    ∃ tables local', buildPartitions keys partitions = some (tables, local') ∧
      tables.map List.length =
        partitions.map (fun rows => (firstSeen (rows.map (keyOf keys))).length) ∧
      local'.length = keys.length ∧
      ∀ rows ∈ partitions, ∀ r ∈ rows,
        local'.getD r 0 = (firstSeen (rows.map (keyOf keys))).idxOf (keyOf keys r) := by
  unfold buildPartitions
  induction partitions using List.reverseRecOn with
  | nil => exact ⟨[], _, rfl, rfl, by simp, by simp⟩
  | append_singleton partitions rows ih =>
    obtain ⟨hold, -, hnew⟩ := List.pairwise_append.1 hdisj
    obtain ⟨tables, local', hrun, hlens, hlength, hdone⟩ :=
      ih (fun rows' h => hrows rows' (List.mem_append_left _ h)) hold
    obtain ⟨table, local'', hrun', hlen', hlength', hdone', hkept⟩ :=
      buildPartition_spec keys local' rows
        (fun r hr => by rw [hlength]; exact hrows rows (by simp) r hr)
    refine ⟨tables ++ [table], local'', ?_, ?_, hlength'.trans hlength, ?_⟩
    · rw [List.foldlM_append, hrun]
      simp [hrun']
    · simp [hlens, hlen']
    · intro rows' hrows' r hr
      rcases List.mem_append.1 hrows' with hrows' | hrows'
      · rw [hkept r (hnew rows' hrows' rows (by simp) hr), hdone rows' hrows' r hr]
      · rw [List.mem_singleton.1 hrows'] at hr ⊢
        exact hdone' r hr

def rowsOf (keys : List Lane) (nPartitions p : ℕ) : List ℕ :=
  (List.range keys.length).filter (fun r => partitionId (keyOf keys r) nPartitions = p)

theorem keyOf_append (keys : List Lane) (k : Lane) {r : ℕ} (hr : r < keys.length) :
    keyOf (keys ++ [k]) r = keyOf keys r := by
  rw [keyOf, keyOf, List.getD_eq_getElem?_getD, List.getElem?_append_left hr,
    ← List.getD_eq_getElem?_getD]

theorem keyOf_append_length (keys : List Lane) (k : Lane) : keyOf (keys ++ [k]) keys.length = k := by
  simp [keyOf]

theorem rowsOf_append (keys : List Lane) (k : Lane) (nPartitions p : ℕ) :
    rowsOf (keys ++ [k]) nPartitions p =
      rowsOf keys nPartitions p ++ if partitionId k nPartitions = p then [keys.length] else [] := by
  have hold : (List.range keys.length).filter
      (fun r => partitionId (keyOf (keys ++ [k]) r) nPartitions = p) = rowsOf keys nPartitions p := by
    apply List.filter_congr
    intro r hr
    rw [keyOf_append keys k (List.mem_range.1 hr)]
  rw [rowsOf, List.length_append, List.length_singleton, List.range_succ, List.filter_append, hold]
  congr 1
  simp [List.filter_cons, keyOf_append_length]

theorem rowsByPartition_eq {keys : List Lane} (hlen : keys.length < 2 ^ 32) (nPartitions : ℕ) :
    rowsByPartition keys nPartitions = (List.range nPartitions).map (rowsOf keys nPartitions) := by
  unfold rowsByPartition
  induction keys using List.reverseRecOn with
  | nil =>
    apply List.ext_getElem
    · simp
    · intro p h1 h2
      simp [rowsOf]
  | append_singleton keys k ih =>
    rw [List.length_append, List.length_singleton] at hlen
    have hcast : asU32 keys.length = keys.length := asU32_of_lt (by omega)
    rw [List.zipIdx_append, List.foldl_append, ih (by omega)]
    rw [Nat.zero_add, List.zipIdx_singleton, List.foldl_cons, List.foldl_nil, pushRow, hcast]
    apply List.ext_getElem
    · simp
    · intro p h1 h2
      rw [List.getElem_modify, List.getElem_map, List.getElem_map, List.getElem_range, rowsOf_append]
      split_ifs
      · rfl
      · rw [List.append_nil]

theorem mem_rowsOf {keys : List Lane} {nPartitions p r : ℕ} :
    r ∈ rowsOf keys nPartitions p ↔
      r < keys.length ∧ partitionId (keyOf keys r) nPartitions = p := by
  simp [rowsOf]

theorem disjoint_rowsOf (keys : List Lane) (nPartitions : ℕ) :
    ((List.range nPartitions).map (rowsOf keys nPartitions)).Pairwise List.Disjoint := by
  rw [List.pairwise_map]
  refine List.pairwise_lt_range.imp (fun hlt r hr hr' => ?_)
  have h1 := (mem_rowsOf.1 hr).2
  have h2 := (mem_rowsOf.1 hr').2
  omega

theorem partitionId_lt (k : Lane) {nPartitions : ℕ} (h : 0 < nPartitions) :
    partitionId k nPartitions < nPartitions := by
  rw [partitionId]
  have := Nat.and_le_right (n := (hashU128 k >>> tgsmSlotsPerPartition.log2).toNat)
    (m := nPartitions - 1)
  omega

/-! Global ids, for any numbering of each partition's keys. -/

/-- Each partition's keys, listed once each. -/
structure PartitionNumbering (keys : List Lane) (nPartitions : ℕ) (names : ℕ → List Lane) :
    Prop where
  nodup : ∀ p < nPartitions, (names p).Nodup
  mem_iff : ∀ p < nPartitions, ∀ k, k ∈ names p ↔ k ∈ keys ∧ partitionId k nPartitions = p

/-- Partition by partition. -/
def allNames (nPartitions : ℕ) (names : ℕ → List Lane) : List Lane :=
  ((List.range nPartitions).map names).flatten

theorem PartitionNumbering.enumerates {keys : List Lane} {nPartitions : ℕ} {names : ℕ → List Lane}
    (hnum : PartitionNumbering keys nPartitions names) (h : 0 < nPartitions) :
    Enumerates (allNames nPartitions names) keys := by
  refine ⟨?_, fun k => ?_⟩
  · rw [allNames, List.nodup_flatten]
    refine ⟨?_, ?_⟩
    · intro part hpart
      obtain ⟨p, hp, rfl⟩ := List.mem_map.1 hpart
      exact hnum.nodup p (List.mem_range.1 hp)
    · rw [List.pairwise_map]
      refine List.pairwise_lt_range.imp_of_mem (fun hp hq hlt k hk hk' => ?_)
      have h1 := ((hnum.mem_iff _ (List.mem_range.1 hp) k).1 hk).2
      have h2 := ((hnum.mem_iff _ (List.mem_range.1 hq) k).1 hk').2
      omega
  · simp only [allNames, List.mem_flatten, List.mem_map, List.mem_range]
    refine ⟨?_, ?_⟩
    · rintro ⟨_, ⟨p, hp, rfl⟩, hk⟩
      exact ((hnum.mem_iff p hp k).1 hk).1
    · intro hk
      have hp := partitionId_lt k h
      exact ⟨_, ⟨_, hp, rfl⟩, (hnum.mem_iff _ hp k).2 ⟨hk, rfl⟩⟩

theorem getD_offsetsFrom {ns : List ℕ} (hns : ∀ n ∈ ns, n < 2 ^ 32) (total : ℕ) {p : ℕ}
    (hp : p ≤ ns.length) : (offsetsFrom total ns).getD p 0 = total + (ns.take p).sum := by
  induction ns generalizing total p with
  | nil =>
    obtain rfl : p = 0 := by simpa using hp
    simp [offsetsFrom]
  | cons n ns ih =>
    obtain ⟨hn, hrest⟩ := List.forall_mem_cons.1 hns
    cases p with
    | zero => simp [offsetsFrom]
    | succ p =>
      have := ih hrest (total + asU32 n) (p := p) (by simpa using hp)
      rw [offsetsFrom, List.getD_cons_succ, this, asU32_of_lt hn]
      simp only [List.take_succ_cons, List.sum_cons]
      omega

/-- A key's offset plus its local number is its place among all the names. -/
theorem PartitionNumbering.idxOf_allNames {keys : List Lane} {nPartitions : ℕ}
    {names : ℕ → List Lane} (hnum : PartitionNumbering keys nPartitions names)
    (h : 0 < nPartitions) {k : Lane} (hk : k ∈ keys) :
    (allNames nPartitions names).idxOf k =
      ((((List.range nPartitions).map names).map List.length).take (partitionId k nPartitions)).sum +
        (names (partitionId k nPartitions)).idxOf k := by
  have hp := partitionId_lt k h
  have := idxOf_flatten ((List.range nPartitions).map names)
    (p := partitionId k nPartitions) (by simpa using hp) (k := k)
    (by simpa using (hnum.mem_iff _ hp k).2 ⟨hk, rfl⟩) (by
      intro q hq hmem
      simp only [List.getElem_map, List.getElem_range] at hmem
      have := ((hnum.mem_iff q (hq.trans hp) k).1 hmem).2
      omega)
  rw [allNames, this, List.map_take]
  simp

theorem PartitionNumbering.length_le {keys : List Lane} {nPartitions : ℕ} {names : ℕ → List Lane}
    (hnum : PartitionNumbering keys nPartitions names) {p : ℕ} (hp : p < nPartitions) :
    (names p).length ≤ keys.length := by
  rw [← List.toFinset_card_of_nodup (hnum.nodup p hp)]
  refine (Finset.card_le_card (fun k hk => ?_)).trans (List.toFinset_card_le keys)
  rw [List.mem_toFinset] at hk ⊢
  exact ((hnum.mem_iff p hp k).1 hk).1

structure GlobalInv (names pre : List Lane) (n : ℕ) (out : List ℕ × List ℕ) : Prop where
  length : out.1.length = n
  rows : ∀ r < pre.length, out.1.getD r 0 = names.idxOf (keyOf pre r)
  firsts : out.2 = names.map (fun k => if k ∈ pre then pre.idxOf k else u32Max)

theorem globalInv_step {names pre : List Lane} {n : ℕ} {out : List ℕ × List ℕ}
    (h : GlobalInv names pre n out) (hnames : names.Nodup) (hlen : pre.length < n)
    (hn : n < 2 ^ 32) {k : Lane} (hk : k ∈ names) {offsets locals : List ℕ} {nPartitions : ℕ}
    (hid : offsets.getD (partitionId k nPartitions) 0 + locals.getD pre.length 0 =
      names.idxOf k) :
    GlobalInv names (pre ++ [k]) n (globalStep offsets locals nPartitions out (k, pre.length)) := by
  have hidx := List.idxOf_lt_length_of_mem hk
  have hfirst : out.2.getD (names.idxOf k) 0 = if k ∈ pre then pre.idxOf k else u32Max := by
    rw [h.firsts, getD_of_lt _ (by simpa using hidx)]
    simp [List.getElem_idxOf hidx]
  -- a group's slot still holds the sentinel exactly when its key has not been seen
  have hsentinel : out.2.getD (names.idxOf k) 0 = u32Max ↔ k ∉ pre := by
    rw [hfirst]
    split_ifs with hmem
    · have := List.idxOf_lt_length_of_mem hmem
      refine ⟨fun heq => ?_, fun hnot => absurd hmem hnot⟩
      rw [heq, u32Max] at this
      omega
    · exact ⟨fun _ => hmem, fun _ => rfl⟩
  refine ⟨?_, ?_, ?_⟩
  · simpa [globalStep] using h.length
  · intro r hr
    simp only [globalStep, hid]
    rw [getD_set _ _ _ _ (by rw [h.length]; exact hlen)]
    split_ifs with heq
    · rw [← heq, keyOf_append_length]
    · have hr' : r < pre.length := by
        simp only [List.length_append, List.length_singleton] at hr
        omega
      rw [h.rows r hr', keyOf_append pre k hr']
  · simp only [globalStep, hid]
    by_cases hmem : k ∈ pre
    · rw [if_neg (fun heq => hsentinel.1 heq hmem), h.firsts]
      apply List.map_congr_left
      intro k' _
      by_cases hk' : k' ∈ pre
      · simp [hk', List.idxOf_append_of_mem hk']
      · have : k' ≠ k := by rintro rfl; exact hk' hmem
        simp [hk', this]
    · rw [if_pos (hsentinel.2 hmem), h.firsts, map_set_idxOf hnames hk,
        asU32_of_lt (by omega)]
      apply List.map_congr_left
      intro k' _
      by_cases heq : k' = k
      · subst heq
        simp [List.idxOf_append_of_notMem hmem]
      · by_cases hk' : k' ∈ pre
        · simp [heq, hk', List.idxOf_append_of_mem hk']
        · simp [heq, hk']

theorem globalInv_run {names pre : List Lane} {n : ℕ} (hnames : names.Nodup) (hn : n < 2 ^ 32)
    (hlen : pre.length ≤ n) (hmem : ∀ k ∈ pre, k ∈ names) {offsets locals : List ℕ}
    {nPartitions : ℕ}
    (hid : ∀ r < pre.length, offsets.getD (partitionId (keyOf pre r) nPartitions) 0 +
      locals.getD r 0 = names.idxOf (keyOf pre r)) :
    GlobalInv names pre n (pre.zipIdx.foldl (globalStep offsets locals nPartitions)
      (List.replicate n 0, List.replicate names.length u32Max)) := by
  induction pre using List.reverseRecOn with
  | nil =>
    refine ⟨by simp, by simp, ?_⟩
    rw [← List.map_const']
    simp
  | append_singleton pre k ih =>
    rw [List.length_append, List.length_singleton] at hlen
    have hinv := ih (by omega) (fun k' h => hmem k' (List.mem_append_left _ h)) (by
      intro r hr
      have := hid r (by simp; omega)
      rwa [keyOf_append pre k hr] at this)
    have hnow := hid pre.length (by simp)
    rw [keyOf_append_length] at hnow
    rw [List.zipIdx_append, List.foldl_append]
    simpa using globalInv_step hinv hnames (by omega) hn (hmem k (by simp)) hnow

/-- From each partition's number of groups and each row's local id, the last stage returns the
grouping by all the names. -/
theorem PartitionNumbering.globalRun {keys : List Lane} {nPartitions : ℕ} {names : ℕ → List Lane}
    (hnum : PartitionNumbering keys nPartitions names) (h : 0 < nPartitions)
    (hlen : keys.length < 2 ^ 32) (locals : List ℕ)
    (hlocal : ∀ r < keys.length, locals.getD r 0 =
      (names (partitionId (keyOf keys r) nPartitions)).idxOf (keyOf keys r)) :
    (offsetsFrom 0 ((List.range nPartitions).map (fun p => (names p).length))).getD nPartitions 0 =
        (allNames nPartitions names).length ∧
      keys.zipIdx.foldl (globalStep
          (offsetsFrom 0 ((List.range nPartitions).map (fun p => (names p).length))) locals nPartitions)
        (List.replicate keys.length 0, List.replicate (allNames nPartitions names).length u32Max) =
      (idsBy (allNames nPartitions names) keys, firstsBy (allNames nPartitions names) keys) := by
  set lens := (List.range nPartitions).map (fun p => (names p).length) with hlens
  have hparts : ((List.range nPartitions).map names).map List.length = lens := by
    rw [List.map_map, hlens]
    rfl
  have henum := hnum.enumerates h
  have hle : ∀ n ∈ lens, n < 2 ^ 32 := by
    intro n hn
    obtain ⟨p, hp, rfl⟩ := List.mem_map.1 hn
    exact (hnum.length_le (List.mem_range.1 hp)).trans_lt hlen
  have hlensLen : lens.length = nPartitions := by simp [hlens]
  have hid : ∀ r < keys.length,
      (offsetsFrom 0 lens).getD (partitionId (keyOf keys r) nPartitions) 0 + locals.getD r 0 =
        (allNames nPartitions names).idxOf (keyOf keys r) := by
    intro r hr
    have hp := partitionId_lt (keyOf keys r) h
    have hk : keyOf keys r ∈ keys := by
      rw [keyOf, getD_of_lt keys hr]
      exact List.getElem_mem hr
    rw [getD_offsetsFrom hle 0 (by omega), hnum.idxOf_allNames h hk, hparts, Nat.zero_add,
      hlocal r hr]
  have hinv := globalInv_run henum.nodup hlen le_rfl (fun k hk => (henum.mem_iff k).2 hk) hid
  refine ⟨?_, Prod.ext ?_ ?_⟩
  · rw [getD_offsetsFrom hle 0 hlensLen.ge, List.take_of_length_le hlensLen.le, Nat.zero_add,
      allNames, List.length_flatten, hparts]
  · refine ext_getD 0 (by rw [hinv.length]; simp [idsBy]) (fun r hr => ?_)
    rw [hinv.length] at hr
    rw [hinv.rows r hr, getD_of_lt _ (by simpa [idsBy] using hr)]
    simp [idsBy, keyOf, hr]
  · rw [hinv.firsts]
    apply List.map_congr_left
    intro k hk
    rw [if_pos ((henum.mem_iff k).1 hk)]

/-! The tables number each partition's keys by first appearance. -/

/-- The partition's keys, in the order its table numbers them. -/
def partitionNames (keys : List Lane) (nPartitions p : ℕ) : List Lane :=
  firstSeen ((rowsOf keys nPartitions p).map (keyOf keys))

def partitionedNames (keys : List Lane) (nPartitions : ℕ) : List Lane :=
  ((List.range nPartitions).map (partitionNames keys nPartitions)).flatten

theorem mem_partitionNames {keys : List Lane} {nPartitions p : ℕ} {k : Lane} :
    k ∈ partitionNames keys nPartitions p ↔ k ∈ keys ∧ partitionId k nPartitions = p := by
  rw [partitionNames, mem_firstSeen, List.mem_map]
  refine ⟨?_, ?_⟩
  · rintro ⟨r, hr, rfl⟩
    obtain ⟨hlt, hp⟩ := mem_rowsOf.1 hr
    refine ⟨?_, hp⟩
    rw [keyOf, getD_of_lt keys hlt]
    exact List.getElem_mem hlt
  · rintro ⟨hk, hp⟩
    obtain ⟨r, hr, rfl⟩ := List.getElem_of_mem hk
    have hkey : keyOf keys r = keys[r] := getD_of_lt keys hr 0
    exact ⟨r, mem_rowsOf.2 ⟨hr, by rw [hkey]; exact hp⟩, hkey⟩

theorem numbering_partitionNames (keys : List Lane) (nPartitions : ℕ) :
    PartitionNumbering keys nPartitions (partitionNames keys nPartitions) :=
  ⟨fun _ _ => nodup_firstSeen _, fun _ _ _ => mem_partitionNames⟩

theorem enumerates_partitionedNames {keys : List Lane} {nPartitions : ℕ} (h : 0 < nPartitions) :
    Enumerates (partitionedNames keys nPartitions) keys :=
  (numbering_partitionNames keys nPartitions).enumerates h

/-- The partitioned build returns the grouping by partition, then first appearance. -/
theorem cpuPartitionedHash_eq {keys : List Lane} (hlen : keys.length < 2 ^ 32) {nPartitions : ℕ}
    (hpow : ∃ b, nPartitions = 2 ^ b) :
    cpuPartitionedHash keys nPartitions =
      some ⟨idsBy (partitionedNames keys nPartitions) keys,
        firstsBy (partitionedNames keys nPartitions) keys,
        (partitionedNames keys nPartitions).length⟩ := by
  have hpos : 0 < nPartitions := by obtain ⟨b, rfl⟩ := hpow; exact Nat.two_pow_pos b
  by_cases hnil : keys = []
  · subst hnil
    have hempty : partitionedNames [] nPartitions = [] := by
      rw [List.eq_nil_iff_forall_not_mem]
      intro k hk
      exact absurd (((enumerates_partitionedNames hpos).mem_iff k).1 hk) (by simp)
    rw [hempty]
    rfl
  have hassert : ¬ nPartitions ≠ 2 ^ nPartitions.log2 := by
    obtain ⟨b, rfl⟩ := hpow
    simp [Nat.log2_two_pow]
  obtain ⟨tables, locals, hrun, hlens, -, hdone⟩ := buildPartitions_spec keys
    ((List.range nPartitions).map (rowsOf keys nPartitions)) (by
      intro rows hrows r hr
      obtain ⟨p, -, rfl⟩ := List.mem_map.1 hrows
      exact (mem_rowsOf.1 hr).1) (disjoint_rowsOf keys nPartitions)
  have htables : tables.map List.length =
      (List.range nPartitions).map (fun p => (partitionNames keys nPartitions p).length) := by
    rw [hlens, List.map_map]
    rfl
  have hlocal : ∀ r < keys.length, locals.getD r 0 =
      (partitionNames keys nPartitions (partitionId (keyOf keys r) nPartitions)).idxOf
        (keyOf keys r) :=
    fun r hr => hdone _ (List.mem_map.2 ⟨_, List.mem_range.2 (partitionId_lt _ hpos), rfl⟩) r
      (mem_rowsOf.2 ⟨hr, rfl⟩)
  obtain ⟨hgroups, hfold⟩ :=
    (numbering_partitionNames keys nPartitions).globalRun hpos hlen _ hlocal
  rw [cpuPartitionedHash, if_neg hnil, if_neg hassert, rowsByPartition_eq hlen, hrun]
  simp only [Option.bind_eq_bind, Option.bind_some, htables, hgroups, hfold, pure]
  rfl

theorem groups_cpuPartitionedHash {keys : List Lane} (hlen : keys.length < 2 ^ 32) {nPartitions : ℕ}
    (hpow : ∃ b, nPartitions = 2 ^ b) :
    ∃ out, cpuPartitionedHash keys nPartitions = some out ∧ Groups keys out := by
  have hpos : 0 < nPartitions := by obtain ⟨b, rfl⟩ := hpow; exact Nat.two_pow_pos b
  exact ⟨_, cpuPartitionedHash_eq hlen hpow, (enumerates_partitionedNames hpos).isGrouping⟩

end PolarsMetal.GroupBy
