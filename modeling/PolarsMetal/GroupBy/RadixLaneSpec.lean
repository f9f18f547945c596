import PolarsMetal.GroupBy.RadixLane
import PolarsMetal.GroupBy.BuildSort
import PolarsMetal.Lib.Placement
import Mathlib.Data.Nat.Count

/-! The lane pass is the stable counting sort by its byte. Everything is a count of earlier rows with
a digit: a tile's histogram counts its rows, the scan the tiles above, the simdgroups' table the
simdgroups before, the match the lanes before; together they count the rows before a row. -/

namespace PolarsMetal.GroupBy
open Interleave Placement Reads

/-! Digits. -/

theorem extractDigit_lt (keyLo keyHi : BitVec 64) (laneIdx : ℕ) :
    extractDigit keyLo keyHi laneIdx < 256 := by
  have hand : ∀ x : BitVec 64, (x &&& 0xFF).toNat < 256 := fun x => by
    rw [BitVec.toNat_and]
    exact Nat.lt_succ_of_le Nat.and_le_right
  unfold extractDigit
  split_ifs
  · exact hand _
  · exact hand _

theorem half_digit (x : ℕ) {l : ℕ} (hl : l < 8) :
    x % 2 ^ 64 / 2 ^ (8 * l) % 2 ^ 8 = x / 2 ^ (8 * l) % 2 ^ 8 := by
  have hsplit : (2 : ℕ) ^ 64 = 2 ^ (8 * l) * 2 ^ (64 - 8 * l) := by
    rw [← Nat.pow_add]
    congr 1
    omega
  rw [hsplit, Nat.mod_mul_right_div_self]
  exact Nat.mod_mod_of_dvd _ (Nat.pow_dvd_pow 2 (by omega))

/-- The byte of the half that holds it. -/
theorem extractDigit_eq (key : Lane) (row : ℕ) {lane : ℕ} (hlane : lane < 16) :
    extractDigit (key.setWidth 64) ((key >>> 64).setWidth 64) lane = laneDigit lane (key, row) := by
  have hmask : ∀ x : BitVec 64, (x &&& 0xFF).toNat = x.toNat % 2 ^ 8 := fun x => by
    rw [BitVec.toNat_and]
    exact Nat.and_two_pow_sub_one_eq_mod _ 8
  have hdigit : laneDigit lane (key, row) = key.toNat / 2 ^ (8 * lane) % 2 ^ 8 := by
    rw [laneDigit, BitVec.toNat_and, BitVec.toNat_ushiftRight, Nat.shiftRight_eq_div_pow]
    exact Nat.and_two_pow_sub_one_eq_mod _ 8
  rw [hdigit]
  unfold extractDigit
  split_ifs with hlow
  · rw [hmask, BitVec.toNat_ushiftRight, BitVec.toNat_setWidth, Nat.shiftRight_eq_div_pow,
      Nat.mul_comm lane 8, half_digit _ hlow]
  · rw [hmask, BitVec.toNat_ushiftRight, BitVec.toNat_setWidth, BitVec.toNat_ushiftRight,
      Nat.shiftRight_eq_div_pow, Nat.shiftRight_eq_div_pow, Nat.mul_comm (lane - 8) 8,
      half_digit _ (by omega), Nat.div_div_eq_div_mul, ← Nat.pow_add]
    congr 3
    omega

namespace LaneInput

variable (b : LaneInput)

def HasDigit (d gid : ℕ) : Prop := gid < b.nRows ∧ b.digit gid = d

instance (d gid : ℕ) : Decidable (b.HasDigit d gid) :=
  inferInstanceAs (Decidable (gid < b.nRows ∧ b.digit gid = d))

theorem digit_lt (gid : ℕ) : b.digit gid < 256 := extractDigit_lt _ _ _

/-! The histogram of a tile. -/

theorem zeroOps_idle (cells : ℕ) (tid : ℕ) (h : tileSize ≤ tid) : zeroOps cells tid = [] :=
  if_neg (Nat.not_lt.2 h)

/-- The zeroing loop leaves nothing of what the memory held. -/
theorem zeroed_eq {c : ℕ} {mem order : List ℕ} (hlen : mem.length = c)
    (horder : ∀ tid < tileSize, (c + 255) / 256 ≤ order.count tid) :
    exec (zeroOps c) store mem order = List.replicate c 0 := by
  have hcomplete : Complete (zeroOps c) tileSize order := by
    intro tid htid
    refine le_trans ?_ (horder tid htid)
    unfold zeroOps strided
    rw [if_pos htid, List.length_map, List.length_map, List.length_range]
    exact Nat.div_le_div_right (by unfold tileSize; omega)
  have hcells := length_exec_store (m := mem) (zeroOps_idle c) hcomplete
  refine List.ext_getElem? fun i => ?_
  by_cases hi : i < c
  · have hmod : i % tileSize < tileSize := Nat.mod_lt _ (by decide)
    have hread := getElem?_exec_store (zeroOps_idle c) hcomplete (hlen.symm ▸ hi) (v := 0)
      ⟨i % tileSize, hmod, by
        rw [zeroOps, if_pos hmod]
        exact List.mem_map.2 ⟨i, (mem_strided hmod).2 ⟨hi, rfl⟩, rfl⟩⟩
      fun t ht w hw => by
        rw [zeroOps, if_pos ht] at hw
        obtain ⟨j, -, heq⟩ := List.mem_map.1 hw
        exact (Prod.mk.inj heq).2.symm
    rw [hread, List.getElem?_replicate, if_pos hi]
  · rw [List.getElem?_eq_none (by omega), List.getElem?_eq_none (by simp; omega)]

theorem count_addOps (tgId d : ℕ) {m : ℕ} (hm : m ≤ tileSize) :
    ((List.range m).flatMap (b.addOps tgId)).count d =
      Nat.count (fun k => b.HasDigit d (tgId * tileSize + k)) m := by
  induction m with
  | zero => rfl
  | succ m ih =>
    have hm' : m < tileSize := hm
    rw [List.range_succ, List.flatMap_append, List.count_append, ih (by omega),
      List.flatMap_singleton, Nat.count_succ]
    congr 1
    unfold addOps
    by_cases hrow : tgId * tileSize + m < b.nRows
    · rw [if_pos ⟨hm', hrow⟩, List.count_singleton]
      by_cases hd : b.digit (tgId * tileSize + m) = d
      · rw [if_pos (show b.HasDigit d (tgId * tileSize + m) from ⟨hrow, hd⟩),
          if_pos (by simpa using hd)]
      · rw [if_neg (fun h : b.HasDigit d (tgId * tileSize + m) => hd h.2),
          if_neg (by simpa using hd)]
    · rw [if_neg (fun h => hrow h.2),
        if_neg (fun h : b.HasDigit d (tgId * tileSize + m) => hrow h.1), List.count_nil]

section Run

variable {b} {g : LaneRun} (hg : g.Completes b.nRows)

include hg

/-- A tile's histogram counts its rows by digit, in whatever order they were added. -/
theorem tgsmHist_eq {tgId d : ℕ} (htg : tgId < tileCount b.nRows) (hd : d < 256) :
    (b.tgsmHist g tgId).getD d 0 =
      Nat.count (fun k => b.HasDigit d (tgId * tileSize + k)) tileSize := by
  unfold tgsmHist
  simp only
  rw [zeroed_eq (c := 256) (by rw [List.length_map, List.length_range])
    (hg.zeroHist tgId htg)]
  have hidle : ∀ t, tileSize ≤ t → b.addOps tgId t = [] := fun t ht =>
    if_neg fun h => Nat.not_lt.2 ht h.1
  have hcomplete : Complete (b.addOps tgId) tileSize (g.addHist tgId) := by
    intro t ht
    refine le_trans ?_ (hg.addHist tgId htg t ht)
    unfold addOps
    split_ifs
    · exact Nat.le_refl 1
    · exact Nat.zero_le 1
  obtain ⟨trace, hexec, hperm⟩ := exec_eq_foldl_perm (addOne (2 ^ 32)) (List.replicate 256 0) hidle
    hcomplete
  have hcount := Nat.count_le (p := fun k => b.HasDigit d (tgId * tileSize + k)) (n := tileSize)
  have hsmall : tileSize < 2 ^ 32 := by decide
  rw [hexec, getD_foldl_addOne (by rwa [List.length_replicate]) (by rw [getD_replicate]; decide), getD_replicate,
    hperm.count_eq, count_addOps b tgId d (Nat.le_refl _), Nat.zero_add, Nat.mod_eq_of_lt (by omega)]

/-- The histograms of all tiles. -/
theorem laneTileHist_eq {tgId d : ℕ} (htg : tgId < tileCount b.nRows) (hd : d < 256) :
    (b.laneTileHist g (tileCount b.nRows)).getD (tgId * 256 + d) 0 =
      Nat.count (fun k => b.HasDigit d (tgId * tileSize + k)) tileSize := by
  have hsize : tileSize = 256 := rfl
  have hidle : ∀ t, tileCount b.nRows * tileSize ≤ t →
      b.histOps g (tileCount b.nRows) t = [] := fun t ht => if_neg (Nat.not_lt.2 ht)
  have hcomplete : Complete (b.histOps g (tileCount b.nRows)) (tileCount b.nRows * tileSize)
      g.storeHist := by
    intro t ht
    refine le_trans ?_ (hg.storeHist t ht)
    unfold histOps strided
    simp only
    rw [if_pos ht, List.length_map, List.length_map, List.length_range, hsize]
    exact (Nat.div_le_div_right (by omega)).trans (by decide : (256 + 255) / 256 ≤ 1)
  have hcell : tgId * 256 + d < tileCount b.nRows * 256 := by
    have := Nat.mul_le_mul_right 256 (Nat.succ_le_of_lt htg)
    rw [Nat.succ_mul] at this
    omega
  have hdiv : (tgId * 256 + d) / tileSize = tgId := by rw [hsize]; omega
  have hmod : (tgId * 256 + d) % tileSize = d := by rw [hsize]; omega
  have hread := getElem?_exec_store hidle hcomplete
    (m := List.replicate (tileCount b.nRows * 256) 0) (by rwa [List.length_replicate])
    (v := (b.tgsmHist g tgId).getD d 0) ⟨tgId * 256 + d, hcell, by
      unfold histOps
      simp only
      rw [if_pos (show _ < _ * tileSize from hcell), hdiv, hmod]
      exact List.mem_map.2 ⟨d, (mem_strided (by rw [hsize]; exact hd)).2
        ⟨hd, Nat.mod_eq_of_lt hd⟩, rfl⟩⟩
    fun t ht w hw => by
      unfold histOps at hw
      simp only at hw
      rw [if_pos ht] at hw
      obtain ⟨i, hi, heq⟩ := List.mem_map.1 hw
      have hi := ((mem_strided (Nat.mod_lt t (show 0 < tileSize by decide))).1 hi).1
      obtain ⟨hslot, hval⟩ := Prod.mk.inj heq
      have htile : t / tileSize = tgId := by omega
      have hdigit : i = d := by omega
      rw [← hval, htile, hdigit]
  rw [laneTileHist, List.getD_eq_getElem?_getD, hread, Option.getD_some, tgsmHist_eq hg htg hd]

end Run

end LaneInput

/-! The host's scan. -/

def columnSum (tileHist : List ℕ) (d k : ℕ) : ℕ :=
  ((List.range k).map fun t => tileHist.getD (t * 256 + d) 0).sum

theorem columnSum_succ (tileHist : List ℕ) (d k : ℕ) :
    columnSum tileHist d (k + 1) = columnSum tileHist d k + tileHist.getD (k * 256 + d) 0 := by
  unfold columnSum
  rw [List.range_succ, List.map_append, List.sum_append, List.map_singleton, List.sum_singleton]

theorem column_succ (i d k : ℕ) :
    (i % 256 = d % 256 ∧ d ≤ i ∧ i < (k + 1) * 256 + d) ↔
      (i % 256 = d % 256 ∧ d ≤ i ∧ i < k * 256 + d) ∨ k * 256 + d = i := by
  omega

/-- The loop over the tiles for one digit. -/
theorem foldl_scanTile {tileHist before : List ℕ} {d k : ℕ}
    (hfit : ∀ t < k, t * 256 + d < before.length) (hsum : columnSum tileHist d k < 2 ^ 32) :
    ((List.range k).foldl (scanTile tileHist d) (before, 0)).2 = columnSum tileHist d k ∧
      ((List.range k).foldl (scanTile tileHist d) (before, 0)).1.length = before.length ∧
      ∀ i, ((List.range k).foldl (scanTile tileHist d) (before, 0)).1.getD i 0 =
        if i % 256 = d % 256 ∧ d ≤ i ∧ i < k * 256 + d then columnSum tileHist d ((i - d) / 256)
        else before.getD i 0 := by
  induction k with
  | zero => exact ⟨rfl, rfl, fun i => by rw [if_neg (by omega)]; rfl⟩
  | succ k ih =>
    rw [columnSum_succ] at hsum
    obtain ⟨hacc, hlen, hread⟩ := ih (fun t ht => hfit t (by omega)) (by omega)
    rw [List.range_succ, List.foldl_append, List.foldl_cons, List.foldl_nil]
    unfold scanTile at *
    simp only at *
    refine ⟨by rw [hacc, columnSum_succ, asU32_of_lt hsum], by rw [List.length_set, hlen],
      fun i => ?_⟩
    rw [getD_set _ _ _ _ (by rw [hlen]; exact hfit k (by omega)), hread, hacc]
    by_cases hi : k * 256 + d = i
    · rw [if_pos hi, if_pos ((column_succ i d k).2 (Or.inr hi)), ← hi, Nat.add_sub_cancel,
        Nat.mul_div_cancel _ (by decide)]
    · rw [if_neg hi]
      by_cases hold : i % 256 = d % 256 ∧ d ≤ i ∧ i < k * 256 + d
      · rw [if_pos hold, if_pos ((column_succ i d k).2 (Or.inl hold))]
      · rw [if_neg hold, if_neg fun h => ((column_succ i d k).1 h).elim hold hi]

/-- The loop over the digits. -/
theorem foldl_scanDigit {tileHist before totals : List ℕ} {nTiles m : ℕ} (hm : m ≤ 256)
    (hlen : before.length = nTiles * 256) (htotals : totals.length = 256)
    (hsum : ∀ d < 256, columnSum tileHist d nTiles < 2 ^ 32) :
    ((List.range m).foldl (scanDigit tileHist nTiles) (before, totals)).1.length = nTiles * 256 ∧
      ((List.range m).foldl (scanDigit tileHist nTiles) (before, totals)).2.length = 256 ∧
      ∀ d < m, ((List.range m).foldl (scanDigit tileHist nTiles) (before, totals)).2.getD d 0 =
          columnSum tileHist d nTiles ∧
        ∀ t < nTiles, ((List.range m).foldl (scanDigit tileHist nTiles)
          (before, totals)).1.getD (t * 256 + d) 0 = columnSum tileHist d t := by
  induction m with
  | zero => exact ⟨hlen, htotals, fun d hd => absurd hd (Nat.not_lt_zero d)⟩
  | succ m ih =>
    obtain ⟨hlen', htotals', hdone⟩ := ih (by omega)
    rw [List.range_succ, List.foldl_append, List.foldl_cons, List.foldl_nil]
    set s := (List.range m).foldl (scanDigit tileHist nTiles) (before, totals) with hs
    obtain ⟨hacc, hkeep, hread⟩ := @foldl_scanTile tileHist s.1 m nTiles
      (fun t ht => by
        have := Nat.mul_le_mul_right 256 (Nat.succ_le_of_lt ht)
        rw [Nat.succ_mul] at this
        omega) (hsum m (by omega))
    unfold scanDigit
    simp only
    refine ⟨by rw [hkeep, hlen'], by rw [List.length_set, htotals'], fun d hd => ⟨?_, fun t ht => ?_⟩⟩
    · rw [getD_set _ _ _ _ (by omega), hacc]
      by_cases hdm : m = d
      · rw [if_pos hdm, hdm]
      · rw [if_neg hdm, (hdone d (by omega)).1]
    · rw [hread]
      by_cases hdm : m = d
      · have hlt := Nat.mul_lt_mul_of_pos_right ht (show 0 < 256 by decide)
        have hcell : t * 256 + m < nTiles * 256 + m := Nat.add_lt_add_right hlt m
        rw [← hdm, if_pos ⟨Nat.mul_add_mod_self_right t 256 m, Nat.le_add_left m _, hcell⟩,
          Nat.add_sub_cancel, Nat.mul_div_cancel _ (by decide)]
      · have hother : ¬ (t * 256 + d) % 256 = m % 256 := by
          rw [Nat.mul_add_mod_self_right, Nat.mod_eq_of_lt (by omega), Nat.mod_eq_of_lt hm]
          exact Ne.symm hdm
        rw [if_neg (fun h => hother h.1), (hdone d (by omega)).2 t ht]

theorem foldl_offsetStep {totals : List ℕ} (hlen : totals.length = 256)
    (hsum : totals.sum < 2 ^ 32) {m : ℕ} (hm : m ≤ 255) :
    ((List.range' 1 m).foldl (offsetStep totals) (List.replicate 256 0)).length = 256 ∧
      ∀ d ≤ m, ((List.range' 1 m).foldl (offsetStep totals) (List.replicate 256 0)).getD d 0 =
        start totals d := by
  induction m with
  | zero =>
    refine ⟨List.length_replicate, fun d hd => ?_⟩
    rw [Nat.le_zero.1 hd, start_zero, List.range'_zero, List.foldl_nil, getD_replicate]
  | succ m ih =>
    obtain ⟨hlen', hread⟩ := ih (by omega)
    have hle := start_mono totals (show m + 1 ≤ totals.length by omega)
    rw [start_length] at hle
    have hstep : start totals (m + 1) = start totals m + totals.getD m 0 := by
      rw [start_succ (by omega), getD_of_lt _ (by omega)]
    rw [List.range'_1_concat, List.foldl_append, List.foldl_cons, List.foldl_nil]
    unfold offsetStep at *
    refine ⟨by rw [List.length_set, hlen'], fun d hd => ?_⟩
    rw [getD_set _ _ _ _ (by rw [hlen']; omega), Nat.add_sub_cancel_left]
    by_cases hd' : 1 + m = d
    · rw [if_pos hd', hread m (Nat.le_refl m), ← hstep, ← hd', Nat.add_comm 1 m,
        asU32_of_lt (by omega)]
    · rw [if_neg hd', hread d (by omega)]

namespace LaneInput

variable {b : LaneInput} {g : LaneRun} (hg : g.Completes b.nRows)

include hg

/-- Above a tile. -/
theorem columnSum_laneTileHist {d k : ℕ} (hd : d < 256) (hk : k ≤ tileCount b.nRows) :
    columnSum (b.laneTileHist g (tileCount b.nRows)) d k =
      Nat.count (b.HasDigit d) (k * tileSize) := by
  induction k with
  | zero =>
    rw [Nat.zero_mul, Nat.count_zero]
    rfl
  | succ k ih =>
    rw [columnSum_succ, ih (by omega), laneTileHist_eq hg (by omega) hd, Nat.succ_mul,
      Nat.count_add]

end LaneInput

/-- The rows of the tiles are the rows. -/
theorem le_tileCount_mul (nRows : ℕ) : nRows ≤ tileCount nRows * tileSize := by
  unfold tileCount tileSize
  omega

/-! The match in a simdgroup. -/

namespace LaneInput

variable {b : LaneInput}

theorem myDigit_of_lt {gid : ℕ} (h : gid < b.nRows) : b.myDigit gid = b.digit gid := if_pos h

theorem myDigit_lt (gid : ℕ) : b.myDigit gid < 256 := by
  unfold myDigit
  split_ifs
  · exact b.digit_lt gid
  · decide

theorem matches_iff {gid other : ℕ} (h : gid < b.nRows) :
    (gid < b.nRows ∧ other < b.nRows ∧ b.myDigit other = b.myDigit gid) ↔
      b.HasDigit (b.digit gid) other := by
  refine ⟨fun ⟨_, hother, heq⟩ => ⟨hother, ?_⟩, fun ⟨hother, heq⟩ => ⟨h, hother, ?_⟩⟩
  · rwa [myDigit_of_lt hother, myDigit_of_lt h] at heq
  · rw [myDigit_of_lt hother, myDigit_of_lt h, heq]

/-- After `m` lanes have broadcast: the matches among them before this lane, and all of them. -/
theorem foldl_matchLane {gid : ℕ} (h : gid < b.nRows) (m : ℕ) :
    (List.range m).foldl (b.matchLane gid) (0, 0) =
      (Nat.count (fun k => b.HasDigit (b.digit gid) (gid / laneSimdWidth * laneSimdWidth + k))
          (min m (gid % laneSimdWidth)),
        Nat.count (fun k => b.HasDigit (b.digit gid) (gid / laneSimdWidth * laneSimdWidth + k)) m) := by
  induction m with
  | zero => simp
  | succ m ih =>
    rw [List.range_succ, List.foldl_append, ih, List.foldl_cons, List.foldl_nil]
    unfold matchLane
    simp only [matches_iff h, Nat.count_succ]
    by_cases hk : m < gid % laneSimdWidth
    · rw [Nat.min_eq_left (Nat.le_of_lt hk), Nat.min_eq_left hk, Nat.count_succ]
      by_cases hm : b.HasDigit (b.digit gid) (gid / laneSimdWidth * laneSimdWidth + m)
      · rw [if_pos hm, if_pos hk, if_pos hm]
      · rw [if_neg hm, if_neg hm, Nat.add_zero]
    · rw [Nat.min_eq_right (by omega), Nat.min_eq_right (by omega)]
      by_cases hm : b.HasDigit (b.digit gid) (gid / laneSimdWidth * laneSimdWidth + m)
      · rw [if_pos hm, if_neg hk, if_pos hm]
      · rw [if_neg hm, if_neg hm, Nat.add_zero]

/-- The matches before a lane and in its whole simdgroup. -/
theorem simdMatch_eq {gid : ℕ} (h : gid < b.nRows) :
    b.simdMatch gid =
      (Nat.count (fun k => b.HasDigit (b.digit gid) (gid / laneSimdWidth * laneSimdWidth + k))
          (gid % laneSimdWidth),
        Nat.count (fun k => b.HasDigit (b.digit gid) (gid / laneSimdWidth * laneSimdWidth + k))
          laneSimdWidth) := by
  unfold simdMatch
  rw [foldl_matchLane h, Nat.min_eq_right (Nat.le_of_lt (Nat.mod_lt _ (by decide)))]

/-! The table of the simdgroups. -/

section Run

variable {g : LaneRun} (hg : g.Completes b.nRows)

omit hg

/-- A simdgroup's place in the grid. -/
theorem simd_div {tgId tid : ℕ} :
    (tgId * tileSize + tid) / laneSimdWidth * laneSimdWidth =
      tgId * tileSize + tid / laneSimdWidth * laneSimdWidth := by
  unfold tileSize laneSimdWidth
  omega

theorem lane_place {tgId s k : ℕ} (hs : s < simdsPerTile) (hk : k < laneSimdWidth) :
    s * laneSimdWidth + k < tileSize ∧ (s * laneSimdWidth + k) / laneSimdWidth = s ∧
      (tgId * tileSize + (s * laneSimdWidth + k)) % laneSimdWidth = k := by
  unfold simdsPerTile at hs
  unfold laneSimdWidth at *
  unfold tileSize
  omega

theorem lane_split (gid : ℕ) :
    gid % tileSize = gid % tileSize / laneSimdWidth * laneSimdWidth + gid % laneSimdWidth ∧
      gid / laneSimdWidth * laneSimdWidth =
        gid / tileSize * tileSize + gid % tileSize / laneSimdWidth * laneSimdWidth := by
  unfold tileSize laneSimdWidth
  omega

theorem simd_lt (gid : ℕ) : gid % tileSize / laneSimdWidth < simdsPerTile := by
  unfold tileSize laneSimdWidth simdsPerTile
  omega

theorem div_lt_tileCount {gid nRows : ℕ} (h : gid < nRows) : gid / tileSize < tileCount nRows := by
  unfold tileCount tileSize
  omega

theorem mem_publishOps {tgId tid : ℕ} (htid : tid < tileSize) {entry : ℕ × ℕ} :
    entry ∈ b.publishOps tgId tid ↔ tgId * tileSize + tid < b.nRows ∧
      (b.simdMatch (tgId * tileSize + tid)).1 = 0 ∧ (b.simdMatch (tgId * tileSize + tid)).2 > 0 ∧
      entry = (tid / laneSimdWidth * 256 + b.myDigit (tgId * tileSize + tid),
        (b.simdMatch (tgId * tileSize + tid)).2) := by
  unfold publishOps
  simp only
  by_cases h : tid < tileSize ∧ tgId * tileSize + tid < b.nRows ∧
      (b.simdMatch (tgId * tileSize + tid)).1 = 0 ∧ (b.simdMatch (tgId * tileSize + tid)).2 > 0
  · rw [if_pos h, List.mem_singleton]
    exact ⟨fun heq => ⟨h.2.1, h.2.2.1, h.2.2.2, heq⟩, fun h => h.2.2.2⟩
  · rw [if_neg h]
    refine ⟨fun hmem => absurd hmem List.not_mem_nil, fun hall => ?_⟩
    exact absurd ⟨htid, hall.1, hall.2.1, hall.2.2.1⟩ h

include hg

/-- The first lane with a digit publishes its simdgroup's count; a digit no lane has stays at
zero. -/
theorem simdDigitCounts_eq {tgId s d : ℕ} (htg : tgId < tileCount b.nRows) (hs : s < simdsPerTile)
    (hd : d < 256) : (b.simdDigitCounts g tgId).getD (s * 256 + d) 0 =
      Nat.count (fun k => b.HasDigit d (tgId * tileSize + s * laneSimdWidth + k)) laneSimdWidth := by
  have hidle : ∀ t, tileSize ≤ t → b.publishOps tgId t = [] := fun t ht =>
    if_neg fun h => Nat.not_lt.2 ht h.1
  have hcomplete : Complete (b.publishOps tgId) tileSize (g.publish tgId) := by
    intro t ht
    refine le_trans ?_ (hg.publish tgId htg t ht)
    unfold publishOps
    simp only
    split_ifs
    · exact Nat.le_refl 1
    · exact Nat.zero_le 1
  have hcell : s * 256 + d < simdsPerTile * 256 := by omega
  unfold simdDigitCounts
  simp only
  rw [zeroed_eq (c := simdsPerTile * 256) (by rw [List.length_map, List.length_range])
    (fun tid htid => (by decide : (simdsPerTile * 256 + 255) / 256 ≤ simdsPerTile).trans
      (hg.zeroSimd tgId htg tid htid)), List.getD_eq_getElem?_getD]
  -- what a thread publishes in this cell
  have hwriter : ∀ t < tileSize, ∀ v, (s * 256 + d, v) ∈ b.publishOps tgId t →
      t / laneSimdWidth = s ∧ b.HasDigit d (tgId * tileSize + t) ∧
        v = Nat.count (fun k => b.HasDigit d (tgId * tileSize + s * laneSimdWidth + k)) laneSimdWidth := by
    intro t ht v hv
    obtain ⟨hrow, -, -, heq⟩ := (mem_publishOps ht).1 hv
    obtain ⟨hslot, hval⟩ := Prod.mk.inj heq
    have hlt := b.myDigit_lt (tgId * tileSize + t)
    have hsimd : t / laneSimdWidth = s := by omega
    have hdigit : b.myDigit (tgId * tileSize + t) = d := by omega
    rw [myDigit_of_lt hrow] at hdigit
    refine ⟨hsimd, ⟨hrow, hdigit⟩, ?_⟩
    rw [hval, simdMatch_eq hrow, simd_div, hsimd, hdigit]
  by_cases hnone : ∀ k < laneSimdWidth, ¬ b.HasDigit d (tgId * tileSize + s * laneSimdWidth + k)
  · have hkeep := getElem?_exec_store_of_notMem (i := s * 256 + d) hidle hcomplete
      (m := List.replicate (simdsPerTile * 256) 0) fun t ht v hv => by
        obtain ⟨hsimd, hmine, -⟩ := hwriter t ht v hv
        refine hnone (t % laneSimdWidth) (Nat.mod_lt _ (by decide)) ?_
        rwa [← hsimd, Nat.add_assoc, Nat.mul_comm (t / laneSimdWidth), Nat.div_add_mod]
    rw [hkeep, List.getElem?_replicate, if_pos hcell, Option.getD_some,
      Nat.count_iff_forall_not.2 hnone]
  · -- the first lane with the digit
    have hsome : ∃ k, k < laneSimdWidth ∧ b.HasDigit d (tgId * tileSize + s * laneSimdWidth + k) := by
      by_contra hall
      exact hnone fun k hk hmine => hall ⟨k, hk, hmine⟩
    obtain ⟨k, hk, hmine, hfirst⟩ : ∃ k, k < laneSimdWidth ∧
        b.HasDigit d (tgId * tileSize + s * laneSimdWidth + k) ∧
        ∀ j < k, ¬ b.HasDigit d (tgId * tileSize + s * laneSimdWidth + j) := by
      refine ⟨Nat.find hsome, (Nat.find_spec hsome).1, (Nat.find_spec hsome).2, fun j hj hmine => ?_⟩
      exact Nat.find_min hsome hj ⟨hj.trans (Nat.find_spec hsome).1, hmine⟩
    obtain ⟨htid, hsimd, hlane⟩ := @lane_place tgId s k hs hk
    rw [Nat.add_assoc] at hmine
    have hmatch := simdMatch_eq hmine.1
    rw [simd_div, hsimd, hmine.2, hlane] at hmatch
    have hpublish : (s * 256 + d,
        Nat.count (fun k => b.HasDigit d (tgId * tileSize + s * laneSimdWidth + k)) laneSimdWidth) ∈
        b.publishOps tgId (s * laneSimdWidth + k) := by
      refine (mem_publishOps htid).2 ⟨hmine.1, ?_, ?_, ?_⟩
      · rw [hmatch]
        exact Nat.count_iff_forall_not.2 hfirst
      · rw [hmatch]
        refine Nat.pos_of_ne_zero (Nat.count_ne_iff_exists.2 ⟨k, hk, ?_⟩)
        rw [Nat.add_assoc]
        exact hmine
      · rw [hmatch, hsimd, myDigit_of_lt hmine.1, hmine.2]
    have hread := getElem?_exec_store hidle hcomplete
      (m := List.replicate (simdsPerTile * 256) 0) (by rwa [List.length_replicate])
      ⟨_, htid, hpublish⟩ fun t ht w hw => (hwriter t ht w hw).2.2
    rw [hread, Option.getD_some]

/-- The rows of the tile in earlier simdgroups with this digit. -/
theorem crossRank_eq {gid : ℕ} (h : gid < b.nRows) : b.crossRank g gid =
    Nat.count (fun k => b.HasDigit (b.digit gid) (gid / tileSize * tileSize + k))
      (gid % tileSize / laneSimdWidth * laneSimdWidth) := by
  have htg := div_lt_tileCount h
  unfold crossRank
  simp only [myDigit_of_lt h]
  have hrun : ∀ m, m ≤ gid % tileSize / laneSimdWidth → (List.range m).foldl (fun acc s => asU32
      (acc + (b.simdDigitCounts g (gid / tileSize)).getD (s * 256 + b.digit gid) 0)) 0 =
      Nat.count (fun k => b.HasDigit (b.digit gid) (gid / tileSize * tileSize + k))
        (m * laneSimdWidth) := by
    intro m hm
    induction m with
    | zero => simp
    | succ m ih =>
      have hle := Nat.count_le (n := (m + 1) * laneSimdWidth)
        (p := fun k => b.HasDigit (b.digit gid) (gid / tileSize * tileSize + k))
      have hm8 : m < simdsPerTile := (Nat.lt_of_succ_le hm).trans (simd_lt gid)
      have hsmall : (m + 1) * laneSimdWidth < 2 ^ 32 :=
        (Nat.mul_le_mul_right laneSimdWidth hm8).trans_lt (by decide)
      have hstep : Nat.count (fun k => b.HasDigit (b.digit gid) (gid / tileSize * tileSize + k))
          ((m + 1) * laneSimdWidth) =
          Nat.count (fun k => b.HasDigit (b.digit gid) (gid / tileSize * tileSize + k))
            (m * laneSimdWidth) + Nat.count (fun k => b.HasDigit (b.digit gid)
              (gid / tileSize * tileSize + m * laneSimdWidth + k)) laneSimdWidth := by
        rw [Nat.succ_mul, Nat.count_add]
        simp only [Nat.add_assoc]
      rw [List.range_succ, List.foldl_append, ih (by omega), List.foldl_cons, List.foldl_nil,
        simdDigitCounts_eq hg htg hm8 (b.digit_lt gid), ← hstep, asU32_of_lt (by omega)]
  exact hrun _ (Nat.le_refl _)

/-- Where a row goes: behind the rows with smaller digits and the earlier rows with its own. -/
theorem outPos_eq (hn : b.nRows < 2 ^ 32) {tilePrefix globalOffset : List ℕ} {sizes : List ℕ}
    (hsizes : sizes.length = 256) (hsum : sizes.sum = b.nRows)
    (hcount : ∀ d < 256, sizes.getD d 0 = Nat.count (b.HasDigit d) b.nRows)
    (hpre : ∀ d < 256, ∀ t < tileCount b.nRows, tilePrefix.getD (t * 256 + d) 0 =
      Nat.count (b.HasDigit d) (t * tileSize))
    (hoffset : ∀ d < 256, globalOffset.getD d 0 = start sizes d) {gid : ℕ} (h : gid < b.nRows) :
    b.outPos g tilePrefix globalOffset gid =
      start sizes (b.digit gid) + Nat.count (b.HasDigit (b.digit gid)) gid ∧
    Nat.count (b.HasDigit (b.digit gid)) gid < sizes.getD (b.digit gid) 0 := by
  have hd := b.digit_lt gid
  have htg := div_lt_tileCount h
  -- the rows before this one: the tiles above, the simdgroups before, the lanes before
  have htile : Nat.count (b.HasDigit (b.digit gid)) gid =
      Nat.count (b.HasDigit (b.digit gid)) (gid / tileSize * tileSize) +
        Nat.count (fun k => b.HasDigit (b.digit gid) (gid / tileSize * tileSize + k))
          (gid % tileSize) := by
    rw [← Nat.count_add, Nat.mul_comm, Nat.div_add_mod]
  have hsimd : Nat.count (fun k => b.HasDigit (b.digit gid) (gid / tileSize * tileSize + k))
      (gid % tileSize) = b.crossRank g gid + (b.simdMatch gid).1 := by
    obtain ⟨hsplit, hbase⟩ := lane_split gid
    rw [crossRank_eq hg h, simdMatch_eq h]
    conv_lhs => rw [hsplit, Nat.count_add]
    simp only [hbase, Nat.add_assoc]
  have hlt : Nat.count (b.HasDigit (b.digit gid)) gid < sizes.getD (b.digit gid) 0 := by
    rw [hcount _ hd]
    exact Nat.count_strict_mono ⟨h, rfl⟩ h
  have hcell := @cell_lt sizes (b.digit gid) _ (by omega)
    (by rwa [getD_of_lt _ (by omega)] at hlt)
  rw [hsum] at hcell
  refine ⟨?_, hlt⟩
  have hsum32 : start sizes (b.digit gid) + (Nat.count (b.HasDigit (b.digit gid))
      (gid / tileSize * tileSize) + (b.crossRank g gid + (b.simdMatch gid).1)) < 2 ^ 32 := by
    rw [← hsimd, ← htile]
    omega
  unfold outPos
  simp only
  rw [myDigit_of_lt h, hoffset _ hd, hpre _ hd _ htg, htile, hsimd]
  generalize start sizes (b.digit gid) = above at *
  generalize Nat.count (b.HasDigit (b.digit gid)) (gid / tileSize * tileSize) = tiles at *
  generalize b.crossRank g gid + (b.simdMatch gid).1 = rank at *
  rw [asU32_of_lt (show above + tiles < 2 ^ 32 by omega), asU32_of_lt (show rank < 2 ^ 32 by omega),
    asU32_of_lt (show above + tiles + rank < 2 ^ 32 by omega), Nat.add_assoc]

end Run

end LaneInput

/-! The scatter. -/

namespace LaneInput

variable {b : LaneInput}

/-- Past the last row there are no digits. -/
theorem count_hasDigit_of_le (d : ℕ) {m : ℕ} (hm : b.nRows ≤ m) :
    Nat.count (b.HasDigit d) m = Nat.count (b.HasDigit d) b.nRows := by
  obtain ⟨k, rfl⟩ := Nat.exists_eq_add_of_le hm
  have hnone : Nat.count (fun j => b.HasDigit d (b.nRows + j)) k = 0 :=
    Nat.count_iff_forall_not.2 fun j _ h => absurd h.1 (Nat.not_lt.2 (Nat.le_add_right _ j))
  rw [Nat.count_add, hnone, Nat.add_zero]

/-- The rows with a digit, in order. -/
def digitRows (b : LaneInput) (d : ℕ) : List ℕ := (List.range b.nRows).filter (b.HasDigit d)

theorem flatten_digitRows :
    ((List.range 256).map b.digitRows).flatten =
      StableSort.bucketPass 256 b.digit (List.range b.nRows) := by
  unfold StableSort.bucketPass
  rw [← List.flatMap_def]
  refine List.flatMap_congr fun d _ => List.filter_congr fun r hr => ?_
  have hr := List.mem_range.1 hr
  simp only [HasDigit, hr, true_and]

theorem mem_digitRows {d r : ℕ} : r ∈ b.digitRows d ↔ b.HasDigit d r := by
  unfold digitRows
  rw [List.mem_filter, List.mem_range, decide_eq_true_eq]
  exact ⟨And.right, fun h => ⟨h.1, h⟩⟩

/-- A row's place among the rows with its digit is the number of those before it. -/
theorem count_getElem_digitRows {d i : ℕ} (hi : i < (b.digitRows d).length) :
    Nat.count (b.HasDigit d) (b.digitRows d)[i] = i := by
  have hmine := mem_digitRows.1 (List.getElem_mem hi)
  have hplace := getElem?_filter_range (p := b.HasDigit d) hmine.1 hmine
  have hnodup : (b.digitRows d).Nodup := List.nodup_range.filter _
  obtain ⟨hlt, heq⟩ := List.getElem?_eq_some_iff.1 hplace
  exact (hnodup.getElem_inj_iff).1 heq

def digitSizes (b : LaneInput) : List ℕ := sizes ((List.range 256).map b.digitRows)

theorem length_digitSizes : b.digitSizes.length = 256 := by
  unfold digitSizes sizes
  rw [List.length_map, List.length_map, List.length_range]

theorem sum_digitSizes : b.digitSizes.sum = b.nRows := by
  have hperm := @StableSort.bucketPass_perm _ _ b.digit (List.range b.nRows)
    fun r _ => b.digit_lt r
  unfold digitSizes
  rw [← length_flatten, flatten_digitRows, hperm.length_eq, List.length_range]

theorem getD_digitSizes {d : ℕ} (hd : d < 256) :
    b.digitSizes.getD d 0 = Nat.count (b.HasDigit d) b.nRows := by
  rw [getD_of_lt _ (by rw [length_digitSizes]; exact hd)]
  unfold digitSizes sizes digitRows
  rw [List.getElem_map, List.getElem_map, List.getElem_range, length_filter_range]

section Run

variable {g : LaneRun} (hg : g.Completes b.nRows) (hn : b.nRows < 2 ^ 32)

include hg hn

/-- The host's tables: above each tile, and below each digit. -/
theorem scanTiles_eq : (scanTiles (b.laneTileHist g (tileCount b.nRows)) (tileCount b.nRows)).2 =
      b.digitSizes ∧
    ∀ d < 256, ∀ t < tileCount b.nRows,
      (scanTiles (b.laneTileHist g (tileCount b.nRows)) (tileCount b.nRows)).1.getD
        (t * 256 + d) 0 = Nat.count (b.HasDigit d) (t * tileSize) := by
  have htotal : ∀ d < 256, columnSum (b.laneTileHist g (tileCount b.nRows)) d
      (tileCount b.nRows) = Nat.count (b.HasDigit d) b.nRows := fun d hd => by
    rw [columnSum_laneTileHist hg hd (Nat.le_refl _), count_hasDigit_of_le d (le_tileCount_mul _)]
  obtain ⟨-, hlen, hread⟩ := @foldl_scanDigit _ (List.replicate (tileCount b.nRows * 256) 0)
    (List.replicate 256 0) _ 256 (Nat.le_refl _) List.length_replicate List.length_replicate
    fun d hd => by
      rw [htotal d hd]
      exact Nat.lt_of_le_of_lt (Nat.count_le _) hn
  refine ⟨ext_getD 0 (hlen.trans length_digitSizes.symm) fun d hd => ?_, fun d hd t ht => ?_⟩
  · have hd : d < 256 := hd.trans_eq hlen
    rw [getD_digitSizes hd, ← htotal d hd]
    exact (hread d hd).1
  · rw [← columnSum_laneTileHist hg hd (Nat.le_of_lt ht)]
    exact (hread d hd).2 t ht

omit hg in
theorem globalOffsets_eq {d : ℕ} (hd : d < 256) :
    (globalOffsets b.digitSizes).getD d 0 = start b.digitSizes d := by
  have h := foldl_offsetStep length_digitSizes (by rw [sum_digitSizes]; exact hn) (Nat.le_refl 255)
  exact h.2 d (Nat.le_of_lt_succ hd)

/-- Whatever order the stores take effect in, the buffer holds the rows digit by digit, each digit's
in their old order. -/
theorem laneStableScatter_eq {α : Type} (source : List α) (zero : α) {order : List ℕ}
    (horder : ∀ gid < b.nRows, 1 ≤ order.count gid) {tilePrefix globalOffset : List ℕ}
    (hpre : ∀ d < 256, ∀ t < tileCount b.nRows, tilePrefix.getD (t * 256 + d) 0 =
      Nat.count (b.HasDigit d) (t * tileSize))
    (hoffset : ∀ d < 256, globalOffset.getD d 0 = start b.digitSizes d) :
    b.laneStableScatter g (tileCount b.nRows) tilePrefix globalOffset source zero order =
      (StableSort.bucketPass 256 b.digit (List.range b.nRows)).map (source.getD · zero) := by
  have hpos : ∀ {gid}, gid < b.nRows → _ := fun {gid} h =>
    outPos_eq hg hn length_digitSizes sum_digitSizes (fun d hd => getD_digitSizes hd) hpre
      hoffset h
  have hidle : ∀ t, b.nRows ≤ t → b.scatterOps g (tileCount b.nRows) tilePrefix globalOffset
      source zero t = [] := fun t ht => if_neg fun h => Nat.not_lt.2 ht h.2
  have hops : ∀ t < b.nRows, b.scatterOps g (tileCount b.nRows) tilePrefix globalOffset
      source zero t = [(b.outPos g tilePrefix globalOffset t, source.getD t zero)] := fun t ht =>
    if_pos ⟨ht.trans_le (le_tileCount_mul _), ht⟩
  have hcomplete : Complete (b.scatterOps g (tileCount b.nRows) tilePrefix globalOffset
      source zero) b.nRows order := fun t ht => by
    rw [hops t ht]
    exact horder t ht
  have hlen := length_exec_store (m := List.replicate b.nRows zero) hidle hcomplete
  rw [List.length_replicate] at hlen
  have hout : b.laneStableScatter g (tileCount b.nRows) tilePrefix globalOffset source zero order =
      (((List.range 256).map b.digitRows).map (List.map (source.getD · zero))).flatten := by
    have hsizes : sizes (((List.range 256).map b.digitRows).map (List.map (source.getD · zero))) =
        b.digitSizes := by
      unfold digitSizes sizes
      rw [List.map_map]
      exact List.map_congr_left fun rows _ => List.length_map _
    unfold laneStableScatter
    refine eq_flatten (by rw [hlen, hsizes, sum_digitSizes]) fun d hd i hi => ?_
    rw [List.length_map, List.length_map, List.length_range] at hd
    simp only [List.getElem_map, List.getElem_range, List.length_map] at hi ⊢
    rw [hsizes]
    -- the row that belongs in this cell
    obtain ⟨hlt, hdigit⟩ := mem_digitRows.1 (List.getElem_mem hi)
    have hcount := count_getElem_digitRows hi
    generalize (b.digitRows d)[i] = r at hlt hdigit hcount
    obtain ⟨hr, hbound⟩ := hpos hlt
    rw [hdigit, hcount] at hr hbound
    refine getElem?_exec_store hidle hcomplete ?_ ⟨r, hlt, ?_⟩ fun t ht w hw => ?_
    · rw [List.length_replicate, ← sum_digitSizes (b := b)]
      exact cell_lt (by rw [length_digitSizes]; exact hd)
        (by rwa [getD_of_lt _ (by rw [length_digitSizes]; exact hd)] at hbound)
    · rw [hops r hlt, hr]
      exact List.mem_singleton_self _
    · rw [hops t ht, List.mem_singleton] at hw
      obtain ⟨hcell, hval⟩ := Prod.mk.inj hw
      obtain ⟨ht', hbound'⟩ := hpos ht
      rw [ht'] at hcell
      have hd' := b.digit_lt t
      rw [getD_of_lt _ (by rw [length_digitSizes]; exact hd')] at hbound'
      rw [getD_of_lt _ (by rw [length_digitSizes]; exact hd)] at hbound
      obtain ⟨hsame, hrank⟩ := cell_inj _ _ hbound hbound' hcell
      rw [← hsame, ← hcount] at hrank
      have heq := Nat.count_injective (p := b.HasDigit d) ⟨hlt, hdigit⟩ ⟨ht, hsame.symm⟩ hrank
      rw [hval, heq]
  rw [hout, ← List.map_flatten, flatten_digitRows]

end Run

end LaneInput

/-! The pass and the sort. -/

/-- The halves put together again. -/
theorem join_halves (k : Lane) :
    ((k >>> 64).setWidth 64).setWidth 128 <<< 64 ||| (k.setWidth 64).setWidth 128 = k := by
  apply BitVec.eq_of_getLsbD_eq
  intro i hi
  by_cases hlow : i < 64
  · simp [BitVec.getLsbD_setWidth, hi, hlow]
  · simp [BitVec.getLsbD_setWidth, hi, hlow, show i - 64 < 64 by omega,
      show 64 + (i - 64) = i by omega, show i - 64 < 128 by omega]

theorem zip_map_fst_snd {α β : Type*} (pairs : List (α × β)) :
    (pairs.map Prod.fst).zip (pairs.map Prod.snd) = pairs := by
  rw [List.zip_map', List.map_id']

/-- A pass on the device is the stable counting sort by its byte. -/
theorem runRadixLaneGpu_eq {g : LaneRun} {keys : List Lane} {rowIdx : List ℕ} {lane : ℕ}
    (hlen : keys.length = rowIdx.length) (hn : keys.length < 2 ^ 32) (hlane : lane < 16)
    (hg : g.Completes keys.length) : runRadixLaneGpu g keys rowIdx lane =
      some (.ok ((runRadixLane (keys.zip rowIdx) lane).map Prod.fst,
        (runRadixLane (keys.zip rowIdx) lane).map Prod.snd)) := by
  unfold runRadixLaneGpu
  rw [if_neg (not_not.2 hlen)]
  by_cases hnil : keys = []
  · rw [if_pos hnil, hnil]
    have hempty : runRadixLane (([] : List Lane).zip rowIdx) lane = [] := by
      unfold runRadixLane StableSort.bucketPass
      simp
    rw [hempty]
    rfl
  rw [if_neg hnil, if_neg (by omega)]
  set b : LaneInput :=
    { keysLo := keys.map (fun k : Lane => k.setWidth 64)
      keysHi := keys.map (fun k : Lane => (k >>> 64).setWidth 64)
      rowIdx := rowIdx
      nRows := keys.length
      laneIdx := lane } with hb
  have hrows : b.nRows = keys.length := rfl
  obtain ⟨htotal, hpre⟩ := LaneInput.scanTiles_eq (b := b) hg hn
  generalize htables : scanTiles (b.laneTileHist g (tileCount b.nRows)) (tileCount b.nRows) =
    tables at htotal hpre
  obtain ⟨tilePrefix, bucketTotal⟩ := tables
  have hoffset : ∀ d < 256, (globalOffsets bucketTotal).getD d 0 = start b.digitSizes d :=
    fun d hd => by
      rw [show bucketTotal = b.digitSizes from htotal]
      exact LaneInput.globalOffsets_eq hn hd
  have hlo : ∀ r, b.keysLo.getD r 0 = (keys.getD r 0).setWidth 64 :=
    fun r => getD_map (fun k : Lane => k.setWidth 64) keys r 0
  have hhi : ∀ r, b.keysHi.getD r 0 = (keys.getD r 0 >>> 64).setWidth 64 :=
    fun r => getD_map (fun k : Lane => (k >>> 64).setWidth 64) keys r 0
  set order := StableSort.bucketPass 256 b.digit (List.range b.nRows) with horder
  have hlenOrder : order.length = keys.length := by
    rw [horder, (StableSort.bucketPass_perm fun r _ => b.digit_lt r).length_eq, List.length_range]
  have hpairs : runRadixLane (keys.zip rowIdx) lane =
      order.map (fun r => (keys.getD r 0, rowIdx.getD r 0)) := by
    have hdigit : StableSort.bucketPass 256
        (laneDigit lane ∘ fun r => (keys.getD r 0, rowIdx.getD r 0)) (List.range keys.length) =
        order := StableSort.bucketPass_congr fun r _ => by
      rw [Function.comp_apply, ← extractDigit_eq _ _ hlane, ← hlo, ← hhi]
      rfl
    rw [runRadixLane, zip_eq_map_range hlen 0 0, StableSort.bucketPass_map, hdigit]
  have hscatter := fun {α : Type} (source : List α) (zero : α) {turns : List ℕ}
      (hturns : ∀ gid < b.nRows, 1 ≤ turns.count gid) =>
    LaneInput.laneStableScatter_eq (b := b) hg hn source zero hturns hpre hoffset
  simp only [← hrows, htables, hscatter _ _ hg.storeLo, hscatter _ _ hg.storeHi,
    hscatter _ _ hg.storeIdx, ← horder]
  rw [hpairs]
  refine congrArg some (congrArg Except.ok (Prod.ext ?_ ?_))
  · refine List.ext_getElem (by simp [hlenOrder, hrows]) fun i hi hi' => ?_
    have hi : i < order.length := by simpa using hi'
    simp only [List.getElem_map, List.getElem_range]
    rw [getD_of_lt _ (by simpa using hi), getD_of_lt _ (by simpa using hi), List.getElem_map,
      List.getElem_map, hlo, hhi, join_halves]
  · refine List.ext_getElem (by simp [hlenOrder, hrows]) fun i hi hi' => ?_
    have hi : i < order.length := by simpa using hi'
    simp only [List.getElem_map, List.getElem_range]
    rw [getD_of_lt _ (by simpa using hi), List.getElem_map]

/-- The first `m` passes on the device are the first `m` counting sorts. -/
theorem foldl_runRadixLaneGpu {g : ℕ → LaneRun} {keys : List Lane} (hn : keys.length < 2 ^ 32)
    (hg : ∀ lane < 16, (g lane).Completes keys.length) {m : ℕ} (hm : m ≤ 16) :
    (List.range m).foldl (sortLane g) (some (.ok (keys, List.range keys.length))) =
    some (.ok (((List.range m).foldl runRadixLane (keys.zip (List.range keys.length))).map Prod.fst,
      ((List.range m).foldl runRadixLane (keys.zip (List.range keys.length))).map Prod.snd)) := by
  induction m with
  | zero =>
    have hlen : keys.length = (List.range keys.length).length := List.length_range.symm
    rw [List.range_zero, List.foldl_nil, List.foldl_nil, List.map_fst_zip hlen.le,
      List.map_snd_zip hlen.ge]
  | succ m ih =>
    have hlen : ((List.range m).foldl runRadixLane (keys.zip (List.range keys.length))).length =
        keys.length := by
      have hperm : ∀ k, ((List.range k).foldl runRadixLane
          (keys.zip (List.range keys.length))).Perm (keys.zip (List.range keys.length)) := by
        intro k
        induction k with
        | zero => exact List.Perm.refl _
        | succ k ih =>
          rw [List.range_succ, List.foldl_append]
          refine (StableSort.bucketPass_perm fun pair _ => ?_).trans ih
          rw [laneDigit_eq]
          exact Nat.mod_lt _ (by decide)
      rw [(hperm m).length_eq, List.length_zip, List.length_range, Nat.min_self]
    rw [List.range_succ, List.foldl_append, ih (by omega), List.foldl_cons, List.foldl_nil,
      List.foldl_append, List.foldl_cons, List.foldl_nil]
    unfold sortLane
    simp only
    rw [runRadixLaneGpu_eq (by simp) (by rwa [List.length_map, hlen]) (by omega)
      (by rw [List.length_map, hlen]; exact hg m (by omega)), zip_map_fst_snd]

/-! A run in which the threads go round eight times. -/

def roundRobin (nRows : ℕ) : LaneRun where
  histMemory := fun _ _ => 7
  simdMemory := fun _ _ => 7
  zeroHist := fun _ => rounds 8 tileSize
  addHist := fun _ => rounds 8 tileSize
  zeroSimd := fun _ => rounds 8 tileSize
  publish := fun _ => rounds 8 tileSize
  storeHist := rounds 8 (tileCount nRows * tileSize)
  storeLo := rounds 8 nRows
  storeHi := rounds 8 nRows
  storeIdx := rounds 8 nRows

theorem roundRobin_completes (nRows : ℕ) : (roundRobin nRows).Completes nRows := by
  have hone : ∀ {n t : ℕ}, t < n → 1 ≤ (rounds 8 n).count t := fun ht => by
    rw [count_rounds 8 ht]
    decide
  refine ⟨fun _ _ _ => hone, fun _ _ _ => hone, fun _ _ tid htid => ?_, fun _ _ _ => hone,
    fun _ => hone, fun _ => hone, fun _ => hone, fun _ => hone⟩
  exact (count_rounds 8 htid).ge

/-- Each lane pass is the stable counting sort by its byte, and together they sort the keys and keep
the order of equal ones, whatever order the threads take their turns in. -/
theorem sortU128Gpu_stable {g : ℕ → LaneRun} {keys : List Lane} (hn : keys.length < 2 ^ 32)
    (hg : ∀ lane < 16, (g lane).Completes keys.length) :
    (∀ lane < 16, ∀ (current : List Lane) (idx : List ℕ), current.length = keys.length →
      idx.length = keys.length → ∃ pairs, runRadixLaneGpu (g lane) current idx lane =
          some (.ok (pairs.map Prod.fst, pairs.map Prod.snd)) ∧
        pairs = StableSort.bucketPass 256 (laneDigit lane) (current.zip idx) ∧
        pairs.Perm (current.zip idx)) ∧
    ∃ sortedKeys sortedIdx, sortU128Gpu g keys = some (.ok (sortedKeys, sortedIdx)) ∧
      sortedKeys = sortedIdx.map (keyOf keys) ∧ SortedRows keys sortedIdx := by
  have hdigit : ∀ (lane : ℕ) (pair : Lane × ℕ), laneDigit lane pair < 256 := fun lane pair => by
    rw [laneDigit_eq]
    exact Nat.mod_lt _ (by decide)
  refine ⟨fun lane hlane current idx hcurrent hidx => ?_, ?_⟩
  · exact ⟨_, runRadixLaneGpu_eq (hcurrent.trans hidx.symm) (hcurrent ▸ hn) hlane
      (hcurrent ▸ hg lane hlane), rfl, StableSort.bucketPass_perm fun pair _ => hdigit lane pair⟩
  · have hrange : (List.range keys.length).map asU32 = List.range keys.length :=
      (List.map_congr_left fun r hr => asU32_of_lt ((List.mem_range.1 hr).trans hn)).trans
        (List.map_id _)
    have hsort : sortU128Gpu g keys = some (.ok (sortU128 keys)) := by
      unfold sortU128Gpu sortU128
      rw [hrange]
      by_cases hnil : keys = []
      · subst hnil
        have hempty := (perm_radixLanes []).eq_nil
        rw [if_pos rfl, List.zip_nil_left, hempty]
        rfl
      · rw [if_neg hnil, if_neg (by omega), foldl_runRadixLaneGpu hn hg (Nat.le_refl 16)]
    obtain ⟨rows, heq, hrows⟩ := sortU128_spec hn
    exact ⟨rows.map (keyOf keys), rows, by rw [hsort, heq], rfl, hrows⟩

/-- Three rows with a repeated key, on a round-robin schedule. -/
theorem sortU128Gpu_stable_sample :
    ∃ sortedKeys sortedIdx, sortU128Gpu (fun _ => roundRobin 3) [300, 5, 300] =
        some (.ok (sortedKeys, sortedIdx)) ∧
      sortedKeys = sortedIdx.map (keyOf [300, 5, 300]) ∧ SortedRows [300, 5, 300] sortedIdx :=
  (sortU128Gpu_stable (by decide) fun _ _ => roundRobin_completes 3).2

end PolarsMetal.GroupBy
