import Mathlib.Order.Interval.Finset.Nat
import PolarsMetal.Filter.Compaction
import PolarsMetal.Lib.Fallible

/-! The pipeline against the reference filter: the rows whose predicate is true and valid,
in input order, whatever order the kernels' threads run in. -/

namespace PolarsMetal.Filter
open Bitmap Interleave Fallible

/-! The reference. -/

def keepRow (predData predValid : List UInt8) (row : ℕ) : Bool :=
  getValid predData row && getValid predValid row

def keptRows (predData predValid : List UInt8) (nRows : ℕ) : List ℕ :=
  (List.range nRows).filter (keepRow predData predValid)

/-- Bit `k` of `out` is the bit `src` has at the `k`-th kept row; past the last it is clear. -/
def BitsOf (rows : List ℕ) (src out : List UInt8) : Prop :=
  ∀ k, bitAt out k = (rows[k]?.map (bitAt src)).getD 0

structure Filters64 (rows : List ℕ) (srcData : List (BitVec 64)) (srcValid : List UInt8)
    (result : CompactionResult (BitVec 64)) : Prop where
  nOut : result.nOut = rows.length
  data : result.data = rows.map (fun row => srcData.getD row 0)
  valid : BitsOf rows srcValid result.valid

structure FiltersBool (rows : List ℕ) (srcData srcValid : List UInt8)
    (result : CompactionResult UInt8) : Prop where
  nOut : result.nOut = rows.length
  data : BitsOf rows srcData result.data
  valid : BitsOf rows srcValid result.valid

/-- The MLX scan: every entry is the sum of the bytes up to and including its own. -/
def ExactCumsum (cumsum : Cumsum) : Prop :=
  ∀ keep : List UInt8, cumsum keep =
    .ok ((List.range keep.length).map fun i => ((keep.take (i + 1)).map UInt8.toNat).sum % 2 ^ 32)

section Kept

variable {p : ℕ → Bool}

theorem length_filter_range (n : ℕ) :
    ((List.range n).filter p).length = Nat.count (p ·) n := by
  rw [Nat.count, List.countP_eq_length_filter]
  simp

/-- Row `r` is the `k`-th kept one. -/
theorem getElem?_filter_range {n k r : ℕ} :
    ((List.range n).filter p)[k]? = some r ↔ r < n ∧ p r ∧ Nat.count (p ·) r = k := by
  induction n with
  | zero => simp
  | succ n ih =>
    have hlen := length_filter_range (p := p) n
    rw [List.range_succ, List.filter_append]
    rcases Nat.lt_or_ge k (Nat.count (p ·) n) with hk | hk
    · rw [List.getElem?_append_left (by omega), ih]
      refine ⟨fun ⟨h, hr⟩ => ⟨by omega, hr⟩, fun ⟨h, hp, hr⟩ => ⟨?_, hp, hr⟩⟩
      rcases Nat.lt_or_eq_of_le (Nat.le_of_lt_succ h) with h | rfl
      · exact h
      · omega
    · rw [List.getElem?_append_right (by omega), hlen]
      have hnew : ∀ r < n, p r → Nat.count (p ·) r ≠ k := fun r hr hp he => by
        have := Nat.count_strict_mono (p := (p ·)) hp hr
        omega
      cases hn : p n with
      | false =>
        simp only [List.filter_cons, hn, List.filter_nil, List.getElem?_nil, reduceCtorEq,
          Bool.false_eq_true, if_false, false_iff]
        rintro ⟨h, hp, hr⟩
        rcases Nat.lt_or_eq_of_le (Nat.le_of_lt_succ h) with h | rfl
        · exact hnew r h hp hr
        · simp [hn] at hp
      | true =>
        simp only [List.filter_cons, hn, if_true, List.filter_nil, List.getElem?_singleton]
        by_cases hkn : k = Nat.count (p ·) n
        · simp only [hkn, Nat.sub_self, if_true, Option.some.injEq]
          refine ⟨fun h => h ▸ ⟨by omega, hn, rfl⟩, fun ⟨h, hp, hr⟩ => ?_⟩
          exact (Nat.count_injective (p := (p ·)) hp hn hr).symm
        · rw [if_neg (by omega)]
          simp only [reduceCtorEq, false_iff]
          rintro ⟨h, hp, hr⟩
          rcases Nat.lt_or_eq_of_le (Nat.le_of_lt_succ h) with h | rfl
          · exact hnew r h hp hr
          · exact hkn hr.symm

theorem sum_take_flags (n i : ℕ) (hi : i < n) :
    ((((List.range n).map fun r => if p r then (1 : UInt8) else 0).take (i + 1)).map
      UInt8.toNat).sum = Nat.count (p ·) (i + 1) := by
  rw [← List.map_take, List.take_range, Nat.min_eq_left hi]
  induction i with
  | zero => cases h : p 0 <;> simp [Nat.count_succ, h]
  | succ i ih =>
    rw [List.range_succ, List.map_append, List.map_append, List.sum_append, ih (by omega),
      Nat.count_succ (p ·) (i + 1)]
    cases h : p (i + 1) <;> simp [h]

end Kept

/-! The device memory after a run. -/

theorem setValidAtomicOr_eq (words : List (BitVec 32)) (row : ℕ) :
    setValidAtomicOr words row = orBit words row := by
  have hword : row >>> 3 >>> 2 = row >>> 5 := (Nat.shiftRight_add row 3 2).symm
  have hbit : ((row >>> 3 &&& 3) <<< 3) ||| (row &&& 7) = row &&& 31 := by
    have h3 : row >>> 3 &&& 3 = (row >>> 3) % 4 := and_mask _ 2
    have h7 : row &&& 7 = row % 8 := and_mask _ 3
    have h31 : row &&& 31 = row % 32 := and_mask _ 5
    rw [h3, h7, h31, show (8 : ℕ) = 2 ^ 3 from rfl,
      ← Nat.shiftLeft_add_eq_or_of_lt (Nat.mod_lt _ (by omega)), Nat.shiftLeft_eq,
      Nat.shiftRight_eq_div_pow]
    omega
  rw [setValidAtomicOr, orBit, hword, hbit]

namespace DeviceOp

def toStore : DeviceOp → Option (ℕ × BitVec 64)
  | store slot value => some (slot, value)
  | _ => none

def dataRow : DeviceOp → Option ℕ
  | orData row => some row
  | _ => none

def validRow : DeviceOp → Option ℕ
  | orValid row => some row
  | _ => none

theorem toStore_eq_some {op : DeviceOp} {slot : ℕ} {value : BitVec 64} :
    op.toStore = some (slot, value) ↔ op = .store slot value := by
  cases op <;> simp [toStore]

theorem dataRow_eq_some {op : DeviceOp} {row : ℕ} : op.dataRow = some row ↔ op = .orData row := by
  cases op <;> simp [dataRow]

theorem validRow_eq_some {op : DeviceOp} {row : ℕ} :
    op.validRow = some row ↔ op = .orValid row := by
  cases op <;> simp [validRow]

end DeviceOp

/-- Each buffer sees only the operations on it. -/
theorem foldl_apply (ops : List DeviceOp) (mem : DeviceMem) :
    ops.foldl DeviceMem.apply mem =
      ⟨(ops.filterMap DeviceOp.toStore).foldl store mem.slots,
        (ops.filterMap DeviceOp.dataRow).foldl orBit mem.dataWords,
        (ops.filterMap DeviceOp.validRow).foldl orBit mem.validWords⟩ := by
  induction ops generalizing mem with
  | nil => rfl
  | cons op ops ih =>
    rw [List.foldl_cons, ih]
    cases op with
    | store slot value => rfl
    | orData row =>
      simp only [DeviceMem.apply, List.filterMap_cons, DeviceOp.toStore, DeviceOp.dataRow,
        DeviceOp.validRow, List.foldl_cons, setValidAtomicOr_eq]
    | orValid row =>
      simp only [DeviceMem.apply, List.filterMap_cons, DeviceOp.toStore, DeviceOp.dataRow,
        DeviceOp.validRow, List.foldl_cons, setValidAtomicOr_eq]

theorem wordBit_zeroWords (bytes i : ℕ) : wordBit (zeroWords bytes) i = false := by
  simp [wordBit, zeroWords, List.getD_eq_getElem?_getD, List.getElem?_replicate]
  split_ifs <;> simp

theorem lt_length_zeroWords {nOut row : ℕ} (h : row < nOut) :
    row < 32 * (zeroWords (dstValidMinBytes nOut)).length := by
  simp only [zeroWords, List.length_replicate, dstValidMinBytes, minBytes]
  omega

/-- OR writes into cleared words, read back as bytes. -/
theorem bitAt_foldl_orBit {nOut : ℕ} {rows : List ℕ} (h : ∀ row ∈ rows, row < nOut) (k : ℕ) :
    bitAt (toBytes (rows.foldl orBit (zeroWords (dstValidMinBytes nOut)))) k =
      if k ∈ rows then 1 else 0 := by
  rw [bitAt_toBytes, wordBit_foldl_orBit _ (fun row hr => lt_length_zeroWords (h row hr)),
    wordBit_zeroWords]
  simp

/-! The scatter of numbered rows. -/

/-- The flags and sums are those of `p`. -/
structure Numbers (p : ℕ → Bool) (a : ScatterArgs) : Prop where
  nRows : a.nRows < 2 ^ 32
  keep : ∀ row < a.nRows, a.keep.getD row 0 = if p row then 1 else 0
  prefixSum : ∀ row < a.nRows, a.prefixSum.getD row 0 = Nat.count (p ·) (row + 1)
  nOut : a.nOut = Nat.count (p ·) a.nRows

theorem scatterThread64_idle (sentinel : BitVec 64) (srcData : List (BitVec 64)) (a : ScatterArgs)
    (row : ℕ) (h : a.nRows ≤ row) : scatterThread64 sentinel srcData a row = [] := if_pos h

theorem scatterThreadBool_idle (srcData : List UInt8) (a : ScatterArgs) (row : ℕ)
    (h : a.nRows ≤ row) : scatterThreadBool srcData a row = [] := if_pos h

namespace Numbers

variable {p : ℕ → Bool} {a : ScatterArgs}

/-- A kept row goes to its position among the kept rows. -/
theorem outIdx_eq (h : Numbers p a) {row : ℕ} (hrow : row < a.nRows) (hp : p row) :
    a.outIdx row = Nat.count (p ·) row := by
  have hle : Nat.count (p ·) row ≤ row := Nat.count_le _
  have hrows := h.nRows
  rw [ScatterArgs.outIdx, h.prefixSum row hrow, Nat.count_succ, if_pos hp,
    show Nat.count (p ·) row + 1 + (2 ^ 32 - 1) = Nat.count (p ·) row + 2 ^ 32 by omega,
    Nat.add_mod_right, Nat.mod_eq_of_lt (by omega)]

theorem outIdx_lt (h : Numbers p a) {row : ℕ} (hrow : row < a.nRows) (hp : p row) :
    a.outIdx row < a.nOut := by
  rw [h.outIdx_eq hrow hp, h.nOut]
  exact Nat.count_strict_mono (p := (p ·)) hp hrow

theorem mem_scatterThread64 (h : Numbers p a) {sentinel : BitVec 64} {srcData : List (BitVec 64)}
    {op : DeviceOp} :
    (∃ row < a.nRows, op ∈ scatterThread64 sentinel srcData a row) ↔
      ∃ k row, ((List.range a.nRows).filter p)[k]? = some row ∧
        (op = .store k (srcData.getD row 0) ∨ getValid a.srcValid row ∧ op = .orValid k) := by
  refine ⟨fun ⟨row, hrow, hop⟩ => ?_, fun ⟨k, row, hk, hop⟩ => ?_⟩
  · rw [scatterThread64, if_neg (by omega), h.keep row hrow] at hop
    cases hp : p row with
    | false => simp [hp] at hop
    | true =>
      have hlt := h.outIdx_lt hrow hp
      rw [hp, if_pos rfl, if_neg (by decide), if_neg (by omega), h.outIdx_eq hrow hp,
        List.mem_cons] at hop
      refine ⟨_, row, getElem?_filter_range.2 ⟨hrow, hp, rfl⟩, hop.imp id fun hop => ?_⟩
      split_ifs at hop with hv
      · exact ⟨hv, by simpa using hop⟩
      · simp at hop
  · obtain ⟨hrow, hp, rfl⟩ := getElem?_filter_range.1 hk
    have hlt := h.outIdx_lt hrow hp
    refine ⟨row, hrow, ?_⟩
    rw [scatterThread64, if_neg (by omega), h.keep row hrow, hp, if_pos rfl,
      if_neg (by decide), if_neg (by omega), h.outIdx_eq hrow hp, List.mem_cons]
    refine hop.imp id fun ⟨hv, hop⟩ => ?_
    rw [if_pos hv, hop]
    exact List.mem_singleton.2 rfl

theorem mem_scatterThreadBool (h : Numbers p a) {srcData : List UInt8} {op : DeviceOp} :
    (∃ row < a.nRows, op ∈ scatterThreadBool srcData a row) ↔
      ∃ k row, ((List.range a.nRows).filter p)[k]? = some row ∧
        (getValid srcData row ∧ op = .orData k ∨ getValid a.srcValid row ∧ op = .orValid k) := by
  have hite : ∀ (c : Prop) [Decidable c] (o : DeviceOp),
      op ∈ (if c then [o] else []) ↔ c ∧ op = o := fun c _ o => by
    by_cases hc : c <;> simp [hc]
  refine ⟨fun ⟨row, hrow, hop⟩ => ?_, fun ⟨k, row, hk, hop⟩ => ?_⟩
  · rw [scatterThreadBool, if_neg (by omega), h.keep row hrow] at hop
    cases hp : p row with
    | false => simp [hp] at hop
    | true =>
      have hlt := h.outIdx_lt hrow hp
      rw [hp, if_pos rfl, if_neg (by decide), if_neg (by omega), h.outIdx_eq hrow hp,
        List.mem_append, hite, hite] at hop
      exact ⟨_, row, getElem?_filter_range.2 ⟨hrow, hp, rfl⟩, hop⟩
  · obtain ⟨hrow, hp, rfl⟩ := getElem?_filter_range.1 hk
    have hlt := h.outIdx_lt hrow hp
    refine ⟨row, hrow, ?_⟩
    rw [scatterThreadBool, if_neg (by omega), h.keep row hrow, hp, if_pos rfl,
      if_neg (by decide), if_neg (by omega), h.outIdx_eq hrow hp, List.mem_append, hite, hite]
    exact hop

end Numbers

/-- Bits set exactly at the positions whose kept row is valid in the trimmed source. -/
theorem bitsOf_foldl_orBit {p : ℕ → Bool} {nRows nOut : ℕ} {src : List UInt8} {set : List ℕ}
    (hnOut : nOut = Nat.count (p ·) nRows)
    (hset : ∀ k, k ∈ set ↔ ∃ row, ((List.range nRows).filter p)[k]? = some row ∧
      getValid (src.take (minBytes nRows)) row) :
    BitsOf ((List.range nRows).filter p) src
      (toBytes (set.foldl orBit (zeroWords (dstValidMinBytes nOut)))) := by
  intro k
  rw [bitAt_foldl_orBit]
  · cases hk : ((List.range nRows).filter p)[k]? with
    | none => rw [if_neg (by simp [hset, hk])]; rfl
    | some row =>
      have hrow := (getElem?_filter_range.1 hk).1
      have htake : bitAt (src.take (minBytes nRows)) row = bitAt src row := bitAt_take hrow
      simp only [hset, hk, Option.some.injEq, exists_eq_left', getValid, htake, Option.map_some,
        Option.getD_some]
      rcases bitAt_eq_zero_or_one src row with h | h <;> simp [h]
  · intro j hj
    obtain ⟨row, hk, -⟩ := (hset j).1 hj
    rw [hnOut, ← length_filter_range]
    exact (List.getElem?_eq_some_iff.1 hk).1

theorem scatter64_run {p : ℕ → Bool} {a : ScatterArgs} (h : Numbers p a) {srcValid : List UInt8}
    (hvalid : a.srcValid = srcValid.take (minBytes a.nRows)) (sentinel : BitVec 64)
    (srcData : List (BitVec 64)) {order : List ℕ}
    (hcomplete : Complete (scatterThread64 sentinel srcData a) a.nRows order) :
    ∃ mem, exec (scatterThread64 sentinel srcData a) DeviceMem.apply
        ⟨List.replicate (a.nOut + 1) 0, [], zeroWords (dstValidMinBytes a.nOut)⟩ order = mem ∧
      mem.slots = ((List.range a.nRows).filter p).map (fun row => srcData.getD row 0) ++ [0] ∧
      BitsOf ((List.range a.nRows).filter p) srcValid (toBytes mem.validWords) := by
  obtain ⟨trace, hexec, htrace⟩ := exec_eq_foldl DeviceMem.apply
    ⟨List.replicate (a.nOut + 1) 0, [], zeroWords (dstValidMinBytes a.nOut)⟩
    (scatterThread64_idle sentinel srcData a) hcomplete
  have hmem := fun op => (htrace op).trans h.mem_scatterThread64
  refine ⟨_, rfl, ?_, ?_⟩
  · rw [hexec, foldl_apply]
    have hstores : ∀ k v, (k, v) ∈ trace.filterMap DeviceOp.toStore ↔
        ∃ row, ((List.range a.nRows).filter p)[k]? = some row ∧ v = srcData.getD row 0 := by
      intro k v
      simp only [List.mem_filterMap, DeviceOp.toStore_eq_some, exists_eq_right, hmem,
        DeviceOp.store.injEq, reduceCtorEq, and_false, or_false]
      exact ⟨fun ⟨_, row, hrow, hk, hv⟩ => hk ▸ ⟨row, hrow, hv⟩, fun ⟨row, hrow, hv⟩ =>
        ⟨k, row, hrow, rfl, hv⟩⟩
    have hlen : ((List.range a.nRows).filter p).length = a.nOut := by
      rw [length_filter_range, h.nOut]
    apply List.ext_getElem?
    intro k
    rcases Nat.lt_or_ge k a.nOut with hk | hk
    · have hrow := List.getElem?_eq_getElem (hlen ▸ hk)
      rw [List.getElem?_append_left (by simpa [hlen] using hk), List.getElem?_map, hrow,
        Option.map_some]
      refine getElem?_foldl_store (by simp; omega) ((hstores _ _).2 ⟨_, hrow, rfl⟩) ?_
      intro w hw
      obtain ⟨row, hrow', rfl⟩ := (hstores _ _).1 hw
      rw [hrow, Option.some.injEq] at hrow'
      rw [hrow']
    · rw [getElem?_foldl_store_of_notMem, List.getElem?_append_right (by simpa [hlen] using hk)]
      · rw [List.getElem?_replicate, List.length_map, hlen, List.getElem?_singleton]
        by_cases hend : k = a.nOut
        · simp [hend]
        · rw [if_neg (by omega), if_neg (by omega)]
      · intro v hv
        obtain ⟨row, hrow, -⟩ := (hstores _ _).1 hv
        have := (List.getElem?_eq_some_iff.1 hrow).1
        omega
  · rw [hexec, foldl_apply]
    refine bitsOf_foldl_orBit h.nOut fun k => ?_
    simp only [List.mem_filterMap, DeviceOp.validRow_eq_some, exists_eq_right, hmem,
      DeviceOp.orValid.injEq, reduceCtorEq, false_or, ← hvalid]
    exact ⟨fun ⟨_, row, hrow, hv, hk⟩ => hk ▸ ⟨row, hrow, hv⟩, fun ⟨row, hrow, hv⟩ =>
      ⟨k, row, hrow, hv, rfl⟩⟩

theorem scatterBool_run {p : ℕ → Bool} {a : ScatterArgs} (h : Numbers p a)
    {srcData srcValid : List UInt8} (hvalid : a.srcValid = srcValid.take (minBytes a.nRows))
    {order : List ℕ}
    (hcomplete : Complete (scatterThreadBool (srcData.take (minBytes a.nRows)) a) a.nRows order) :
    ∃ mem, exec (scatterThreadBool (srcData.take (minBytes a.nRows)) a) DeviceMem.apply
        ⟨[], zeroWords (dstValidMinBytes a.nOut), zeroWords (dstValidMinBytes a.nOut)⟩ order = mem ∧
      BitsOf ((List.range a.nRows).filter p) srcData (toBytes mem.dataWords) ∧
      BitsOf ((List.range a.nRows).filter p) srcValid (toBytes mem.validWords) := by
  obtain ⟨trace, hexec, htrace⟩ := exec_eq_foldl DeviceMem.apply
    ⟨[], zeroWords (dstValidMinBytes a.nOut), zeroWords (dstValidMinBytes a.nOut)⟩
    (scatterThreadBool_idle _ a) hcomplete
  have hmem := fun op => (htrace op).trans h.mem_scatterThreadBool
  refine ⟨_, rfl, ?_, ?_⟩
  · rw [hexec, foldl_apply]
    refine bitsOf_foldl_orBit h.nOut fun k => ?_
    simp only [List.mem_filterMap, DeviceOp.dataRow_eq_some, exists_eq_right, hmem,
      DeviceOp.orData.injEq, reduceCtorEq, and_false, or_false]
    exact ⟨fun ⟨_, row, hrow, hv, hk⟩ => hk ▸ ⟨row, hrow, hv⟩, fun ⟨row, hrow, hv⟩ =>
      ⟨k, row, hrow, hv, rfl⟩⟩
  · rw [hexec, foldl_apply]
    refine bitsOf_foldl_orBit h.nOut fun k => ?_
    simp only [List.mem_filterMap, DeviceOp.validRow_eq_some, exists_eq_right, hmem,
      DeviceOp.orValid.injEq, reduceCtorEq, and_false, false_or, ← hvalid]
    exact ⟨fun ⟨_, row, hrow, hv, hk⟩ => hk ▸ ⟨row, hrow, hv⟩, fun ⟨row, hrow, hv⟩ =>
      ⟨k, row, hrow, hv, rfl⟩⟩

theorem bitAt_replicate_zero (n i : ℕ) : bitAt (List.replicate n 0) i = 0 := by
  rw [bitAt_eq, List.getD_eq_getElem?_getD, List.getElem?_replicate]
  split_ifs <;> simp_all

/-! The passes in turn. -/

theorem predicateThread_idle (predData predValid : List UInt8) (nRows row : ℕ) (h : nRows ≤ row) :
    predicateThread predData predValid nRows row = [] := if_pos h

section Pipeline

variable {predData predValid : List UInt8} {nRows : ℕ}

theorem predicate_run {order : List ℕ} (hrows : nRows < 2 ^ 32)
    (hdata : minBytes nRows ≤ predData.length) (hvalid : minBytes nRows ≤ predValid.length)
    (hcomplete : Complete (predicateThread (predData.take (minBytes nRows))
      (predValid.take (minBytes nRows)) nRows) nRows order) :
    dispatchPredicateToU8 order predData predValid nRows (List.replicate nRows 0) =
      .ok ((List.range nRows).map fun row => if keepRow predData predValid row then 1 else 0) := by
  rw [dispatchPredicateToU8, if_neg (by simp)]
  by_cases hzero : nRows = 0
  · subst hzero; rfl
  rw [if_neg hzero, if_neg (by omega), if_neg (by omega), u32TryFrom, if_pos hrows]
  obtain ⟨trace, hexec, htrace⟩ := exec_eq_foldl store (List.replicate nRows (0 : UInt8))
    (predicateThread_idle _ _ nRows) hcomplete
  have hmem : ∀ row flag, (row, flag) ∈ trace ↔
      row < nRows ∧ flag = if keepRow predData predValid row then 1 else 0 := by
    intro row flag
    rw [htrace]
    refine ⟨fun ⟨t, ht, hop⟩ => ?_, fun ⟨hrow, hflag⟩ => ⟨row, hrow, ?_⟩⟩
    · rw [predicateThread, if_neg (by omega), List.mem_singleton, Prod.mk.injEq] at hop
      obtain ⟨rfl, rfl⟩ := hop
      rw [getValid, getValid, minBytes, bitAt_take ht, bitAt_take ht]
      exact ⟨ht, rfl⟩
    · rw [predicateThread, if_neg (by omega), List.mem_singleton, hflag, getValid, getValid,
        minBytes, bitAt_take hrow, bitAt_take hrow]
      rfl
  change Except.ok _ = _
  congr 1
  refine Eq.trans hexec (List.ext_getElem? fun row => ?_)
  rcases Nat.lt_or_ge row nRows with hrow | hrow
  · rw [getElem?_foldl_store (by simpa using hrow) ((hmem row _).2 ⟨hrow, rfl⟩)
      (fun w hw => ((hmem row w).1 hw).2)]
    simp [hrow]
  · rw [List.getElem?_eq_none (by simpa [length_foldl_store] using hrow),
      List.getElem?_eq_none (by simpa using hrow)]

/-- Passes one and two: the flags and the sums of the kept rows, and their number. -/
theorem computeKeepAndPrefix_run {cumsum : Cumsum} (hcumsum : ExactCumsum cumsum) {order : List ℕ}
    (hrows : nRows < 2 ^ 32) (hdata : minBytes nRows ≤ predData.length)
    (hvalid : minBytes nRows ≤ predValid.length)
    (hcomplete : Complete (predicateThread (predData.take (minBytes nRows))
      (predValid.take (minBytes nRows)) nRows) nRows order) :
    ∃ keep prefixSum, computeKeepAndPrefix cumsum order predData predValid nRows =
        .ok (keep, prefixSum, (keptRows predData predValid nRows).length) ∧
      keep.length = nRows ∧ prefixSum.length = nRows ∧
      (∀ row < nRows, keep.getD row 0 = if keepRow predData predValid row then 1 else 0) ∧
      ∀ row < nRows, prefixSum.getD row 0 = Nat.count (keepRow predData predValid ·) (row + 1) := by
  by_cases hzero : nRows = 0
  · subst hzero
    exact ⟨[], [], rfl, rfl, rfl, by simp, by simp⟩
  have hcum : cumsum ((List.range nRows).map fun row =>
      if keepRow predData predValid row then 1 else 0) =
      .ok ((List.range nRows).map fun row =>
        Nat.count (keepRow predData predValid ·) (row + 1)) := by
    rw [hcumsum, List.length_map, List.length_range]
    refine congrArg Except.ok (List.map_congr_left fun row hrow => ?_)
    have hrow := List.mem_range.1 hrow
    have hle : Nat.count (keepRow predData predValid ·) (row + 1) ≤ row + 1 := Nat.count_le _
    rw [sum_take_flags _ _ hrow, Nat.mod_eq_of_lt (by omega)]
  refine ⟨(List.range nRows).map fun row => if keepRow predData predValid row then 1 else 0,
    (List.range nRows).map fun row => Nat.count (keepRow predData predValid ·) (row + 1), ?_,
    by simp, by simp, fun row hrow => by simp [hrow], fun row hrow => by simp [hrow]⟩
  · rw [computeKeepAndPrefix, if_neg hzero, predicate_run hrows hdata hvalid hcomplete]
    simp only [Except.mapError, bind, Except.bind, hcum, pure, Except.pure]
    rw [keptRows, length_filter_range]
    simp [show nRows - 1 < nRows by omega, show nRows - 1 + 1 = nRows by omega]

variable {keep : List UInt8} {prefixSum : List ℕ}

theorem numbers_scatterArgs {p : ℕ → Bool} (hrows : nRows < 2 ^ 32)
    (hkeep : ∀ row < nRows, keep.getD row 0 = if p row then 1 else 0)
    (hsum : ∀ row < nRows, prefixSum.getD row 0 = Nat.count (p ·) (row + 1))
    (srcValid : List UInt8) :
    Numbers p (scatterArgs srcValid keep prefixSum nRows (Nat.count (p ·) nRows)) :=
  ⟨hrows, hkeep, hsum, rfl⟩

/-- Pass three for a 64-bit column. -/
theorem compact64_run {p : ℕ → Bool} {sentinel : BitVec 64} (hsentinel : sentinel ≠ 0)
    {srcData : List (BitVec 64)} {srcValid : List UInt8} {order : List ℕ}
    (hrows : srcData.length < 2 ^ 32) (hkeepLen : keep.length = srcData.length)
    (hsumLen : prefixSum.length = srcData.length)
    (hkeep : ∀ row < srcData.length, keep.getD row 0 = if p row then 1 else 0)
    (hsum : ∀ row < srcData.length, prefixSum.getD row 0 = Nat.count (p ·) (row + 1))
    (hvalid : minBytes srcData.length ≤ srcValid.length)
    (hcomplete : Complete (scatterThread64 sentinel srcData (scatterArgs srcValid keep prefixSum
      srcData.length (Nat.count (p ·) srcData.length))) srcData.length order) :
    ∃ result, compact64 (dispatchScatter64 sentinel) order srcData srcValid keep prefixSum
        (Nat.count (p ·) srcData.length) = .ok result ∧
      Filters64 ((List.range srcData.length).filter p) srcData srcValid result := by
  have hnumbers := numbers_scatterArgs hrows hkeep hsum srcValid
  have hle : Nat.count (p ·) srcData.length ≤ srcData.length := Nat.count_le _
  rw [compact64, dispatchScatter64, if_neg (by omega), if_neg (by omega), if_neg (by omega),
    if_neg (by simp), if_neg (by simp), if_neg (by omega)]
  by_cases hzero : srcData.length = 0
  · rw [if_pos hzero]
    refine ⟨_, rfl, ?_⟩
    rw [hzero]
    exact ⟨rfl, rfl, fun k => bitAt_replicate_zero _ k⟩
  obtain ⟨mem, hexec, hslots, hbits⟩ := scatter64_run hnumbers rfl sentinel srcData hcomplete
  simp only [scatterArgs] at hexec hslots
  have hlen := length_filter_range (p := p) srcData.length
  have hdata : mem.slots ++ (List.replicate (Nat.count (p ·) srcData.length + 1)
      (0 : BitVec 64)).drop (Nat.count (p ·) srcData.length + 1) = mem.slots := by simp
  have hbytes : toBytes mem.validWords ++ (List.replicate (dstValidMinBytes
      (Nat.count (p ·) srcData.length)) (0 : UInt8)).drop
        (dstValidMinBytes (Nat.count (p ·) srcData.length)) = toBytes mem.validWords := by simp
  have hlast : mem.slots.getD (Nat.count (p ·) srcData.length) 0 ≠ sentinel := by
    rw [hslots, List.getD_eq_getElem?_getD, List.getElem?_append_right (by simp [hlen])]
    simpa [hlen] using hsentinel.symm
  rw [if_neg hzero, u32TryFrom, if_pos hrows, u32TryFrom, if_pos (by omega)]
  simp only [bind, Except.bind, scatterArgs, hexec, hdata, hbytes, if_neg hlast, Except.mapError,
    pure, Except.pure, Except.ok.injEq, exists_eq_left']
  refine ⟨hlen.symm, ?_, hbits⟩
  rw [hslots, List.take_append_of_le_length (by simp [hlen]), List.take_of_length_le (by simp [hlen])]

/-- Pass three for a boolean column. -/
theorem compactBool_run {p : ℕ → Bool} {srcData srcValid : List UInt8} {order : List ℕ}
    (hrows : nRows < 2 ^ 32) (hkeepLen : keep.length = nRows) (hsumLen : prefixSum.length = nRows)
    (hkeep : ∀ row < nRows, keep.getD row 0 = if p row then 1 else 0)
    (hsum : ∀ row < nRows, prefixSum.getD row 0 = Nat.count (p ·) (row + 1))
    (hdata : minBytes nRows ≤ srcData.length) (hvalid : minBytes nRows ≤ srcValid.length)
    (hcomplete : Complete (scatterThreadBool (srcData.take (minBytes nRows)) (scatterArgs srcValid
      keep prefixSum nRows (Nat.count (p ·) nRows))) nRows order) :
    ∃ result, compactBool order srcData srcValid keep prefixSum nRows (Nat.count (p ·) nRows) =
        .ok result ∧
      FiltersBool ((List.range nRows).filter p) srcData srcValid result := by
  have hnumbers := numbers_scatterArgs hrows hkeep hsum srcValid
  have hle : Nat.count (p ·) nRows ≤ nRows := Nat.count_le _
  rw [compactBool, dispatchScatterBool, if_neg (by omega), if_neg (by omega), if_neg (by omega),
    if_neg (by omega), if_neg (by simp), if_neg (by simp)]
  by_cases hzero : nRows = 0
  · rw [if_pos hzero]
    refine ⟨_, rfl, ?_⟩
    rw [hzero]
    exact ⟨rfl, fun k => bitAt_replicate_zero _ k, fun k => bitAt_replicate_zero _ k⟩
  obtain ⟨mem, hexec, hdataBits, hbits⟩ := scatterBool_run hnumbers rfl hcomplete
  simp only [scatterArgs] at hexec
  have hbytes : ∀ words, toBytes words ++ (List.replicate (dstValidMinBytes
      (Nat.count (p ·) nRows)) (0 : UInt8)).drop (dstValidMinBytes (Nat.count (p ·) nRows)) =
      toBytes words := fun words => by simp
  have hlast : prefixSum.getD (nRows - 1) 0 = Nat.count (p ·) nRows := by
    rw [hsum _ (by omega), show nRows - 1 + 1 = nRows by omega]
  rw [if_neg hzero, u32TryFrom, if_pos (by omega), u32TryFrom, if_pos hrows]
  simp only [bind, Except.bind, hlast, ne_eq, not_true, if_false, scatterArgs, hexec, hbytes,
    Except.mapError, pure, Except.pure, Except.ok.injEq, exists_eq_left']
  exact ⟨(length_filter_range nRows).symm, hdataBits, hbits⟩

end Pipeline

/-- Filter compaction is the reference filter: the flags, sums and count of passes one and two,
and from them every column's kept rows in order, with their values and validity bits, for
every order the threads of either kernel run in. -/
theorem compaction_filters (cumsum : Cumsum) (hcumsum : ExactCumsum cumsum)
    (predData predValid : List UInt8) (nRows : ℕ) (hrows : nRows < 2 ^ 32)
    (hpredData : minBytes nRows ≤ predData.length)
    (hpredValid : minBytes nRows ≤ predValid.length) (predOrder : List ℕ)
    (hpredOrder : Complete (predicateThread (predData.take (minBytes nRows))
      (predValid.take (minBytes nRows)) nRows) nRows predOrder) :
    ∃ keep prefixSum nOut,
      computeKeepAndPrefix cumsum predOrder predData predValid nRows =
        .ok (keep, prefixSum, nOut) ∧
      nOut = (keptRows predData predValid nRows).length ∧
      (∀ (srcData : List (BitVec 64)) (srcValid : List UInt8) (order : List ℕ),
        srcData.length = nRows → minBytes nRows ≤ srcValid.length →
        Complete (scatterThread64 scatterSentinelI64 srcData
          (scatterArgs srcValid keep prefixSum nRows nOut)) nRows order →
        ∃ result, compactI64 order srcData srcValid keep prefixSum nOut = .ok result ∧
          Filters64 (keptRows predData predValid nRows) srcData srcValid result) ∧
      (∀ (srcData : List (BitVec 64)) (srcValid : List UInt8) (order : List ℕ),
        srcData.length = nRows → minBytes nRows ≤ srcValid.length →
        Complete (scatterThread64 scatterSentinelF64Bits srcData
          (scatterArgs srcValid keep prefixSum nRows nOut)) nRows order →
        ∃ result, compactF64 order srcData srcValid keep prefixSum nOut = .ok result ∧
          Filters64 (keptRows predData predValid nRows) srcData srcValid result) ∧
      ∀ (srcData srcValid : List UInt8) (order : List ℕ),
        minBytes nRows ≤ srcData.length → minBytes nRows ≤ srcValid.length →
        Complete (scatterThreadBool (srcData.take (minBytes nRows))
          (scatterArgs srcValid keep prefixSum nRows nOut)) nRows order →
        ∃ result, compactBool order srcData srcValid keep prefixSum nRows nOut = .ok result ∧
          FiltersBool (keptRows predData predValid nRows) srcData srcValid result := by
  obtain ⟨keep, prefixSum, hrun, hkeepLen, hsumLen, hkeep, hsum⟩ :=
    computeKeepAndPrefix_run hcumsum hrows hpredData hpredValid hpredOrder
  refine ⟨keep, prefixSum, _, hrun, rfl, ?_, ?_, ?_⟩
  · rintro srcData srcValid order rfl hvalid hcomplete
    rw [keptRows, length_filter_range] at hcomplete ⊢
    exact compact64_run (by decide) hrows hkeepLen hsumLen hkeep hsum hvalid hcomplete
  · rintro srcData srcValid order rfl hvalid hcomplete
    rw [keptRows, length_filter_range] at hcomplete ⊢
    exact compact64_run (by decide) hrows hkeepLen hsumLen hkeep hsum hvalid hcomplete
  · intro srcData srcValid order hdata hvalid hcomplete
    rw [keptRows, length_filter_range] at hcomplete ⊢
    exact compactBool_run hrows hkeepLen hsumLen hkeep hsum hdata hvalid hcomplete

/-- The exact scan. -/
def prefixSums (keep : List UInt8) : List ℕ :=
  (List.range keep.length).map fun i => ((keep.take (i + 1)).map UInt8.toNat).sum % 2 ^ 32

/-- Ten rows, the predicate true on rows 0, 3 and 9 and null on row 3; the column is null on
row 9. Two rows are kept, the second null. -/
theorem compaction_filters_sample :
    ∃ keep prefixSum, computeKeepAndPrefix (fun keep => .ok (prefixSums keep))
        [9, 8, 7, 6, 5, 4, 3, 2, 1, 0] [0x09, 0x02] [0xF7, 0x03] 10 = .ok (keep, prefixSum, 2) ∧
      ∃ result, compactI64 [9, 0, 9, 1, 2, 3, 4, 5, 6, 7, 8, 0]
          [10, 11, 12, 13, 14, 15, 16, 17, 18, 19] [0xFF, 0x01] keep prefixSum 2 = .ok result ∧
        result.data = [10, 19] ∧ bitAt result.valid 0 = 1 ∧ bitAt result.valid 1 = 0 := by
  obtain ⟨keep, prefixSum, nOut, hrun, hlen, hi64, -, -⟩ :=
    compaction_filters (fun keep => .ok (prefixSums keep)) (fun _ => rfl) [0x09, 0x02] [0xF7, 0x03]
      10 (by decide) (by decide) (by decide) [9, 8, 7, 6, 5, 4, 3, 2, 1, 0] (by decide)
  have hrows : keptRows [0x09, 0x02] [0xF7, 0x03] 10 = [0, 9] := by decide
  have hvalue : computeKeepAndPrefix (fun keep => .ok (prefixSums keep))
      [9, 8, 7, 6, 5, 4, 3, 2, 1, 0] [0x09, 0x02] [0xF7, 0x03] 10 =
      .ok ([1, 0, 0, 0, 0, 0, 0, 0, 0, 1], [1, 1, 1, 1, 1, 1, 1, 1, 1, 2], 2) := by rfl
  obtain ⟨rfl, rfl, rfl⟩ : _ ∧ _ ∧ _ := by simpa using hrun.symm.trans hvalue
  refine ⟨_, _, hvalue, ?_⟩
  obtain ⟨result, hcompact, hfilters⟩ := hi64 [10, 11, 12, 13, 14, 15, 16, 17, 18, 19]
    [0xFF, 0x01] [9, 0, 9, 1, 2, 3, 4, 5, 6, 7, 8, 0] rfl (by decide) (by decide)
  rw [hrows] at hfilters
  exact ⟨result, hcompact, hfilters.data, hfilters.valid 0, hfilters.valid 1⟩

end PolarsMetal.Filter
