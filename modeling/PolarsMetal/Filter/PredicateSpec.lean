import PolarsMetal.Filter.CompactionSpec
import PolarsMetal.Filter.Predicate

/-! The evaluator against the three-valued value of the expression: a comparison is null where an
operand is, and otherwise compares the operands' exact values; the connectives are strong
Kleene's. -/

namespace PolarsMetal.Filter
open Bitmap Interleave Ieee Fusion Wire Framing Fallible

/-! The reference. -/

/-- An integer's value. -/
def exact (v : ℤ) : Option Extended := some (((v : ℚ) : WithTop ℚ) : Extended)

/-- The value of a number, `none` for NaN; other cells have none. -/
def cellValue : Cell → Option (Option Extended)
  | .int v => some (exact v)
  | .f32 bits => some (f32.value bits.toNat)
  | .f64 bits => some (f64.value bits.toNat)
  | _ => none

/-- A column's cell at a row, `none` where it is null. -/
def PolarsFrame.cellAt (df : PolarsFrame) (name : String) (row : ℕ) : Option Cell :=
  ((df.columns.lookup name).bind fun s => s.cells[row]?).join

/-- A comparison's operand at a row; the outer `none` is null. -/
def operandValue (df : PolarsFrame) (row : ℕ) : PredicateExpr → Option (Option Extended)
  | .column name => (df.cellAt name row).bind cellValue
  | .literal (.int v) => some (exact v)
  -- a date is its days since the epoch, as a `Date` cell is
  | .literal (.date ordinal) => some (exact (ordinal - epochOrdinal))
  | .literal (.float bits) => some (f64.value bits.toNat)
  | _ => none

def compared (c : Comparison) : Option (Option Extended) → Option (Option Extended) → Option Bool
  | some a, some b => some (c.ieee a b)
  | _, _ => none

def kleeneAnd : Option Bool → Option Bool → Option Bool
  | some false, _ | _, some false => some false
  | some true, some true => some true
  | _, _ => none

def kleeneOr : Option Bool → Option Bool → Option Bool
  | some true, _ | _, some true => some true
  | some false, some false => some false
  | _, _ => none

/-- The predicate's value at a row. -/
def kleene (df : PolarsFrame) (row : ℕ) : PredicateExpr → Option Bool
  | .column name => (df.cellAt name row).bind fun
    | .bool b => some b
    | _ => none
  | .binaryExpr .and l r => kleeneAnd (kleene df row l) (kleene df row r)
  | .binaryExpr .or l r => kleeneOr (kleene df row l) (kleene df row r)
  | .binaryExpr .eq l r => compared .eq (operandValue df row l) (operandValue df row r)
  | .binaryExpr .notEq l r => compared .ne (operandValue df row l) (operandValue df row r)
  | .binaryExpr .lt l r => compared .lt (operandValue df row l) (operandValue df row r)
  | .binaryExpr .ltEq l r => compared .le (operandValue df row l) (operandValue df row r)
  | .binaryExpr .gt l r => compared .gt (operandValue df row l) (operandValue df row r)
  | .binaryExpr .gtEq l r => compared .ge (operandValue df row l) (operandValue df row r)
  | _ => none

/-- The value the two bits of a row stand for. -/
def readRow (b : Buffers) (row : ℕ) : Option Bool :=
  if getValid b.2 row then some (getValid b.1 row) else none

structure Encodes (b : Buffers) (nRows : ℕ) (value : ℕ → Option Bool) : Prop where
  data_length : minBytes nRows ≤ b.1.length
  valid_length : minBytes nRows ≤ b.2.length
  row : ∀ row < nRows, readRow b row = value row

/-! What the evaluator relies on. -/

namespace ArrowArray

def bytes (arr : ArrowArray) : List UInt8 := arr.data.getD []

/-- The Arrow layout of a series: a validity bit per row unless no row is null, and the value of
each row that is not in its slot. What lies under a null or past the last row is left open. -/
structure Holds (arr : ArrowArray) (s : PolarsSeries) : Prop where
  valid : ∀ row c, s.cells[row]? = some c → arr.valid.all (getValid · row) = c.isSome
  int64 : s.dtype = .int64 → s.cells.length * 8 ≤ arr.bytes.length ∧
    ∀ row v, s.cells[row]? = some (some (.int v)) → slot arr.bytes row = BitVec.ofInt 64 v
  float64 : s.dtype = .float64 → s.cells.length * 8 ≤ arr.bytes.length ∧
    ∀ row bits, s.cells[row]? = some (some (.f64 bits)) → slot arr.bytes row = bits
  boolean : s.dtype = .boolean →
    ∀ row b, s.cells[row]? = some (some (.bool b)) → getValid arr.bytes row = b

end ArrowArray

/-- Every series becomes an array that holds it, and every thread gets the turns it needs. -/
structure Site.Lawful (site : Site) (nRows : ℕ) : Prop where
  materialize : ∀ s : PolarsSeries, s.Typed → (site.materialize s).Holds s
  order : ∀ gid < nRows, 2 ≤ site.order.count gid

/-- Integer literals of a 64-bit signed range. -/
def PredicateAst.LiteralsFit : PredicateAst → Prop
  | .literalI64 v => -2 ^ 63 ≤ v ∧ v < 2 ^ 63
  | .compare _ lhs rhs _ | .logical _ lhs rhs => lhs.LiteralsFit ∧ rhs.LiteralsFit
  | _ => True

/-! The shader's floating-point comparisons. -/

theorem low_f64 (n : ℕ) : f64.low n = n % 2 ^ 63 := rfl

theorem f64IsNan_iff (bits : BitVec 64) : f64IsNan bits = true ↔ f64.top < f64.low bits.toNat := by
  have hexp : ((bits >>> 52) &&& 0x7FF#64).toNat = f64.expo bits.toNat := by
    rw [BitVec.toNat_and, BitVec.toNat_ushiftRight, Nat.shiftRight_eq_div_pow]
    exact and_mask _ 11
  have hmant : (bits &&& 0x000FFFFFFFFFFFFF#64).toNat = f64.mant bits.toNat := by
    rw [BitVec.toNat_and]
    exact and_mask _ 52
  have hlow := f64.low_eq bits.toNat
  have htop : f64.top = 2047 * 2 ^ 52 := rfl
  have hm : f64.mant bits.toNat < 2 ^ 52 := f64.mant_lt _
  have he : f64.expo bits.toNat < 2 ^ 11 := f64.expo_lt _
  change f64.low bits.toNat = f64.expo bits.toNat * 2 ^ 52 + _ at hlow
  unfold f64IsNan
  rw [Bool.and_eq_true, beq_iff_eq, bne_iff_ne, ← BitVec.toNat_inj, ne_eq, ← BitVec.toNat_inj, hexp,
    hmant, hlow, htop]
  change f64.expo bits.toNat = 2047 ∧ ¬f64.mant bits.toNat = 0 ↔ _
  omega

theorem bothAreZero_iff (a b : BitVec 64) :
    bothAreZero a b = true ↔ f64.low a.toNat = 0 ∧ f64.low b.toNat = 0 := by
  have hshift : ∀ x : BitVec 64, x <<< 1 = 0 ↔ f64.low x.toNat = 0 := by
    intro x
    rw [← BitVec.toNat_inj, BitVec.toNat_shiftLeft, Nat.shiftLeft_eq, low_f64]
    change x.toNat * 2 ^ 1 % 2 ^ 64 = 0 ↔ _
    omega
  rw [bothAreZero, beq_iff_eq, BitVec.shiftLeft_or_distrib, ← hshift, ← hshift]
  exact BitVec.or_eq_zero_iff

theorem f64TotalOrderKey_toNat (bits : BitVec 64) : (f64TotalOrderKey bits).toNat =
    if f64.negative bits.toNat then 2 ^ 63 - 1 - f64.low bits.toNat else 2 ^ 63 + f64.low bits.toNat := by
  have hlt := bits.isLt
  have hsign : f64.negative bits.toNat = decide (bits.toNat / 2 ^ 63 % 2 = 1) := rfl
  have hzero : (bits >>> 63 == 0) = decide (bits.toNat / 2 ^ 63 = 0) := by
    rw [Bool.eq_iff_iff, beq_iff_eq, ← BitVec.toNat_inj, BitVec.toNat_ushiftRight,
      Nat.shiftRight_eq_div_pow, decide_eq_true_iff]
    rfl
  rw [hsign, low_f64, f64TotalOrderKey, hzero]
  by_cases hneg : bits.toNat / 2 ^ 63 = 0
  · rw [decide_eq_true hneg, if_pos rfl, if_neg (by rw [decide_eq_true_iff]; omega)]
    have hmsb : bits.getLsbD 63 = false := by
      rw [BitVec.getLsbD, Nat.testBit_eq_decide_div_mod_eq]
      exact decide_eq_false (by omega)
    have hdisjoint : bits &&& BitVec.twoPow 64 63 = 0#64 := by
      rw [BitVec.and_twoPow, hmsb, if_neg (by decide)]
    have hadd : bits ^^^ BitVec.twoPow 64 63 = bits + BitVec.twoPow 64 63 := by
      rw [BitVec.add_eq_or_of_and_eq_zero _ _ hdisjoint]
      refine BitVec.eq_of_getLsbD_eq fun i _ => ?_
      have hi := congrArg (BitVec.getLsbD · i) hdisjoint
      rw [BitVec.getLsbD_and, BitVec.getLsbD_zero] at hi
      rw [BitVec.getLsbD_xor, BitVec.getLsbD_or]
      cases hb : bits.getLsbD i <;> simp_all
    change (bits ^^^ BitVec.twoPow 64 63).toNat = _
    rw [hadd, BitVec.toNat_add, BitVec.toNat_twoPow]
    omega
  · rw [decide_eq_false hneg, if_neg (by decide), if_pos (decide_eq_true (by omega))]
    have hones : 0xFFFFFFFFFFFFFFFF#64 = BitVec.allOnes 64 := by decide
    have hnot : bits ^^^ 0xFFFFFFFFFFFFFFFF#64 = ~~~bits := by rw [hones, BitVec.xor_allOnes]
    rw [hnot, BitVec.toNat_not]
    omega

theorem toNat_eq_fields (bits : BitVec 64) : bits.toNat =
    (if f64.negative bits.toNat then 2 ^ 63 else 0) + f64.low bits.toNat := by
  have hlt := bits.isLt
  have hsign : f64.negative bits.toNat = decide (bits.toNat / 2 ^ 63 % 2 = 1) := rfl
  rw [hsign, low_f64]
  split_ifs with h
  · rw [decide_eq_true_iff] at h
    omega
  · rw [decide_eq_true_iff] at h
    omega

section Keys

variable {a b : BitVec 64} (hzero : ¬(f64.low a.toNat = 0 ∧ f64.low b.toNat = 0))
include hzero

theorem f64TotalOrderKey_lt_iff :
    f64TotalOrderKey a < f64TotalOrderKey b ↔ f64.signed a.toNat < f64.signed b.toNat := by
  have ha : f64.low a.toNat < 2 ^ 63 := Nat.mod_lt _ (by decide)
  have hb : f64.low b.toNat < 2 ^ 63 := Nat.mod_lt _ (by decide)
  rw [BitVec.lt_def, f64TotalOrderKey_toNat, f64TotalOrderKey_toNat, Format.signed, Format.signed]
  split_ifs <;> omega

theorem eq_iff_signed_eq : a = b ↔ f64.signed a.toNat = f64.signed b.toNat := by
  have ha := toNat_eq_fields a
  have hb := toNat_eq_fields b
  have hla : f64.low a.toNat < 2 ^ 63 := Nat.mod_lt _ (by decide)
  have hlb : f64.low b.toNat < 2 ^ 63 := Nat.mod_lt _ (by decide)
  rw [← BitVec.toNat_inj, Format.signed, Format.signed]
  cases hsa : f64.negative a.toNat <;> cases hsb : f64.negative b.toNat <;>
    simp only [hsa, hsb, Bool.false_eq_true, if_true, if_false] at ha hb ⊢ <;> omega

end Keys

/-- The shader's comparisons of bits are the comparisons of the floats. -/
theorem f64Op_eq (op : CompareOp) (a b : BitVec 64) :
    f64Op op a b = op.ieee (f64.value a.toNat) (f64.value b.toNat) := by
  rw [f64.ieee_value]
  by_cases hnan : f64.top < f64.low a.toNat ∨ f64.top < f64.low b.toNat
  · have h : (f64IsNan a || f64IsNan b) = true := by
      rwa [Bool.or_eq_true, f64IsNan_iff, f64IsNan_iff]
    rw [if_pos hnan]
    cases op <;> exact if_pos h
  have h : ¬(f64IsNan a || f64IsNan b) = true := by
    rwa [Bool.or_eq_true, f64IsNan_iff, f64IsNan_iff]
  rw [if_neg hnan]
  by_cases hzero : f64.low a.toNat = 0 ∧ f64.low b.toNat = 0
  · have hsigned : ∀ x : BitVec 64, f64.low x.toNat = 0 → f64.signed x.toNat = 0 := by
      intro x hx
      rw [Format.signed, hx]
      split_ifs <;> rfl
    have hboth := (bothAreZero_iff a b).2 hzero
    rw [hsigned a hzero.1, hsigned b hzero.2]
    cases op <;> exact (if_neg h).trans (if_pos hboth)
  have hboth : ¬bothAreZero a b = true := mt (bothAreZero_iff a b).1 hzero
  have hlt := f64TotalOrderKey_lt_iff hzero
  have hgt := f64TotalOrderKey_lt_iff (a := b) (b := a) (fun h => hzero h.symm)
  have heq := eq_iff_signed_eq hzero
  have hle : ∀ x y : BitVec 64, x ≤ y ↔ ¬y < x := fun x y => BitVec.not_lt.symm
  cases op with
  | eq => exact ((if_neg h).trans (if_neg hboth)).trans (decide_eq_decide.2 heq)
  | ne =>
    refine ((if_neg h).trans (if_neg hboth)).trans ?_
    rw [Bool.eq_iff_iff, bne_iff_ne, Comparison.holds, decide_eq_true_iff, ne_eq, heq]
  | lt => exact ((if_neg h).trans (if_neg hboth)).trans (decide_eq_decide.2 hlt)
  | le =>
    refine ((if_neg h).trans (if_neg hboth)).trans (decide_eq_decide.2 ?_)
    rw [hle, hgt, not_lt]
  | gt => exact ((if_neg h).trans (if_neg hboth)).trans (decide_eq_decide.2 hgt)
  | ge =>
    refine ((if_neg h).trans (if_neg hboth)).trans (decide_eq_decide.2 ?_)
    rw [ge_iff_le, hle, hlt, not_lt]

theorem ieee_exact (op : CompareOp) (a b : ℤ) : op.ieee (exact a) (exact b) = op.holds a b := by
  have hlt : ∀ x y : ℤ, (((x : ℚ) : WithTop ℚ) : Extended) < (((y : ℚ) : WithTop ℚ) : Extended) ↔
      x < y := by
    intro x y
    rw [WithBot.coe_lt_coe, WithTop.coe_lt_coe, Int.cast_lt]
  have heq : (((a : ℚ) : WithTop ℚ) : Extended) = (((b : ℚ) : WithTop ℚ) : Extended) ↔ a = b := by
    rw [WithBot.coe_inj, WithTop.coe_inj, Int.cast_inj]
  change op.holds _ _ = _
  cases op with
  | eq => exact decide_eq_decide.2 heq
  | ne => exact decide_eq_decide.2 (not_congr heq)
  | lt => exact decide_eq_decide.2 (hlt a b)
  | le => exact decide_eq_decide.2 (by rw [← not_lt, hlt, not_lt])
  | gt => exact decide_eq_decide.2 (hlt b a)
  | ge => exact decide_eq_decide.2 (by rw [← not_lt, hlt, not_lt])


/-! A grid of row threads. -/

/-- A thread that writes its row's value. -/
def resultThread (value : ℕ → Option Bool) (nRows gid : ℕ) : List DeviceOp :=
  if gid ≥ nRows then []
  else
    match value gid with
    | some b => .orValid gid :: if b then [.orData gid] else []
    | none => []

theorem mem_resultThread {value : ℕ → Option Bool} {nRows : ℕ} {op : DeviceOp} :
    (∃ gid < nRows, op ∈ resultThread value nRows gid) ↔
      ∃ gid < nRows, (value gid).isSome ∧ op = .orValid gid ∨ value gid = some true ∧ op = .orData gid := by
  refine exists_congr fun gid => and_congr_right fun hgid => ?_
  rw [resultThread, if_neg (by omega)]
  rcases value gid with _ | _ | _ <;> simp

/-- What an evaluation comes to: the buffers it returns encode `value`, and it returns where `fits`
holds and a grid can have the rows. -/
structure Yields (x : Except PredicateError Buffers) (nRows : ℕ) (value : ℕ → Option Bool)
    (fits : Prop) : Prop where
  encodes : ∀ b, x = .ok b → Encodes b nRows value
  returns : nRows < 2 ^ 32 → fits → ∃ b, x = .ok b

theorem dispatchBits_yields {thread : ℕ → ℕ → List DeviceOp} {value : ℕ → Option Bool}
    {nRows : ℕ} {order : List ℕ} (horder : ∀ gid < nRows, 2 ≤ order.count gid)
    (hthread : ∀ gid, thread nRows gid = resultThread value nRows gid) :
    Yields (dispatchBits thread order nRows) nRows value True := by
  have hbytes : minBytes nRows ≤ dstValidMinBytes nRows := by
    simp only [dstValidMinBytes, minBytes]
    omega
  rcases Nat.eq_zero_or_pos nRows with rfl | hpos
  · refine ⟨fun b hb => ?_, fun _ _ => ⟨_, rfl⟩⟩
    rw [dispatchBits, if_pos rfl, pure_eq_ok] at hb
    subst hb
    exact ⟨Nat.zero_le _, Nat.zero_le _, fun row hrow => absurd hrow (Nat.not_lt_zero row)⟩
  unfold dispatchBits
  rw [if_neg (by omega)]
  by_cases hrows : 2 ^ 32 ≤ nRows
  · rw [if_pos hrows]
    exact ⟨fun b hb => (by cases hb), fun h => absurd h (by omega)⟩
  rw [if_neg hrows]
  refine ⟨fun b hb => ?_, fun _ _ => ⟨_, rfl⟩⟩
  rw [pure_eq_ok] at hb
  rw [funext hthread] at hb
  have hidle : ∀ gid, nRows ≤ gid → resultThread value nRows gid = [] := fun gid h => if_pos h
  have hcomplete : Complete (resultThread value nRows) nRows order := by
    intro gid hgid
    refine le_trans ?_ (horder gid hgid)
    rw [resultThread, if_neg (by omega)]
    rcases value gid with _ | _ | _ <;> simp
  obtain ⟨trace, hexec, htrace⟩ := exec_eq_foldl DeviceMem.apply
    ⟨[], zeroWords (dstValidMinBytes nRows), zeroWords (dstValidMinBytes nRows)⟩ hidle hcomplete
  have hmem := fun op => (htrace op).trans mem_resultThread
  have hdataRows : ∀ row, row ∈ trace.filterMap DeviceOp.dataRow ↔
      row < nRows ∧ value row = some true := by
    intro row
    simp only [List.mem_filterMap, DeviceOp.dataRow_eq_some, exists_eq_right, hmem, reduceCtorEq,
      and_false, false_or, DeviceOp.orData.injEq]
    constructor
    · rintro ⟨_, h, hv, rfl⟩
      exact ⟨h, hv⟩
    · rintro ⟨h, hv⟩
      exact ⟨row, h, hv, rfl⟩
  have hvalidRows : ∀ row, row ∈ trace.filterMap DeviceOp.validRow ↔
      row < nRows ∧ (value row).isSome := by
    intro row
    simp only [List.mem_filterMap, DeviceOp.validRow_eq_some, exists_eq_right, hmem, reduceCtorEq,
      and_false, or_false, DeviceOp.orValid.injEq]
    constructor
    · rintro ⟨_, h, hv, rfl⟩
      exact ⟨h, hv⟩
    · rintro ⟨h, hv⟩
      exact ⟨row, h, hv, rfl⟩
  rw [hexec, foldl_apply] at hb
  subst hb
  have hlength : ∀ rows : List ℕ, minBytes nRows ≤
      (toBytes (rows.foldl orBit (zeroWords (dstValidMinBytes nRows)))).length := by
    intro rows
    have hwords : dstValidMinBytes nRows % 4 = 0 := by
      simp only [dstValidMinBytes, minBytes]
      omega
    rw [length_toBytes, length_foldl_orBit, zeroWords, List.length_replicate]
    omega
  refine ⟨hlength _, hlength _, fun row hrow => ?_⟩
  have hdata := @bitAt_foldl_orBit nRows _ (fun r hr => ((hdataRows r).1 hr).1) row
  have hvalid := @bitAt_foldl_orBit nRows _ (fun r hr => ((hvalidRows r).1 hr).1) row
  rw [readRow, getValid, getValid, hdata, hvalid]
  simp only [hdataRows, hvalidRows, hrow, true_and]
  rcases value row with _ | _ | _ <;> rfl

/-! Columns of a comparison. -/

/-- The value of a slot under a kernel's dtype. -/
def tagValue (dtype : PlanDtype) (bits : BitVec 64) : Option Extended :=
  if dtype = .f64 then f64.value bits.toNat else exact bits.toInt

/-- The buffers hold the values of a column, `none` where it is null. -/
structure HoldsColumn (dtype : PlanDtype) (b : Buffers) (nRows : ℕ)
    (value : ℕ → Option (Option Extended)) : Prop where
  data_length : nRows * 8 ≤ b.1.length
  valid_length : minBytes nRows ≤ b.2.length
  row : ∀ row < nRows,
    (if getValid b.2 row then some (tagValue dtype (slot b.1 row)) else none) = value row

theorem intRange_of_widen {dtype : PolarsDtype} {tag : PlanDtype} (hmap : mapDtype dtype = some tag)
    (hwiden : widenDtype tag = .i64) :
    ∃ lo hi, intRange dtype = some (lo, hi) ∧ -2 ^ 63 ≤ lo ∧ hi ≤ 2 ^ 63 := by
  cases dtype with
  | other name =>
    by_cases hname : name = "Date"
    · exact ⟨-2 ^ 31, 2 ^ 31, if_pos hname, by decide, by decide⟩
    · exact absurd (hmap.symm.trans (if_neg hname)) (by simp)
  | int8 => exact ⟨_, _, rfl, by decide, by decide⟩
  | int16 => exact ⟨_, _, rfl, by decide, by decide⟩
  | int32 => exact ⟨_, _, rfl, by decide, by decide⟩
  | int64 => exact ⟨_, _, rfl, by decide, by decide⟩
  | uint8 => exact ⟨_, _, rfl, by decide, by decide⟩
  | uint16 => exact ⟨_, _, rfl, by decide, by decide⟩
  | uint32 => exact ⟨_, _, rfl, by decide, by decide⟩
  | arrayF32 => cases hmap
  | listF32 => cases hmap
  | _ =>
    cases hmap
    exact absurd hwiden (by decide)

/-- The cells of a column the walker tags `I64`. -/
theorem int_of_widen {dtype : PolarsDtype} {tag : PlanDtype} (hmap : mapDtype dtype = some tag)
    (hwiden : widenDtype tag = .i64) {c : Cell} (hc : hasDtype dtype c) :
    ∃ v, c = .int v ∧ -2 ^ 63 ≤ v ∧ v < 2 ^ 63 := by
  obtain ⟨lo, hi, hrange, hlo, hhi⟩ := intRange_of_widen hmap hwiden
  unfold hasDtype at hc
  rw [hmap, Option.isNone_some, Bool.false_or] at hc
  cases c with
  | int v =>
    simp only [hrange, Option.any_some, Bool.and_eq_true, decide_eq_true_eq] at hc
    exact ⟨v, rfl, le_trans hlo hc.1, lt_of_lt_of_le hc.2 hhi⟩
  | _ =>
    simp only [decide_eq_true_eq] at hc
    subst hc
    cases hrange

/-- The cells of a column the walker tags `F64`. -/
theorem float_of_widen {dtype : PolarsDtype} {tag : PlanDtype} (hmap : mapDtype dtype = some tag)
    (hwiden : widenDtype tag = .f64) {c : Cell} (hc : hasDtype dtype c) :
    (dtype = .float64 ∧ ∃ bits, c = .f64 bits) ∨ dtype = .float32 ∧ ∃ bits, c = .f32 bits := by
  have hdtype : dtype = .float64 ∨ dtype = .float32 := by
    cases dtype with
    | float64 => exact Or.inl rfl
    | float32 => exact Or.inr rfl
    | other name =>
      by_cases hname : name = "Date"
      · rw [mapDtype, if_pos hname, Option.some.injEq] at hmap
        subst hmap
        exact absurd hwiden (by decide)
      · exact absurd (hmap.symm.trans (if_neg hname)) (by simp)
    | arrayF32 => cases hmap
    | listF32 => cases hmap
    | _ =>
      cases hmap
      exact absurd hwiden (by decide)
  rcases hdtype with rfl | rfl
  · refine Or.inl ⟨rfl, ?_⟩
    cases c with
    | f64 bits => exact ⟨bits, rfl⟩
    | _ => simp [hasDtype, mapDtype, intRange] at hc
  · refine Or.inr ⟨rfl, ?_⟩
    cases c with
    | f32 bits => exact ⟨bits, rfl⟩
    | _ => simp [hasDtype, mapDtype, intRange] at hc

theorem getValid_take {bytes : List UInt8} {nRows row : ℕ} (h : row < nRows) :
    getValid (bytes.take (minBytes nRows)) row = getValid bytes row := by
  rw [getValid, getValid, minBytes, bitAt_take h]

theorem getValid_padTo (n : ℕ) (bytes : List UInt8) (row : ℕ) :
    getValid (padTo n bytes) row = getValid bytes row := by
  rw [getValid, getValid, bitAt_padTo]

theorem getValid_allOnes {nRows row : ℕ} (h : row < nRows) :
    getValid (allOnesBitmap nRows) row = true := by
  rw [getValid, bitAt_allOnes h]
  rfl

/-- The validity bitmap Python hands over: the array's, or all ones. -/
theorem ArrowArray.Holds.getValid {arr : ArrowArray} {s : PolarsSeries} (h : arr.Holds s) {row : ℕ}
    {c : Option Cell} (hc : s.cells[row]? = some c) :
    Filter.getValid (padTo (minBytes s.cells.length)
      (arr.valid.getD (allOnesBitmap s.cells.length))) row = c.isSome := by
  have hrow : row < s.cells.length := (List.getElem?_eq_some_iff.1 hc).1
  rw [getValid_padTo, ← h.valid row c hc]
  cases arr.valid with
  | none => exact getValid_allOnes hrow
  | some bits => rfl

/-! Casts and leaves. -/

/-- A single as a double, other cells as they are. -/
def widenCell : Cell → Cell
  | .f32 bits => .f64 (BitVec.ofNat 64 (widen bits.toNat))
  | c => c

theorem cellValue_widenCell (c : Cell) : cellValue (widenCell c) = cellValue c := by
  cases c with
  | f32 bits =>
    rw [widenCell, cellValue, cellValue, BitVec.toNat_ofNat, Nat.mod_eq_of_lt (widen_lt _), value_widen]
  | _ => rfl

/-- The kernels' dtypes, with the cells they read. -/
def Kernel (dtype : PlanDtype) (s : PolarsSeries) : Prop :=
  (dtype = .i64 ∧ s.dtype = .int64 ∧
      ∀ c, some c ∈ s.cells → ∃ v, c = .int v ∧ -2 ^ 63 ≤ v ∧ v < 2 ^ 63) ∨
    dtype = .f64 ∧ s.dtype = .float64 ∧ ∀ c, some c ∈ s.cells → ∃ bits, c = .f64 bits

/-- The cast keeps every value. -/
theorem coerceForCompare_ok {s : PolarsSeries} (hs : s.Typed) {tag : PlanDtype}
    (hmap : mapDtype s.dtype = some tag) (hkernel : widenDtype tag = .i64 ∨ widenDtype tag = .f64) :
    ∃ s', coerceForCompare s (widenDtype tag) = .ok s' ∧ s'.Typed ∧ Kernel (widenDtype tag) s' ∧
      s'.cells.length = s.cells.length ∧
      ∀ row : ℕ, (s'.cells[row]?.join).bind cellValue = (s.cells[row]?.join).bind cellValue := by
  rcases hkernel with htag | htag
  · have hints : ∀ c, some c ∈ s.cells → ∃ v, c = .int v ∧ -2 ^ 63 ≤ v ∧ v < 2 ^ 63 :=
      fun c hc => int_of_widen hmap htag (hs c hc)
    have htyped : PolarsSeries.Typed ⟨.int64, s.cells⟩ := by
      intro c hc
      obtain ⟨v, rfl, hlo, hhi⟩ := hints c hc
      refine Bool.or_eq_true_iff.2 (Or.inr ?_)
      exact Bool.and_eq_true_iff.2 ⟨decide_eq_true hlo, decide_eq_true hhi⟩
    rw [htag]
    by_cases hdtype : s.dtype = .int64
    · refine ⟨s, ?_, hs, Or.inl ⟨rfl, hdtype, hints⟩, rfl, fun _ => rfl⟩
      rw [coerceForCompare, if_neg (fun h => h.2 hdtype), if_neg (fun h => nomatch h.1)]
    · refine ⟨⟨.int64, s.cells⟩, ?_, htyped, Or.inl ⟨rfl, rfl, hints⟩, rfl, fun _ => rfl⟩
      rw [coerceForCompare, if_pos ⟨rfl, hdtype⟩, castToInt64, mapM_eq_ok (g := id), List.map_id]
      · rfl
      · intro c hc
        rcases c with _ | c
        · rfl
        · obtain ⟨v, rfl, hlo, hhi⟩ := hints c hc
          exact if_pos ⟨hlo, hhi⟩
  · have hfloats : ∀ c, some c ∈ s.cells → _ := fun c hc => float_of_widen hmap htag (hs c hc)
    rw [htag]
    by_cases hdtype : s.dtype = .float64
    · refine ⟨s, ?_, hs, Or.inr ⟨rfl, hdtype, fun c hc => ?_⟩, rfl, fun _ => rfl⟩
      · rw [coerceForCompare, if_neg (fun h => nomatch h.1), if_neg (fun h => h.2 hdtype)]
      · rcases hfloats c hc with ⟨-, hbits⟩ | ⟨h32, -⟩
        · exact hbits
        · rw [hdtype] at h32
          cases h32
    · have hsingles : ∀ c, some c ∈ s.cells → ∃ bits, c = .f32 bits := fun c hc =>
        (hfloats c hc).elim (fun h => absurd h.1 hdtype) (fun h => h.2)
      refine ⟨⟨.float64, s.cells.map (Option.map widenCell)⟩, ?_, ?_, Or.inr ⟨rfl, rfl, ?_⟩, ?_, ?_⟩
      · rw [coerceForCompare, if_neg (fun h => nomatch h.1), if_pos ⟨rfl, hdtype⟩, castToFloat64,
          mapM_eq_ok (g := Option.map widenCell)]
        · rfl
        · intro c hc
          rcases c with _ | c
          · rfl
          · obtain ⟨bits, rfl⟩ := hsingles c hc
            rfl
      · intro c hc
        obtain ⟨o, ho, hmapc⟩ := List.mem_map.1 hc
        obtain ⟨c', rfl, rfl⟩ := Option.map_eq_some_iff.1 hmapc
        obtain ⟨bits, rfl⟩ := hsingles c' ho
        simp [hasDtype, widenCell]
      · intro c hc
        obtain ⟨o, ho, hmapc⟩ := List.mem_map.1 hc
        obtain ⟨c', rfl, rfl⟩ := Option.map_eq_some_iff.1 hmapc
        obtain ⟨bits, rfl⟩ := hsingles c' ho
        exact ⟨_, rfl⟩
      · exact List.length_map _
      · intro row
        rw [List.getElem?_map]
        rcases s.cells[row]? with _ | _ | c
        · rfl
        · rfl
        · exact cellValue_widenCell c

theorem toInt_ofInt_of_fits {v : ℤ} (hlo : -2 ^ 63 ≤ v) (hhi : v < 2 ^ 63) :
    (BitVec.ofInt 64 v).toInt = v := by
  rw [BitVec.toInt_ofInt, Int.bmod_eq_of_le]
  · simpa using hlo
  · simpa using hhi

theorem dataAndValid_holds {arr : ArrowArray} {s : PolarsSeries} {dtype : PlanDtype}
    (hkernel : Kernel dtype s) (h : arr.Holds s) :
    ∃ b, dataAndValidForDtype arr s.cells.length dtype = .ok b ∧
      HoldsColumn dtype b s.cells.length (fun row => (s.cells[row]?.join).bind cellValue) := by
  rcases hkernel with ⟨rfl, hdtype, hints⟩ | ⟨rfl, hdtype, hfloats⟩
  · obtain ⟨hlen, hslots⟩ := h.int64 hdtype
    refine ⟨_, rfl, length_padTo _ _, length_padTo _ _, fun row hrow => ?_⟩
    obtain ⟨c, hc⟩ : ∃ c, s.cells[row]? = some c := ⟨_, List.getElem?_eq_getElem hrow⟩
    have hvalid := h.getValid hc
    rw [hc]
    rcases c with _ | c
    · exact if_neg (by rw [hvalid]; decide)
    · obtain ⟨v, rfl, hlo, hhi⟩ := hints c (List.mem_of_getElem? hc)
      change (if _ then some (tagValue .i64 (slot (padTo _ arr.bytes) row)) else none) = _
      rw [if_pos (show _ = true from hvalid), padTo_of_le hlen, hslots row v hc, tagValue, if_neg (by decide),
        toInt_ofInt_of_fits hlo hhi]
      rfl
  · obtain ⟨hlen, hslots⟩ := h.float64 hdtype
    refine ⟨_, rfl, length_padTo _ _, length_padTo _ _, fun row hrow => ?_⟩
    obtain ⟨c, hc⟩ : ∃ c, s.cells[row]? = some c := ⟨_, List.getElem?_eq_getElem hrow⟩
    have hvalid := h.getValid hc
    rw [hc]
    rcases c with _ | c
    · exact if_neg (by rw [hvalid]; decide)
    · obtain ⟨bits, rfl⟩ := hfloats c (List.mem_of_getElem? hc)
      change (if _ then some (tagValue .f64 (slot (padTo _ arr.bytes) row)) else none) = _
      rw [if_pos (show _ = true from hvalid), padTo_of_le hlen, hslots row bits hc, tagValue, if_pos rfl]
      rfl

/-- A column of the frame with the tag the walker gives it. -/
def Tagged (df : PolarsFrame) (name : String) (dtype : PlanDtype) : Prop :=
  ∃ s tag, df.columns.lookup name = some s ∧ mapDtype s.dtype = some tag ∧ widenDtype tag = dtype

theorem mem_of_lookup {α β : Type*} [BEq α] [LawfulBEq α] {l : List (α × β)} {a : α} {b : β}
    (h : l.lookup a = some b) : (a, b) ∈ l := by
  obtain ⟨l₁, l₂, rfl, -⟩ := List.lookup_eq_some_iff.1 h
  exact List.mem_append_right _ List.mem_cons_self

theorem compareColumn_holds {df : PolarsFrame} {site : Site} (hsite : site.Lawful df.height)
    {name : String} {dtype : PlanDtype} (hcol : Tagged df name dtype)
    (hkernel : dtype = .i64 ∨ dtype = .f64) :
    ∃ b, compareColumn df df.height site name dtype = .ok b ∧
      HoldsColumn dtype b df.height (fun row => (df.cellAt name row).bind cellValue) := by
  obtain ⟨s, tag, hlookup, hmap, rfl⟩ := hcol
  have hmem := mem_of_lookup hlookup
  obtain ⟨s', hcoerce, htyped, hk, hlen, hvalue⟩ :=
    coerceForCompare_ok (df.typed _ hmem) hmap hkernel
  have hheight : s'.cells.length = df.height := hlen.trans (df.length_eq _ hmem)
  obtain ⟨b, hb, hholds⟩ := dataAndValid_holds hk (hsite.materialize s' htyped)
  rw [hheight] at hb hholds
  refine ⟨b, ?_, hholds.data_length, hholds.valid_length, fun row hrow => ?_⟩
  · rw [compareColumn, PolarsFrame.getColumn, hlookup]
    change coerceForCompare s (widenDtype tag) >>= _ = _
    rw [hcoerce]
    exact hb
  · rw [hholds.row row hrow, hvalue, PolarsFrame.cellAt, hlookup]
    rfl

/-! Comparisons. -/

theorem swapCompareOp_eq (op : CompareOp) : swapCompareOp op = op.swap := by
  cases op <;> rfl

theorem compared_swap (op : CompareOp) (a b : Option (Option Extended)) :
    compared op.swap b a = compared op a b := by
  cases a with
  | none => cases b <;> rfl
  | some a =>
    cases b with
    | none => rfl
    | some b => exact congrArg some (Comparison.ieee_swap op a b)

theorem checkNumericBuffers_ok {b : Buffers} {nRows : ℕ} (hdata : nRows * 8 ≤ b.1.length)
    (hvalid : minBytes nRows ≤ b.2.length) : checkNumericBuffers b.1 b.2 nRows = .ok () := by
  rw [checkNumericBuffers, checkBytes, if_neg (by omega), if_neg (by omega)]
  rfl

section Compare

variable {dtype : PlanDtype} {bitsOp : BitVec 64 → BitVec 64 → Bool} {op : CompareOp} {nRows : ℕ}
  {order : List ℕ} (hop : ∀ x y, bitsOp x y = op.ieee (tagValue dtype x) (tagValue dtype y))
  (horder : ∀ gid < nRows, 2 ≤ order.count gid)
include hop horder

theorem cmpColCol_yields {lhs rhs : Buffers} {u v : ℕ → Option (Option Extended)}
    (hlhs : HoldsColumn dtype lhs nRows u) (hrhs : HoldsColumn dtype rhs nRows v) :
    Yields (cmpColCol bitsOp order lhs rhs nRows) nRows (fun row => compared op (u row) (v row))
      True := by
  rw [cmpColCol, checkNumericBuffers_ok hlhs.data_length hlhs.valid_length,
    checkNumericBuffers_ok hrhs.data_length hrhs.valid_length]
  refine dispatchBits_yields horder fun gid => ?_
  rw [cmpColColThread, resultThread]
  by_cases hgid : gid ≥ nRows
  · rw [if_pos hgid, if_pos hgid]
  have hrow : gid < nRows := by omega
  rw [if_neg hgid, if_neg hgid, getValid_take hrow, getValid_take hrow, ← hlhs.row gid hrow,
    ← hrhs.row gid hrow, hop]
  cases getValid lhs.2 gid <;> cases getValid rhs.2 gid <;> rfl

theorem cmpColScalar_yields {lhs : Buffers} {u : ℕ → Option (Option Extended)} {scalar : BitVec 64}
    {value : Option Extended} (hlhs : HoldsColumn dtype lhs nRows u)
    (hscalar : tagValue dtype scalar = value) :
    Yields (cmpColScalar bitsOp order lhs scalar nRows) nRows
      (fun row => compared op (u row) (some value)) True := by
  rw [cmpColScalar, checkNumericBuffers_ok hlhs.data_length hlhs.valid_length]
  refine dispatchBits_yields horder fun gid => ?_
  rw [cmpColScalarThread, resultThread]
  by_cases hgid : gid ≥ nRows
  · rw [if_pos hgid, if_pos hgid]
  have hrow : gid < nRows := by omega
  rw [if_neg hgid, if_neg hgid, getValid_take hrow, ← hlhs.row gid hrow, hop, hscalar]
  cases getValid lhs.2 gid <;> rfl

end Compare

theorem i64Op_eq (op : CompareOp) (x y : BitVec 64) :
    i64Op op x y = op.ieee (tagValue .i64 x) (tagValue .i64 y) :=
  (ieee_exact op x.toInt y.toInt).symm

theorem f64Op_tag (op : CompareOp) (x y : BitVec 64) :
    f64Op op x y = op.ieee (tagValue .f64 x) (tagValue .f64 y) := f64Op_eq op x y

/-- The operand a leaf of the tree stands for. -/
def astOperand (df : PolarsFrame) (row : ℕ) : PredicateAst → Option (Option Extended)
  | .column name _ => (df.cellAt name row).bind cellValue
  | .literalI64 v => some (exact v)
  | .literalF64 bits => some (f64.value bits.toNat)
  | _ => none

theorem Yields.mono {x : Except PredicateError Buffers} {nRows : ℕ} {value value' : ℕ → Option Bool}
    {fits fits' : Prop} (h : Yields x nRows value fits) (hvalue : ∀ row < nRows, value row = value' row)
    (hfits : fits' → fits) : Yields x nRows value' fits' :=
  ⟨fun b hb => ⟨(h.encodes b hb).data_length, (h.encodes b hb).valid_length, fun row hrow =>
    ((h.encodes b hb).row row hrow).trans (hvalue row hrow)⟩, fun hn hf => h.returns hn (hfits hf)⟩

theorem Yields.bind {x y : Except PredicateError Buffers} {nRows : ℕ}
    {u v w : ℕ → Option Bool} {fitsX fitsY : Prop} {f : Buffers → Buffers → Except PredicateError Buffers}
    (hx : Yields x nRows u fitsX) (hy : Yields y nRows v fitsY)
    (hf : ∀ a b, Encodes a nRows u → Encodes b nRows v → Yields (f a b) nRows w True) :
    Yields (x >>= fun a => y >>= fun b => f a b) nRows w (fitsX ∧ fitsY) := by
  refine ⟨fun c hc => ?_, fun hn hfits => ?_⟩
  · obtain ⟨a, ha, hc⟩ := bind_eq_ok.1 hc
    obtain ⟨b, hb, hc⟩ := bind_eq_ok.1 hc
    exact (hf a b (hx.encodes a ha) (hy.encodes b hb)).encodes c hc
  · obtain ⟨a, ha⟩ := hx.returns hn hfits.1
    obtain ⟨b, hb⟩ := hy.returns hn hfits.2
    obtain ⟨c, hc⟩ := (hf a b (hx.encodes a ha) (hy.encodes b hb)).returns hn trivial
    rw [ha, hb]
    exact ⟨c, hc⟩

section Evaluate

variable {df : PolarsFrame} {sites : Sites} (hsites : ∀ path, (sites path).Lawful df.height)
include hsites

theorem compareWithColumn_yields (op : CompareOp) {name : String} {rhs : PredicateAst}
    {dtype : PlanDtype} (hkernel : dtype = .i64 ∨ dtype = .f64) (hname : Tagged df name dtype)
    (hleaf : rhs.leafDtype = some dtype) (hcolumn : ∀ n t, rhs = .column n t → Tagged df n t) :
    Yields (compareWithColumn df df.height sites op name rhs dtype) df.height
      (fun row => compared op ((df.cellAt name row).bind cellValue) (astOperand df row rhs))
      rhs.LiteralsFit := by
  obtain ⟨lhs, hlhs, hlhsHolds⟩ := compareColumn_holds (hsites [false]) hname hkernel
  have horder := (hsites []).order
  unfold compareWithColumn
  rw [hlhs]
  cases rhs with
  | column n t =>
    obtain rfl : t = dtype := Option.some.inj hleaf
    obtain ⟨rhs, hrhs, hrhsHolds⟩ :=
      compareColumn_holds (hsites [true]) (hcolumn n t rfl) hkernel
    change Yields (compareColumn df df.height (sites [true]) n t >>= _) _ _ _
    rw [hrhs]
    rcases hkernel with rfl | rfl
    · exact (cmpColCol_yields (i64Op_eq op) horder hlhsHolds hrhsHolds).mono (fun _ _ => rfl)
        (fun _ => trivial)
    · exact (cmpColCol_yields (f64Op_tag op) horder hlhsHolds hrhsHolds).mono (fun _ _ => rfl)
        (fun _ => trivial)
  | literalI64 v =>
    obtain rfl : PlanDtype.i64 = dtype := Option.some.inj hleaf
    change Yields (cmpI64ColScalar op _ lhs v df.height) _ _ _
    unfold cmpI64ColScalar
    by_cases hfits : -2 ^ 63 ≤ v ∧ v < 2 ^ 63
    · rw [if_pos hfits]
      have hscalar : tagValue .i64 (BitVec.ofInt 64 v) = exact v := by
        rw [tagValue, if_neg (by decide), toInt_ofInt_of_fits hfits.1 hfits.2]
      exact (cmpColScalar_yields (i64Op_eq op) horder hlhsHolds hscalar).mono (fun _ _ => rfl)
        (fun _ => trivial)
    · rw [if_neg hfits]
      exact ⟨fun b hb => (nomatch hb), fun _ h => absurd h hfits⟩
  | literalF64 bits =>
    obtain rfl : PlanDtype.f64 = dtype := Option.some.inj hleaf
    exact (cmpColScalar_yields (f64Op_tag op) horder hlhsHolds rfl).mono (fun _ _ => rfl)
      (fun _ => trivial)
  | literalBool b =>
    obtain rfl : PlanDtype.bool = dtype := Option.some.inj hleaf
    exact absurd hkernel (by decide)
  | compare => cases hleaf
  | logical => cases hleaf

theorem evaluateCompare_yields (op : CompareOp) {lhs rhs : PredicateAst} {dtype : PlanDtype}
    (hkernel : dtype = .i64 ∨ dtype = .f64) (hlhs : lhs.leafDtype = some dtype)
    (hrhs : rhs.leafDtype = some dtype) (hboth : (lhs.isLiteral && rhs.isLiteral) = false)
    (hlhsColumn : ∀ n t, lhs = .column n t → Tagged df n t)
    (hrhsColumn : ∀ n t, rhs = .column n t → Tagged df n t) :
    Yields (evaluateCompare df df.height sites op lhs rhs dtype) df.height
      (fun row => compared op (astOperand df row lhs) (astOperand df row rhs))
      (lhs.LiteralsFit ∧ rhs.LiteralsFit) := by
  cases hl : lhs with
  | column n t =>
    subst hl
    obtain rfl : t = dtype := Option.some.inj hlhs
    exact (compareWithColumn_yields hsites op hkernel (hlhsColumn n t rfl) hrhs hrhsColumn).mono
      (fun _ _ => rfl) (fun h => h.2)
  | compare => rw [hl] at hlhs; cases hlhs
  | logical => rw [hl] at hlhs; cases hlhs
  | _ =>
    -- a literal on the left: the operands change places
    cases hr : rhs with
    | column n t =>
      subst hl hr
      obtain rfl : t = dtype := Option.some.inj hrhs
      have h := compareWithColumn_yields hsites op.swap hkernel (hrhsColumn n t rfl) hlhs
        (fun _ _ h => nomatch h)
      rw [← swapCompareOp_eq] at h
      refine h.mono (fun row _ => ?_) (fun h => h.1)
      rw [swapCompareOp_eq, compared_swap]
      rfl
    | compare => rw [hr] at hrhs; cases hrhs
    | logical => rw [hr] at hrhs; cases hrhs
    | _ =>
      rw [hl, hr] at hboth
      cases hboth

theorem dispatchLogical_yields {kernel : List UInt8 → List UInt8 → List UInt8 → List UInt8 → ℕ →
      ℕ → List DeviceOp} {combine : Option Bool → Option Bool → Option Bool}
    (hkernel : ∀ (ld lv rd rv : List UInt8) (nRows gid : ℕ), gid < nRows →
      kernel ld lv rd rv nRows gid =
        resultThread (fun row => combine (readRow (ld, lv) row) (readRow (rd, rv) row)) nRows gid)
    (hidle : ∀ (ld lv rd rv : List UInt8) (nRows gid : ℕ), nRows ≤ gid →
      kernel ld lv rd rv nRows gid = [])
    {lhs rhs : Buffers} {u v : ℕ → Option Bool} (hlhs : Encodes lhs df.height u)
    (hrhs : Encodes rhs df.height v) :
    Yields (dispatchLogical kernel (sites []).order
      (padTo (minBytes df.height) lhs.1, padTo (minBytes df.height) lhs.2)
      (padTo (minBytes df.height) rhs.1, padTo (minBytes df.height) rhs.2) df.height) df.height
      (fun row => combine (u row) (v row)) True := by
  have hcheck : ∀ b : Buffers, checkBytes (padTo (minBytes df.height) b.1)
      (padTo (minBytes df.height) b.2) df.height (minBytes df.height) = .ok () := by
    intro b
    have h₁ := length_padTo (minBytes df.height) b.1
    have h₂ := length_padTo (minBytes df.height) b.2
    rw [checkBytes, if_neg (by omega), if_neg (by omega)]
    rfl
  unfold dispatchLogical
  rw [hcheck, hcheck]
  refine dispatchBits_yields (hsites []).order fun gid => ?_
  by_cases hgid : df.height ≤ gid
  · rw [hidle _ _ _ _ _ _ hgid, resultThread, if_pos hgid]
  have hrow : gid < df.height := by omega
  rw [hkernel _ _ _ _ _ _ hrow, resultThread, resultThread, if_neg hgid, if_neg hgid]
  have hread : ∀ {b : Buffers} {w : ℕ → Option Bool}, Encodes b df.height w →
      readRow ((padTo (minBytes df.height) b.1).take (minBytes df.height),
        (padTo (minBytes df.height) b.2).take (minBytes df.height)) gid = w gid := by
    intro b w hb
    rw [← hb.row gid hrow, readRow, readRow, getValid_take hrow, getValid_take hrow, getValid_padTo,
      getValid_padTo]
  rw [hread hlhs, hread hrhs]

end Evaluate

theorem boolAndThread_eq (ld lv rd rv : List UInt8) (nRows gid : ℕ) (h : gid < nRows) :
    boolAndThread ld lv rd rv nRows gid =
      resultThread (fun row => kleeneAnd (readRow (ld, lv) row) (readRow (rd, rv) row)) nRows gid := by
  simp only [boolAndThread, resultThread, if_neg (show ¬gid ≥ nRows by omega), readRow, logicalWrites]
  cases getValid ld gid <;> cases getValid lv gid <;> cases getValid rd gid <;>
    cases getValid rv gid <;> rfl

theorem boolOrThread_eq (ld lv rd rv : List UInt8) (nRows gid : ℕ) (h : gid < nRows) :
    boolOrThread ld lv rd rv nRows gid =
      resultThread (fun row => kleeneOr (readRow (ld, lv) row) (readRow (rd, rv) row)) nRows gid := by
  simp only [boolOrThread, resultThread, if_neg (show ¬gid ≥ nRows by omega), readRow, logicalWrites]
  cases getValid ld gid <;> cases getValid lv gid <;> cases getValid rd gid <;>
    cases getValid rv gid <;> rfl

/-! The walker's trees. -/

theorem lookup_schema (df : PolarsFrame) (name : String) :
    df.schema.lookup name = (df.columns.lookup name).map PolarsSeries.dtype := by
  unfold PolarsFrame.schema
  induction df.columns with
  | nil => rfl
  | cons column columns ih =>
    obtain ⟨n, s⟩ := column
    rw [List.map_cons, List.lookup_cons, List.lookup_cons]
    cases name == n with
    | true => rfl
    | false => exact ih

theorem walkPredicate_column {df : PolarsFrame} {name : String} {pred : PredicateAst}
    (h : walkPredicate df.schema (.column name) = some pred) :
    ∃ dtype, pred = .column name dtype ∧ Tagged df name dtype := by
  rw [walkPredicate, lookup_schema] at h
  cases hs : df.columns.lookup name with
  | none => simp [hs] at h
  | some s =>
    simp only [hs, Option.map_some, Option.bind_eq_bind, Option.bind_some,
      Option.bind_eq_some_iff] at h
    obtain ⟨tag, htag, hpred⟩ := h
    exact ⟨_, (Option.some.inj hpred).symm, s, tag, hs, htag, rfl⟩

theorem walkCompare_eq_some {op : CompareOp} {lhs rhs pred : PredicateAst}
    (h : walkCompare op lhs rhs = some pred) :
    ∃ dtype, pred = .compare op lhs rhs dtype ∧ (dtype = .i64 ∨ dtype = .f64) ∧
      lhs.isCompound = false ∧ rhs.isCompound = false ∧
      lhs.leafDtype = some dtype ∧ rhs.leafDtype = some dtype ∧
      (lhs.isLiteral && rhs.isLiteral) = false := by
  unfold walkCompare at h
  by_cases hcompound : (lhs.isCompound || rhs.isCompound) = true
  · rw [if_pos hcompound] at h
    cases h
  rw [if_neg hcompound] at h
  rw [Bool.or_eq_true, not_or, Bool.not_eq_true, Bool.not_eq_true] at hcompound
  cases hl : lhs.leafDtype with
  | none => simp [hl] at h
  | some lhsDt =>
    cases hr : rhs.leafDtype with
    | none => simp [hl, hr] at h
    | some rhsDt =>
      simp only [hl, hr] at h
      split_ifs at h with hne hkernel hboth
      rw [not_not] at hne
      refine ⟨lhsDt, (Option.some.inj h).symm, ?_, hcompound.1, hcompound.2, rfl, ?_, ?_⟩
      · by_contra hnot
        exact hkernel (not_or.1 hnot)
      · rw [hne]
      · simpa using hboth

theorem walkLogical_eq_some {op : LogicalOp} {lhs rhs pred : PredicateAst}
    (h : walkLogical op lhs rhs = some pred) :
    pred = .logical op lhs rhs ∧ (lhs.resultDtype = .bool ∧ lhs.isLiteral = false) ∧
      rhs.resultDtype = .bool ∧ rhs.isLiteral = false := by
  unfold walkLogical at h
  split_ifs at h with hdtype
  rw [not_or, not_not, not_not] at hdtype
  have hliteral : ∀ a : PredicateAst, a.resultDtype = .bool → (∀ b, a ≠ .literalBool b) →
      a.isLiteral = false := by
    intro a ha hne
    cases a with
    | literalI64 => cases ha
    | literalF64 => cases ha
    | literalBool b => exact absurd rfl (hne b)
    | _ => rfl
  split at h
  case h_3 _ _ h₁ h₂ =>
    exact ⟨(Option.some.inj h).symm, ⟨hdtype.1, hliteral _ hdtype.1 fun b hb => h₁ b hb⟩, hdtype.2,
      hliteral _ hdtype.2 fun b hb => h₂ b hb⟩
  all_goals cases h

theorem walkPredicate_binary {schema : Schema} {op : Operator} {l r : PredicateExpr}
    {pred : PredicateAst} (h : walkPredicate schema (.binaryExpr op l r) = some pred) :
    pred.isCompound = true := by
  unfold walkPredicate at h
  split at h
  · simp only [Option.bind_eq_bind, Option.bind_eq_some_iff] at h
    obtain ⟨lhs, -, rhs, -, hpred⟩ := h
    obtain ⟨rfl, -⟩ := walkLogical_eq_some hpred
    rfl
  · simp only [Option.bind_eq_bind, Option.bind_eq_some_iff] at h
    obtain ⟨lhs, -, rhs, -, hpred⟩ := h
    obtain ⟨dtype, rfl, -⟩ := walkCompare_eq_some hpred
    rfl
  · cases h

theorem tagged_of_walk {df : PolarsFrame} {e : PredicateExpr} {name : String} {dtype : PlanDtype}
    (h : walkPredicate df.schema e = some (.column name dtype)) : Tagged df name dtype := by
  cases e with
  | column n =>
    obtain ⟨t, heq, htagged⟩ := walkPredicate_column h
    cases heq
    exact htagged
  | literal value => cases value <;> cases h
  | binaryExpr op l r => cases walkPredicate_binary h
  | other => cases h

/-- A leaf of the tree has the value of the expression it was walked from. -/
theorem astOperand_walk {df : PolarsFrame} {e : PredicateExpr} {pred : PredicateAst}
    (h : walkPredicate df.schema e = some pred) (hleaf : pred.isCompound = false) (row : ℕ) :
    astOperand df row pred = operandValue df row e := by
  cases e with
  | column name =>
    obtain ⟨dtype, rfl, -⟩ := walkPredicate_column h
    rfl
  | literal value =>
    cases value with
    | bool b => cases h; rfl
    | date ordinal => cases h; rfl
    | int v => cases h; rfl
    | float bits => cases h; rfl
    | none => cases h
    | other => cases h
  | binaryExpr op l r =>
    rw [walkPredicate_binary h] at hleaf
    cases hleaf
  | other => cases h

/-- The two tables of operators, and what the expression means at each. -/
theorem kleene_logical {op : Operator} {logicalOp : LogicalOp} (h : logicalOpName op = some logicalOp)
    (df : PolarsFrame) (row : ℕ) (l r : PredicateExpr) :
    kleene df row (.binaryExpr op l r) =
      match logicalOp with
      | .and => kleeneAnd (kleene df row l) (kleene df row r)
      | .or => kleeneOr (kleene df row l) (kleene df row r) := by
  cases op <;> cases h <;> rfl

theorem kleene_compare {op : Operator} {cmpOp : CompareOp} (h : cmpOpName op = some cmpOp)
    (df : PolarsFrame) (row : ℕ) (l r : PredicateExpr) :
    kleene df row (.binaryExpr op l r) =
      compared cmpOp (operandValue df row l) (operandValue df row r) := by
  cases op <;> cases h <;> rfl

theorem Tagged.boolean {df : PolarsFrame} {name : String} (h : Tagged df name .bool) :
    ∃ s, df.columns.lookup name = some s ∧ s.dtype = .boolean := by
  obtain ⟨s, tag, hs, hmap, hwiden⟩ := h
  refine ⟨s, hs, ?_⟩
  have htag : tag = .bool := by
    unfold widenDtype at hwiden
    split_ifs at hwiden
    exact hwiden
  rw [htag] at hmap
  cases hdtype : s.dtype with
  | boolean => rfl
  | other n =>
    rw [hdtype, mapDtype] at hmap
    split_ifs at hmap
    cases hmap
  | _ =>
    rw [hdtype] at hmap
    cases hmap

/-- A boolean column, read through its own two bitmaps. -/
theorem column_encodes {df : PolarsFrame} {arr : ArrowArray} {name : String} {s : PolarsSeries}
    (hs : df.columns.lookup name = some s) (hdtype : s.dtype = .boolean) (harr : arr.Holds s) :
    Encodes (bitpackedDataAndValid arr df.height) df.height
      (fun row => kleene df row (.column name)) := by
  have hmem := mem_of_lookup hs
  have hheight : s.cells.length = df.height := df.length_eq _ hmem
  refine ⟨length_padTo _ _, length_padTo _ _, fun row hrow => ?_⟩
  obtain ⟨c, hc⟩ : ∃ c, s.cells[row]? = some c := ⟨_, List.getElem?_eq_getElem (hheight ▸ hrow)⟩
  have hvalid : getValid (bitpackedDataAndValid arr df.height).2 row = c.isSome := by
    rw [← harr.getValid hc, hheight]
    rfl
  have hcell : df.cellAt name row = c := by
    rw [PolarsFrame.cellAt, hs, Option.bind_some, hc]
    rfl
  rw [readRow, kleene, hcell]
  change (if getValid _ row = true then some (getValid (padTo _ arr.bytes) row) else none) = _
  rcases c with _ | c
  · exact if_neg (by rw [hvalid]; decide)
  · have htyped := df.typed _ hmem c (List.mem_of_getElem? hc)
    rw [hdtype] at htyped
    cases c with
    | bool b =>
      have hset : getValid (bitpackedDataAndValid arr df.height).2 row = true := hvalid
      rw [if_pos hset, getValid_padTo, harr.boolean hdtype row b hc]
      rfl
    | _ => simp [hasDtype, mapDtype, intRange] at htyped

theorem walkFilter_eq_some {schema : Schema} {e : PredicateExpr} {pred : PredicateAst}
    (h : walkFilter schema e = some pred) :
    walkPredicate schema e = some pred ∧ pred.resultDtype = .bool ∧ pred.isLiteral = false := by
  obtain ⟨pred', hpred, hrest⟩ := Option.bind_eq_some_iff.1 h
  cases pred' with
  | column name dtype =>
    by_cases hbool : dtype = .bool
    · obtain ⟨_, -, hrest⟩ := Option.bind_eq_some_iff.1 hrest
      obtain ⟨_, -, hrest⟩ := Option.bind_eq_some_iff.1 hrest
      obtain rfl := Option.some.inj hrest
      exact ⟨hpred, hbool, rfl⟩
    · simp only [guard, if_neg hbool] at hrest
      cases hrest
  | literalI64 => cases hrest
  | literalF64 => cases hrest
  | literalBool => cases hrest
  | compare =>
    obtain ⟨_, -, hrest⟩ := Option.bind_eq_some_iff.1 hrest
    obtain rfl := Option.some.inj hrest
    exact ⟨hpred, rfl, rfl⟩
  | logical =>
    obtain ⟨_, -, hrest⟩ := Option.bind_eq_some_iff.1 hrest
    obtain rfl := Option.some.inj hrest
    exact ⟨hpred, rfl, rfl⟩

/-! The evaluator. -/

theorem evaluatePredicate_yields {df : PolarsFrame} {e : PredicateExpr} {pred : PredicateAst}
    (hwalk : walkPredicate df.schema e = some pred) (hdtype : pred.resultDtype = .bool)
    (hliteral : pred.isLiteral = false) {sites : Sites}
    (hsites : ∀ path, (sites path).Lawful df.height) :
    Yields (evaluatePredicate df df.height sites pred) df.height (fun row => kleene df row e)
      pred.LiteralsFit := by
  induction e generalizing pred sites with
  | column name =>
    obtain ⟨dtype, rfl, htagged⟩ := walkPredicate_column hwalk
    obtain rfl : dtype = .bool := hdtype
    obtain ⟨s, hs, hboolean⟩ := htagged.boolean
    have htyped := df.typed _ (mem_of_lookup hs)
    have hrun : evaluatePredicate df df.height sites (.column name .bool) =
        .ok (bitpackedDataAndValid ((sites []).materialize s) df.height) := by
      rw [evaluatePredicate, if_neg (fun h => h rfl), PolarsFrame.getColumn, hs]
      rfl
    rw [hrun]
    refine ⟨fun b hb => ?_, fun _ _ => ⟨_, rfl⟩⟩
    obtain rfl := Except.ok.inj hb
    exact column_encodes hs hboolean ((hsites []).materialize s htyped)
  | literal value =>
    cases value with
    | bool b => cases hwalk; cases hliteral
    | date ordinal => cases hwalk; cases hliteral
    | int v => cases hwalk; cases hliteral
    | float bits => cases hwalk; cases hliteral
    | none => cases hwalk
    | other => cases hwalk
  | other => cases hwalk
  | binaryExpr op l r ihl ihr =>
    unfold walkPredicate at hwalk
    cases hlogical : logicalOpName op with
    | some logicalOp =>
      simp only [hlogical, Option.bind_eq_bind, Option.bind_eq_some_iff] at hwalk
      obtain ⟨lhs, hl, rhs, hr, hpred⟩ := hwalk
      obtain ⟨rfl, ⟨hldt, hllit⟩, hrdt, hrlit⟩ := walkLogical_eq_some hpred
      have hlhs : Yields (evaluatePredicate df df.height sites.left lhs) df.height _ _ :=
        ihl hl hldt hllit fun path => hsites (false :: path)
      have hrhs : Yields (evaluatePredicate df df.height sites.right rhs) df.height _ _ :=
        ihr hr hrdt hrlit fun path => hsites (true :: path)
      refine (hlhs.bind hrhs (fun a b ha hb => ?_)).mono
        (fun row _ => (kleene_logical hlogical df row l r).symm) id
      cases logicalOp with
      | and => exact dispatchLogical_yields hsites boolAndThread_eq (fun _ _ _ _ _ _ h => if_pos h) ha hb
      | or => exact dispatchLogical_yields hsites boolOrThread_eq (fun _ _ _ _ _ _ h => if_pos h) ha hb
    | none =>
      cases hcompare : cmpOpName op with
      | none => simp [hlogical, hcompare] at hwalk
      | some cmpOp =>
        simp only [hlogical, hcompare, Option.bind_eq_bind, Option.bind_eq_some_iff] at hwalk
        obtain ⟨lhs, hl, rhs, hr, hpred⟩ := hwalk
        obtain ⟨dtype, rfl, hkernel, hlc, hrc, hld, hrd, hboth⟩ := walkCompare_eq_some hpred
        have h := evaluateCompare_yields hsites cmpOp hkernel hld hrd hboth
          (fun n t ha => tagged_of_walk (ha ▸ hl)) (fun n t ha => tagged_of_walk (ha ▸ hr))
        refine h.mono (fun row _ => ?_) id
        rw [kleene_compare hcompare, astOperand_walk hl hlc, astOperand_walk hr hrc]

/-! The filters. -/

theorem bitAt_beq_one (bytes : List UInt8) (row : ℕ) : (bitAt bytes row == 1) = getValid bytes row := by
  unfold getValid
  rcases bitAt_eq_zero_or_one bytes row with h | h <;> rw [h] <;> rfl

namespace Encodes

variable {b : Buffers} {nRows : ℕ} {value : ℕ → Option Bool}

theorem keptRows_eq (h : Encodes b nRows value) :
    keptRows b.1 b.2 nRows = (List.range nRows).filter (fun row => value row = some true) := by
  refine List.filter_congr fun row hrow => ?_
  rw [← h.row row (List.mem_range.1 hrow), readRow, keepRow]
  cases getValid b.1 row <;> cases getValid b.2 row <;> rfl

theorem filterMask_eq (h : Encodes b nRows value) :
    filterMask b nRows = (List.range nRows).map (fun row => (value row).map Cell.bool) := by
  refine List.map_congr_left fun row hrow => ?_
  have hlt := List.mem_range.1 hrow
  have hvalid : bitAt (b.2.take (minBytes nRows)) row = 1 ↔ getValid b.2 row = true := by
    rw [← getValid_take hlt, ← bitAt_beq_one, beq_iff_eq]
  rw [← h.row row hlt, readRow]
  simp only [hvalid, readCell, bitAt_beq_one, getValid_take hlt]
  cases getValid b.2 row <;> rfl

end Encodes

/-- Evaluating a predicate the walker accepts is Kleene evaluation: whatever Arrow leaves under
nulls and past the end, and whatever order the threads of every kernel run in, the two bitmaps
encode the three-valued value of each row, and both filters keep the rows whose value is true. -/
theorem evaluatePredicate_kleene (df : PolarsFrame) {e : PredicateExpr} {pred : PredicateAst}
    (hwalk : walkFilter df.schema e = some pred) (sites : Sites)
    (hsites : ∀ path, (sites path).Lawful df.height) :
    (∀ b, evaluatePredicate df df.height sites pred = .ok b →
      Encodes b df.height (fun row => kleene df row e) ∧
      keptRows b.1 b.2 df.height =
        (List.range df.height).filter (fun row => kleene df row e = some true) ∧
      filterMask b df.height =
        (List.range df.height).map (fun row => (kleene df row e).map Cell.bool)) ∧
    (df.height < 2 ^ 32 → pred.LiteralsFit →
      ∃ b, evaluatePredicate df df.height sites pred = .ok b) := by
  obtain ⟨hpred, hdtype, hliteral⟩ := walkFilter_eq_some hwalk
  have h := evaluatePredicate_yields hpred hdtype hliteral hsites
  exact ⟨fun b hb => ⟨h.encodes b hb, (h.encodes b hb).keptRows_eq, (h.encodes b hb).filterMask_eq⟩,
    h.returns⟩

/-! Arrays that hold a series. -/

/-- One layout of a series: every bitmap written out, zeros under nulls. -/
def encodeArrow (s : PolarsSeries) : ArrowArray where
  valid := some (packBits (minBytes s.cells.length) (s.cells.map Option.isSome))
  data :=
    if s.dtype = .boolean then
      some (packBits (minBytes s.cells.length) (s.cells.map (· = some (.bool true))))
    else
      some (table 8 (s.cells.map fun
        | some (.int v) => (BitVec.ofInt 64 v).toNat
        | some (.f64 bits) => bits.toNat
        | _ => 0))

theorem getValid_packBits {bits : List Bool} {nRows row : ℕ} {b : Bool} (hlen : bits.length = nRows)
    (hb : bits[row]? = some b) : getValid (packBits (minBytes nRows) bits) row = b := by
  have hle : bits.length ≤ 8 * minBytes nRows := by
    unfold minBytes
    omega
  rw [getValid, bitAt_packBits hle, List.getD_eq_getElem?_getD, hb]
  cases b <;> rfl

theorem slot_table {vs : List ℕ} {row : ℕ} {x : BitVec 64} (hx : vs[row]? = some x.toNat) :
    slot (table 8 vs) row = x := by
  obtain ⟨h, hv⟩ := List.getElem?_eq_some_iff.1 hx
  have hcell := @decode_cell_table 8 vs row h (hv ▸ x.isLt) []
  rw [List.append_nil] at hcell
  rw [slot, hcell, hv]
  exact BitVec.ofNat_toNat _ _

theorem encodeArrow_holds (s : PolarsSeries) : (encodeArrow s).Holds s := by
  have hslots : ∀ vs : List ℕ, vs.length = s.cells.length →
      s.cells.length * 8 ≤ (table 8 vs).length := by
    intro vs hvs
    rw [length_table, hvs]
  refine ⟨fun row c hc => ?_, fun hdtype => ?_, fun hdtype => ?_, fun hdtype row b hc => ?_⟩
  · have hbit : (s.cells.map Option.isSome)[row]? = some c.isSome := by
      rw [List.getElem?_map, hc, Option.map_some]
    exact getValid_packBits (List.length_map _) hbit
  · rw [ArrowArray.bytes, encodeArrow, if_neg (by rw [hdtype]; decide), Option.getD_some]
    refine ⟨hslots _ (List.length_map _), fun row v hc => slot_table ?_⟩
    rw [List.getElem?_map, hc, Option.map_some]
  · rw [ArrowArray.bytes, encodeArrow, if_neg (by rw [hdtype]; decide), Option.getD_some]
    refine ⟨hslots _ (List.length_map _), fun row bits hc => slot_table ?_⟩
    rw [List.getElem?_map, hc, Option.map_some]
  · rw [ArrowArray.bytes, encodeArrow, if_pos hdtype, Option.getD_some]
    refine getValid_packBits (List.length_map _) ?_
    rw [List.getElem?_map, hc, Option.map_some]
    cases b <;> rfl

/-- Three rows; `x` is a narrow integer column with a null. -/
def sampleFrame : PolarsFrame where
  columns := [("x", ⟨.int32, [some (.int 5), none, some (.int 9)]⟩),
    ("b", ⟨.boolean, [some (.bool true), some (.bool true), none]⟩)]
  height := 3
  length_eq := by decide
  typed := by simp [PolarsSeries.Typed, hasDtype, mapDtype, intRange]

/-- `7 < x and b` -/
def samplePredicate : PredicateExpr :=
  .binaryExpr .and (.binaryExpr .lt (.literal (.int 7)) (.column "x")) (.column "b")

def sampleSites : Sites := fun _ => ⟨encodeArrow, [2, 0, 1, 0, 2, 1]⟩

/-- False, null, null: no row is kept. -/
theorem evaluatePredicate_kleene_sample :
    ∃ b, evaluatePredicate sampleFrame 3 sampleSites
        (.logical .and (.compare .lt (.literalI64 7) (.column "x" .i64) .i64) (.column "b" .bool)) =
          .ok b ∧
      filterMask b 3 = (List.range 3).map (fun row => (kleene sampleFrame row samplePredicate).map Cell.bool) := by
  have hwalk : walkFilter sampleFrame.schema samplePredicate = some (.logical .and
      (.compare .lt (.literalI64 7) (.column "x" .i64) .i64) (.column "b" .bool)) := by
    decide +kernel
  have hsites : ∀ path, (sampleSites path).Lawful sampleFrame.height := fun _ =>
    ⟨fun s _ => encodeArrow_holds s, show ∀ gid < 3, 2 ≤ [2, 0, 1, 0, 2, 1].count gid by decide⟩
  obtain ⟨hencodes, hreturns⟩ := evaluatePredicate_kleene sampleFrame hwalk sampleSites hsites
  obtain ⟨b, hb⟩ := hreturns (by decide)
    ⟨⟨⟨by decide, by decide⟩, trivial⟩, trivial⟩
  exact ⟨b, hb, (hencodes b hb).2.2⟩

end PolarsMetal.Filter
