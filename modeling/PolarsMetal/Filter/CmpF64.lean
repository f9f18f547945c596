import PolarsMetal.Filter.PredicateSpec

/-! The double-precision comparison kernels. They read raw bits and compare integers; what they
write is the comparison of the doubles. -/

namespace PolarsMetal.Filter
open Framing Ieee

/-- The double of a bit pattern, `none` for a NaN of any payload. -/
def double (bits : BitVec 64) : Option Extended := f64.value bits.toNat

/-- What the host checks before it launches a kernel over `nRows` rows. -/
def Sized (b : Buffers) (nRows : ℕ) : Prop := nRows * 8 ≤ b.1.length ∧ minBytes nRows ≤ b.2.length

instance (b : Buffers) (nRows : ℕ) : Decidable (Sized b nRows) := inferInstanceAs (Decidable (_ ∧ _))

/-- A column's doubles, `none` where the row is null. -/
def doubles (b : Buffers) (row : ℕ) : Option (Option Extended) :=
  if getValid b.2 row then some (double (slot b.1 row)) else none

theorem Sized.holdsColumn {b : Buffers} {nRows : ℕ} (h : Sized b nRows) :
    HoldsColumn .f64 b nRows (doubles b) :=
  ⟨h.1, h.2, fun _ _ => rfl⟩

/-- A zero's sign does not show. -/
theorem double_negZero : double (BitVec.intMin 64) = double 0 := by
  have hlow : f64.low (BitVec.intMin 64).toNat = 0 := by decide
  have hlow₀ : f64.low (0 : BitVec 64).toNat = 0 := by decide
  have hle : (0 : ℕ) ≤ f64.top := Nat.zero_le _
  unfold double
  rw [f64.value_eq_signedValue (hlow ▸ hle), f64.value_eq_signedValue (hlow₀ ▸ hle), Format.signed,
    Format.signed, hlow, hlow₀]
  split_ifs <;> rfl

/-- A pattern is a NaN when its exponent is all ones and its mantissa is not zero. -/
theorem double_eq_none_iff (bits : BitVec 64) : double bits = none ↔ f64IsNan bits = true := by
  rw [f64IsNan_iff]
  exact f64.value_eq_none_iff

/-- Each of the six kernels, against a column and against a scalar, marks a row valid when its
operands are, and true when the comparison of the two doubles holds. -/
theorem cmpF64_ieee (op : CompareOp) {nRows : ℕ} (hrows : nRows < 2 ^ 32) {order : List ℕ}
    (horder : ∀ gid < nRows, 2 ≤ order.count gid) {lhs rhs : Buffers} (hlhs : Sized lhs nRows)
    (hrhs : Sized rhs nRows) (scalar : BitVec 64) :
    (∃ out, cmpF64ColCol op order lhs rhs nRows = .ok out ∧
      ∀ row < nRows, readRow out row =
        if getValid lhs.2 row ∧ getValid rhs.2 row then
          some (op.ieee (double (slot lhs.1 row)) (double (slot rhs.1 row)))
        else none) ∧
    ∃ out, cmpF64ColScalar op order lhs scalar nRows = .ok out ∧
      ∀ row < nRows, readRow out row =
        if getValid lhs.2 row then some (op.ieee (double (slot lhs.1 row)) (double scalar))
        else none := by
  have hcol := cmpColCol_yields (f64Op_tag op) horder hlhs.holdsColumn hrhs.holdsColumn
  have hscalar := cmpColScalar_yields (f64Op_tag op) horder hlhs.holdsColumn
    (show tagValue .f64 scalar = double scalar from rfl)
  refine ⟨?_, ?_⟩
  · obtain ⟨out, hout⟩ := hcol.returns hrows trivial
    refine ⟨out, hout, fun row hrow => ?_⟩
    rw [(hcol.encodes out hout).row row hrow, doubles, doubles]
    cases getValid lhs.2 row <;> cases getValid rhs.2 row <;> rfl
  · obtain ⟨out, hout⟩ := hscalar.returns hrows trivial
    refine ⟨out, hout, fun row hrow => ?_⟩
    rw [(hscalar.encodes out hout).row row hrow, doubles]
    cases getValid lhs.2 row <;> rfl

/-- A negative zero equals a zero. -/
theorem cmpF64_ieee_zeros : ∃ out,
    cmpF64ColCol .eq [0, 0] (table 8 [2 ^ 63], [1]) (table 8 [0], [1]) 1 = .ok out ∧
      readRow out 0 = some true := by
  have hsized : Sized (table 8 [2 ^ 63], [1]) 1 ∧ Sized (table 8 [0], [1]) 1 := by decide +kernel
  obtain ⟨⟨out, hout, hrow⟩, -⟩ := @cmpF64_ieee .eq 1 (by decide) [0, 0] (by decide) _ _ hsized.1
    hsized.2 0
  refine ⟨out, hout, ?_⟩
  have hvalid : getValid [1] 0 = true ∧ getValid [1] 0 = true := by decide
  have hlhs : slot (table 8 [2 ^ 63]) 0 = BitVec.intMin 64 := slot_table rfl
  have hrhs : slot (table 8 [0]) 0 = 0 := slot_table rfl
  rw [hrow 0 Nat.one_pos, if_pos hvalid, hlhs, hrhs, double_negZero]
  cases hzero : double 0 with
  | none => exact absurd ((double_eq_none_iff 0).1 hzero) (by decide)
  | some v => exact congrArg some (decide_eq_true rfl)

end PolarsMetal.Filter
