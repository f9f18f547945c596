import PolarsMetal.GroupBy.Dispatch

/-! Float keys. The lanes hold raw bit patterns, while group-by equality on floats
identifies the two zeros and all NaNs. The builds follow that equality exactly
when no two rows with equal keys hold different patterns of one float. -/

namespace PolarsMetal.GroupBy
open Grouping

def isZero64 (bits : BitVec 64) : Bool := bits &&& 0x7fffffffffffffff == 0

def isNan64 (bits : BitVec 64) : Bool :=
  bits &&& 0x7ff0000000000000 == 0x7ff0000000000000 && bits &&& 0x000fffffffffffff != 0

def isZero32 (bits : BitVec 32) : Bool := bits &&& 0x7fffffff == 0

def isNan32 (bits : BitVec 32) : Bool :=
  bits &&& 0x7f800000 == 0x7f800000 && bits &&& 0x007fffff != 0

/-- 0.0 or -0.0. -/
def KeyDtype.isZero : (dtype : KeyDtype) → BitVec dtype.dataBits → Bool
  | .f64, bits => isZero64 bits
  | .f32, bits => isZero32 bits
  | _, _ => false

def KeyDtype.isNan : (dtype : KeyDtype) → BitVec dtype.dataBits → Bool
  | .f64, bits => isNan64 bits
  | .f32, bits => isNan32 bits
  | _, _ => false

/-- Equality of two valid keys under Polars group-by. -/
def KeyDtype.PolarsEq (dtype : KeyDtype) (a b : BitVec dtype.dataBits) : Prop :=
  a = b ∨ (dtype.isZero a = true ∧ dtype.isZero b = true) ∨
    (dtype.isNan a = true ∧ dtype.isNan b = true)

namespace KeyColumn

/-- Both rows null, or both valid with equal keys. -/
def PolarsSameKey (c : KeyColumn) (i j : ℕ) : Prop :=
  (c.isValid i = false ∧ c.isValid j = false) ∨
    (c.isValid i = true ∧ c.isValid j = true ∧ c.dtype.PolarsEq (c.bitsAt i) (c.bitsAt j))

/-- Zeros of different sign, or NaNs with different bits. -/
def TwoPatterns (c : KeyColumn) (i j : ℕ) : Prop :=
  c.isValid i = true ∧ c.isValid j = true ∧ c.bitsAt i ≠ c.bitsAt j ∧
    ((c.dtype.isZero (c.bitsAt i) = true ∧ c.dtype.isZero (c.bitsAt j) = true) ∨
      (c.dtype.isNan (c.bitsAt i) = true ∧ c.dtype.isNan (c.bitsAt j) = true))

theorem SameKey.polars {c : KeyColumn} {i j : ℕ} (h : c.SameKey i j) : c.PolarsSameKey i j := by
  rcases h with hnull | ⟨hi, hj, hbits⟩
  · exact Or.inl hnull
  · exact Or.inr ⟨hi, hj, Or.inl hbits⟩

/-- Equal keys have equal bits, unless the column holds two patterns of one float. -/
theorem PolarsSameKey.sameKey_iff {c : KeyColumn} {i j : ℕ} (h : c.PolarsSameKey i j) :
    c.SameKey i j ↔ ¬ c.TwoPatterns i j := by
  rcases h with ⟨hi, hj⟩ | ⟨hi, hj, heq⟩
  · refine iff_of_true (Or.inl ⟨hi, hj⟩) (fun htwo => ?_)
    rw [htwo.1] at hi
    cases hi
  · refine ⟨?_, fun hnot => ?_⟩
    · rintro (⟨hi', -⟩ | ⟨-, -, hbits⟩) htwo
      · rw [hi] at hi'
        cases hi'
      · exact htwo.2.2.1 hbits
    · by_cases hbits : c.bitsAt i = c.bitsAt j
      · exact Or.inr ⟨hi, hj, hbits⟩
      · exact absurd ⟨hi, hj, hbits, heq.resolve_left hbits⟩ hnot

end KeyColumn

/-- No two rows with equal keys hold a float key in two patterns. -/
def OnePattern (cols : List KeyColumn) (nRows : ℕ) : Prop :=
  ∀ i < nRows, ∀ j < nRows, (∀ c ∈ cols, c.PolarsSameKey i j) → ∀ c ∈ cols, ¬ c.TwoPatterns i j

/-- The encoded keys, grouped by either path: rows share a group exactly on equal bits. -/
theorem dispatchBuild_same_iff {cols : List KeyColumn} {nRows : ℕ} (hcols : Encodable cols nRows)
    (hrows : nRows < 2 ^ 32) :
    ∃ lanes schema, encodeKeys cols = .ok (lanes, schema) ∧ lanes.length = nRows ∧
      ∀ g deviceOk, g.Sound deviceOk lanes →
        ∃ out, dispatchBuild g deviceOk lanes nRows = .ok out ∧ ∀ i < nRows, ∀ j < nRows,
          (out.rowToGroup[i]? = out.rowToGroup[j]? ↔ ∀ c ∈ cols, c.SameKey i j) := by
  set lanes := (List.range nRows).map (encodeRow cols (fieldsFrom 0 cols)) with hlanes
  have hlength : lanes.length = nRows := by simp [hlanes]
  refine ⟨lanes, _, (encodeKeys_eq_ok_iff cols _ _).2 ⟨nRows, hcols, rfl, rfl⟩, hlength,
    fun g deviceOk hrun => ?_⟩
  obtain ⟨out, hout, hgroups⟩ := groups_dispatchBuild (hlength.trans_lt hrows) hrun
  rw [hlength] at hout
  refine ⟨out, hout, fun i hi j hj => ?_⟩
  rw [hgroups.same_iff i j (hlength.symm ▸ hi) (hlength.symm ▸ hj)]
  simp only [hlanes, List.getElem_map, List.getElem_range]
  exact encodeRow_eq_iff hcols.width i j

/-- Rows share a group exactly on equal keys, if and only if no two rows with equal keys hold a
zero in two signs or a NaN in two patterns. -/
theorem float_keys_follow_polars_iff {cols : List KeyColumn} {nRows : ℕ}
    (hcols : Encodable cols nRows) (hrows : nRows < 2 ^ 32) :
    ∃ lanes schema, encodeKeys cols = .ok (lanes, schema) ∧
      ∀ g deviceOk, g.Sound deviceOk lanes →
        ∃ out, dispatchBuild g deviceOk lanes nRows = .ok out ∧
          ((∀ i < nRows, ∀ j < nRows, (out.rowToGroup[i]? = out.rowToGroup[j]? ↔
            ∀ c ∈ cols, c.PolarsSameKey i j)) ↔ OnePattern cols nRows) := by
  obtain ⟨lanes, schema, henc, -, hbuild⟩ := dispatchBuild_same_iff hcols hrows
  refine ⟨lanes, schema, henc, fun g deviceOk hrun => ?_⟩
  obtain ⟨out, hout, hsame⟩ := hbuild g deviceOk hrun
  refine ⟨out, hout, ?_, ?_⟩
  · intro hfollow i hi j hj hequal c hc
    have hbits := (hsame i hi j hj).1 ((hfollow i hi j hj).2 hequal) c hc
    exact (hequal c hc).sameKey_iff.1 hbits
  · intro hone i hi j hj
    rw [hsame i hi j hj]
    refine ⟨fun h c hc => (h c hc).polars, fun hequal c hc => ?_⟩
    exact (hequal c hc).sameKey_iff.2 (hone i hi j hj hequal c hc)

/-- Two key columns of 500000 rows: a float column that holds 1.5 in the first and the third of every
eight rows and is null in the others, and an i8 column. -/
def floatColumns : List KeyColumn :=
  [⟨"x", .f32, (List.replicate a1RowsThreshold [0, 0, 0xc0, 0x3f]).flatten,
      List.replicate 62500 5, a1RowsThreshold, none⟩,
    ⟨"y", .i8, (List.replicate 250000 [1, 2]).flatten, List.replicate 62500 0xFF,
      a1RowsThreshold, none⟩]

theorem length_flatten_replicate {α : Type} (n : ℕ) (xs : List α) :
    (List.replicate n xs).flatten.length = n * xs.length := by
  rw [List.length_flatten, List.map_replicate, List.sum_replicate, smul_eq_mul]

theorem encodable_floatColumns : Encodable floatColumns a1RowsThreshold := by
  refine ⟨List.cons_ne_nil _ _, fun c hc => ?_, by decide⟩
  simp only [floatColumns, List.mem_cons, List.not_mem_nil, or_false] at hc
  rcases hc with rfl | rfl
  · refine ⟨rfl, fun h => (by cases h), ?_, ?_⟩
    · exact (show needData .f32 a1RowsThreshold = a1RowsThreshold * 4 by decide).trans_le
        (length_flatten_replicate a1RowsThreshold [0, 0, 0xc0, 0x3f]).ge
    · exact (List.length_replicate (n := 62500)).ge
  · refine ⟨rfl, fun h => (by cases h), ?_, ?_⟩
    · exact (length_flatten_replicate 250000 [1, 2]).ge
    · exact (List.length_replicate (n := 62500)).ge

/-- A run of the host's own launch, with rows enough for the GPU build. -/
theorem float_keys_follow_polars_iff_sample :
    ∃ lanes schema, encodeKeys floatColumns = .ok (lanes, schema) ∧
      ∃ schedule, (hostLaunch lanes.length schedule).Sound true lanes ∧
        ∃ out, dispatchBuild (hostLaunch lanes.length schedule) true lanes a1RowsThreshold =
            .ok out ∧
          ((∀ i < a1RowsThreshold, ∀ j < a1RowsThreshold,
              (out.rowToGroup[i]? = out.rowToGroup[j]? ↔
                ∀ c ∈ floatColumns, c.PolarsSameKey i j)) ↔
            OnePattern floatColumns a1RowsThreshold) := by
  obtain ⟨lanes, schema, henc, hbuild⟩ :=
    float_keys_follow_polars_iff encodable_floatColumns (by decide)
  obtain ⟨nRows, hcols, rfl, -⟩ := (encodeKeys_eq_ok_iff floatColumns lanes schema).1 henc
  have hrows : nRows = a1RowsThreshold :=
    (hcols.wf _ List.mem_cons_self).rows.symm
  have hlen : ((List.range nRows).map
      (encodeRow floatColumns (fieldsFrom 0 floatColumns))).length = a1RowsThreshold := by
    rw [List.length_map, List.length_range, hrows]
  obtain ⟨schedule, hsound⟩ :=
    exists_sound true (hlen.symm ▸ (show a1RowsThreshold + 256 < 2 ^ 32 by decide))
  exact ⟨_, schema, henc, schedule, hsound, hbuild _ true hsound⟩

/-- The column [0.0, -0.0]. -/
def zeroColumn : KeyColumn :=
  ⟨"x", .f64, List.replicate 15 0 ++ [0x80], [3], 2, none⟩

/-- 0.0 and -0.0 land in different groups. -/
theorem signed_zeros_split :
    ∃ lanes schema, encodeKeys [zeroColumn] = .ok (lanes, schema) ∧
      ∀ g deviceOk, ∃ out, dispatchBuild g deviceOk lanes 2 = .ok out ∧
        zeroColumn.PolarsSameKey 0 1 ∧ out.rowToGroup[0]? ≠ out.rowToGroup[1]? := by
  have hcols : Encodable [zeroColumn] 2 := by
    refine ⟨by decide, fun c hc => ?_, by decide⟩
    rw [List.mem_singleton.1 hc]
    exact ⟨rfl, by decide, by decide, by decide⟩
  obtain ⟨lanes, schema, henc, hlength, hbuild⟩ := dispatchBuild_same_iff hcols (by decide)
  refine ⟨lanes, schema, henc, fun g deviceOk => ?_⟩
  obtain ⟨out, hout, hsame⟩ := hbuild g deviceOk
    (fun hrows => absurd (hlength ▸ hrows) (by decide))
  refine ⟨out, hout, Or.inr ⟨by decide, by decide, Or.inr (Or.inl ⟨by decide, by decide⟩)⟩, ?_⟩
  rw [Ne, hsame 0 (by decide) 1 (by decide)]
  intro hbits
  rcases hbits zeroColumn (by simp) with ⟨hnull, -⟩ | ⟨-, -, heq⟩
  · exact absurd hnull (by decide)
  · exact absurd heq (by decide)

end PolarsMetal.GroupBy
