import PolarsMetal.Wire.Columns
import PolarsMetal.Lib.Fallible

/-! A group-by result across the wire. A column that travels whole is read back cell by cell; a
whole result comes back when its names differ, Python knows every tag, the counts fit in 32 bits
and some column tells the row count. -/

namespace PolarsMetal.Wire
open GroupBy Framing Bitmap Fallible

/-! What a result holds. -/

def cellOf : (dtype : KeyDtype) → dtype.Val → Cell
  | .i64, v => .int (v : Int64).toInt
  | .f64, v => .f64 v
  | .bool, v => .bool v
  | .i32, v => .int (v : Int32).toInt
  | .f32, v => .f32 v
  | .i8, v => .int (v : Int8).toInt
  | .i16, v => .int (v : Int16).toInt
  | .u8, v => .int (v : UInt8).toNat
  | .u16, v => .int (v : UInt16).toNat
  | .u32, v => .int (v : UInt32).toNat
  | .utf8, v => .str (utf8Bytes v)

def zipCells {α : Type} (f : α → Cell) (values : List α) (valid : List Bool) : List (Option Cell) :=
  (values.zip valid).map (fun (v, ok) => if ok then some (f v) else none)

def keyCells (d : DecodedColumn) : List (Option Cell) := zipCells (cellOf d.dtype) d.values d.valid

def aggCells : AggOutput → List (Option Cell)
  | .i64 values valid => zipCells (fun v => .int v.toInt) values valid
  | .f64 values valid => zipCells .f64 values valid
  | .u64 values => values.map (fun (v : ℕ) => some (.int (v : ℤ)))
  | .i32 values valid => zipCells (fun v => .int v.toInt) values valid
  | .f32 values valid => zipCells .f32 values valid

/-- The bytes of the strings a row holds; none under a null. -/
def chunks (values : List String) (valid : List Bool) : List (List UInt8) :=
  (values.zip valid).map (fun (v, ok) => if ok then utf8Bytes v else [])

def textBytes : (dtype : KeyDtype) → List dtype.Val → List Bool → ℕ
  | .utf8, values, valid => (chunks values valid).flatten.length
  | _, _, _ => 0

def AggRows (nGroups : ℕ) : AggOutput → Prop
  | .i64 values valid | .f64 values valid | .i32 values valid | .f32 values valid =>
    values.length = nGroups ∧ valid.length = nGroups
  | .u64 values => values.length = nGroups

namespace GroupByOutput

/-- Each column with what it should arrive as. -/
def columns (r : GroupByOutput) : List (WireColumn × Series) :=
  r.keys.map (fun p => (encodeDecodedColumn p.1 p.2, ⟨p.1, keyCells p.2⟩)) ++
    r.aggs.map (fun p => (encodeAggOutput p.1 p.2, ⟨p.1, aggCells p.2⟩))

/-- The result as a frame. -/
def frame (r : GroupByOutput) : List Series :=
  r.keys.map (fun p => ⟨p.1, keyCells p.2⟩) ++ r.aggs.map (fun p => ⟨p.1, aggCells p.2⟩)

/-- What a group-by leaves: some column, and a value and a flag per group in every column. A string
key's bytes and rows are some of those that arrived under 32-bit offsets and a 32-bit row count. -/
structure Wf (r : GroupByOutput) (nGroups : ℕ) : Prop where
  someColumn : r.keys ≠ [] ∨ r.aggs ≠ []
  keyRows : ∀ p ∈ r.keys, p.2.values.length = nGroups ∧ p.2.valid.length = nGroups
  aggRows : ∀ p ∈ r.aggs, AggRows nGroups p.2
  strings : ∀ p ∈ r.keys, p.2.dtype = .utf8 →
    nGroups < 2 ^ 32 ∧ textBytes p.2.dtype p.2.values p.2.valid < 2 ^ 31

/-- No duplicate name, no narrow key, no count past 32 bits, and a row count that can be told. -/
structure Transportable (r : GroupByOutput) (nGroups : ℕ) : Prop where
  names : (r.keys.map Prod.fst ++ r.aggs.map Prod.fst).Nodup
  tags : ∀ p ∈ r.keys, tagToPa p.2.dtype ≠ none
  counts : ∀ p ∈ r.aggs, ∀ values, p.2 = .u64 values → ∀ v ∈ values, v < 2 ^ 32
  rows : (∃ p ∈ r.keys, p.2.dtype ≠ .bool) ∨ r.aggs ≠ [] ∨ 0 < nGroups ∧ 32 ∣ nGroups

end GroupByOutput

/-! Bitmaps. -/

theorem length_packValidBitmap (bits : List Bool) :
    (packValidBitmap bits).length = validBytes bits.length := length_packBits _ _

theorem bitAt_packValidBitmap (bits : List Bool) (i : ℕ) :
    bitAt (packValidBitmap bits) i = if bits.getD i false then 1 else 0 := by
  refine bitAt_packBits ?_ i
  unfold validBytes
  omega

/-- Reading a packed column back: row `i` is its value where its flag is set. -/
theorem fromBuffers_pack {α : Type} {f : α → Cell} {values : List α} {flags : List Bool} {n : ℕ}
    (hv : values.length = n) (hf : flags.length = n) {read : ℕ → Cell}
    (hread : ∀ i (h : i < n), flags.getD i false = true → read i = f (values[i])) :
    fromBuffers n ((packValidBitmap flags).take ((n + 7) / 8)) read = zipCells f values flags := by
  apply List.ext_getElem
  · simp [fromBuffers, zipCells, hv, hf]
  · intro i hi _
    have hin : i < n := by simpa [fromBuffers] using hi
    have hflag : flags.getD i false = flags[i] := by
      rw [List.getD_eq_getElem?_getD, List.getElem?_eq_getElem (by omega), Option.getD_some]
    simp only [fromBuffers, zipCells, List.getElem_map, List.getElem_range, List.getElem_zip]
    rw [bitAt_take hin, bitAt_packValidBitmap, hflag]
    cases hb : flags[i] with
    | true => simp only [if_true, hread i hin (hflag.trans hb)]
    | false => simp

/-! Dense columns. -/

theorem decode_dense {size n i : ℕ} {vs : List ℕ} (hlen : vs.length = n) (hi : i < n)
    (hv : vs[i] < 256 ^ size) : decode (cell size ((table size vs).take (n * size)) i) = vs[i] := by
  rw [cell_take hi, ← List.append_nil (table size vs), decode_cell_table (by omega) hv]

theorem assembleSeries_dense {α : Type} {f : α → Cell} {toNat : α → ℕ} (tag : DtypeTag)
    (paType : PaType) (size : ℕ) {n : ℕ} (name : String) {values : List α} {flags : List Bool}
    (hv : values.length = n) (hf : flags.length = n) (hutf8 : tag ≠ .utf8)
    (htag : tagToPa tag = some paType) (htrim : ∀ data, trimData tag n data = data.take (n * size))
    (hsize : ∀ v, toNat v < 256 ^ size)
    (hcell : ∀ data i v, decode (cell size data i) = toNat v → readCell paType data i = f v) :
    assembleSeries ⟨name, tag, table size (values.map toNat), packValidBitmap flags⟩ n =
      .ok ⟨name, zipCells f values flags⟩ := by
  unfold assembleSeries
  simp only [hutf8, htag, if_false, htrim]
  have hread : ∀ i (h : i < n), flags.getD i false = true →
      readCell paType ((table size (values.map toNat)).take (n * size)) i = f (values[i]) := by
    intro i hi _
    apply hcell
    rw [decode_dense (by simpa using hv) hi (by simpa using hsize _), List.getElem_map]
  by_cases hn : n = 0
  · rw [if_pos hn, List.eq_nil_of_length_eq_zero (hv.trans hn)]
    rfl
  · rw [if_neg hn, fromBuffers_pack hv hf hread]

theorem assembleSeries_bool {n : ℕ} (name : String) {values flags : List Bool}
    (hv : values.length = n) (hf : flags.length = n) :
    assembleSeries ⟨name, .bool, packValidBitmap values, packValidBitmap flags⟩ n =
      .ok ⟨name, zipCells Cell.bool values flags⟩ := by
  unfold assembleSeries
  simp only [tagToPa, trimData, reduceCtorEq, if_false]
  have hread : ∀ i (h : i < n), flags.getD i false = true →
      readCell .bool ((packValidBitmap values).take ((n + 7) / 8)) i = .bool (values[i]) := by
    intro i hi _
    have hget : values.getD i false = values[i] := by
      rw [List.getD_eq_getElem?_getD, List.getElem?_eq_getElem (by omega), Option.getD_some]
    rw [readCell, bitAt_take hi, bitAt_packValidBitmap, hget]
    cases values[i] <;> rfl
  by_cases hn : n = 0
  · rw [if_pos hn, List.eq_nil_of_length_eq_zero (hv.trans hn)]
    rfl
  · rw [if_neg hn, fromBuffers_pack hv hf hread]

/-! Strings. -/

theorem asI32_eq {n : ℕ} (h : n < 2 ^ 31) : asI32 n = n := by
  rw [asI32, BitVec.toInt_ofNat', Int.bmod_eq_of_le] <;> omega

theorem i32Cell_eq {n : ℕ} (h : n < 2 ^ 31) : i32Cell n = n := by
  rw [i32Cell, BitVec.toNat_ofInt]
  omega

theorem saturatingAdd_eq {a b : ℕ} (h : a + b < 2 ^ 31) : saturatingAdd a b = ↑(a + b) := by
  unfold saturatingAdd
  omega

theorem readOffset_eq {offsets : List UInt8} {i s : ℕ} (hs : s < 2 ^ 31)
    (h : decode (cell 4 offsets i) = s) : readOffset offsets i = s := by
  rw [readOffset, h]
  exact asI32_eq hs

theorem starts_eq_cons (start : ℕ) (cs : List (List UInt8)) :
    starts start cs = start :: (starts start cs).tail := by
  cases cs <;> rfl

theorem foldl_utf8Step {rows : List (String × Bool)} {cs : List (List UInt8)} {acc : ℕ}
    (hcs : cs = rows.map (fun (v, ok) => if ok then utf8Bytes v else []))
    (hacc : acc + cs.flatten.length < 2 ^ 31) (offsets : List ℤ) (blob : List UInt8) :
    rows.foldl utf8Step ⟨offsets, acc, blob⟩ =
      ⟨offsets ++ (starts acc cs).tail.map Int.ofNat, ↑(acc + cs.flatten.length),
        blob ++ cs.flatten⟩ := by
  induction rows generalizing cs acc offsets blob with
  | nil =>
    subst hcs
    simp [starts]
  | cons row rows ih =>
    obtain ⟨v, ok⟩ := row
    subst hcs
    set c := if ok then utf8Bytes v else [] with hc
    set rest := rows.map (fun (v, ok) => if ok then utf8Bytes v else []) with hrest
    have hlen : ((c :: rest).flatten).length = c.length + rest.flatten.length := by
      rw [List.flatten_cons, List.length_append]
    have hmap : (((v, ok) :: rows).map (fun (v, ok) => if ok then utf8Bytes v else [])) = c :: rest :=
      List.map_cons
    rw [hmap] at hacc ⊢
    have hstep : utf8Step ⟨offsets, acc, blob⟩ (v, ok) =
        ⟨offsets ++ [((acc + c.length : ℕ) : ℤ)], ↑(acc + c.length), blob ++ c⟩ := by
      unfold utf8Step
      cases ok with
      | true =>
        have hcv : c = utf8Bytes v := by rw [hc, if_pos rfl]
        have hadd : saturatingAdd (acc : ℤ) (asI32 (utf8Bytes v).length) = ↑(acc + c.length) := by
          rw [← hcv, asI32_eq (by omega)]
          exact saturatingAdd_eq (by omega)
        simp only [if_true, hadd, hcv]
      | false => simp [hc]
    rw [List.foldl_cons, hstep, ih rfl (by omega)]
    rw [starts, List.tail_cons, starts_eq_cons (acc + c.length) rest, List.map_cons, List.tail_cons,
      List.append_assoc, List.append_assoc, hlen, ← Nat.add_assoc, List.flatten_cons]
    rfl

theorem encodeUtf8_eq {values : List String} {valid : List Bool}
    (h : (chunks values valid).flatten.length < 2 ^ 31) :
    encodeUtf8 values valid = encode 4 values.length ++ table 4 (starts 0 (chunks values valid)) ++
      (chunks values valid).flatten := by
  have hrun := @foldl_utf8Step (values.zip valid) (chunks values valid) 0 rfl (by omega) [0] []
  rw [Nat.cast_zero] at hrun
  have hoffsets : (([0] : List ℤ) ++
      (starts 0 (chunks values valid)).tail.map Int.ofNat).map i32Cell =
        starts 0 (chunks values valid) := by
    have hcons : ([0] : List ℤ) ++ (starts 0 (chunks values valid)).tail.map Int.ofNat =
        (starts 0 (chunks values valid)).map Int.ofNat := by
      conv_rhs => rw [starts_eq_cons]
      rfl
    rw [hcons, List.map_map]
    refine (List.map_congr_left (fun s hs => ?_)).trans (List.map_id _)
    exact i32Cell_eq (by have := le_of_mem_starts hs; omega)
  unfold encodeUtf8
  rw [hrun]
  simp only [hoffsets, List.nil_append]

/-! The three parts of a packed payload. -/

section Packed

variable {n k : ℕ} {offsets bytes : List UInt8}

theorem packed_header (hn : n < 2 ^ 32) :
    decode ((encode 4 n ++ offsets ++ bytes).take 4) = n := by
  rw [List.append_assoc, List.take_left' (length_encode 4 n), decode_encode (by omega)]

theorem packed_offsets (hk : offsets.length = k) :
    ((encode 4 n ++ offsets ++ bytes).take (4 + k)).drop 4 = offsets := by
  have hlen : (encode 4 n ++ offsets).length = 4 + k := by
    rw [List.length_append, length_encode, hk]
  rw [List.take_left' hlen, List.drop_left' (length_encode 4 n)]

theorem packed_bytes (hk : offsets.length = k) :
    (encode 4 n ++ offsets ++ bytes).drop (4 + k) = bytes := by
  have hlen : (encode 4 n ++ offsets).length = 4 + k := by
    rw [List.length_append, length_encode, hk]
  rw [List.drop_left' hlen]

theorem length_packed (hk : offsets.length = k) :
    (encode 4 n ++ offsets ++ bytes).length = 4 + k + bytes.length := by
  rw [List.length_append, List.length_append, length_encode, hk]

end Packed

theorem readOffset_starts {cs : List (List UInt8)} (h : cs.flatten.length < 2 ^ 31) {i : ℕ}
    (hi : i ≤ cs.length) (rest : List UInt8) :
    readOffset (table 4 (starts 0 cs) ++ rest) i = (cs.take i).flatten.length := by
  have hlen : i < (starts 0 cs).length := by
    rw [length_starts]
    omega
  have hget : (starts 0 cs)[i] = (cs.take i).flatten.length := by
    have := getElem?_starts hi 0
    rw [List.getElem?_eq_getElem hlen, Nat.zero_add] at this
    exact Option.some.inj this
  have hle := length_take_flatten_le cs i
  refine readOffset_eq (by omega) ?_
  rw [decode_cell_table hlen (by omega), hget]

theorem readString_starts {cs : List (List UInt8)} (h : cs.flatten.length < 2 ^ 31) {i : ℕ}
    (hi : i < cs.length) : readString (table 4 (starts 0 cs)) cs.flatten i = .str cs[i] := by
  have hs := readOffset_starts h (i := i) (by omega) []
  have he := readOffset_starts h (i := i + 1) (by omega) []
  rw [List.append_nil] at hs he
  have hslice := slice_flatten hi []
  rw [List.append_nil] at hslice
  have hwidth : (((cs.take (i + 1)).flatten.length : ℤ) - (cs.take i).flatten.length).toNat =
      (cs.take (i + 1)).flatten.length - (cs.take i).flatten.length := by omega
  unfold readString
  simp only [hs, he, Int.toNat_natCast, hwidth, hslice]

theorem assembleSeries_utf8 {n : ℕ} (name : String) {values : List String} {flags : List Bool}
    (hv : values.length = n) (hf : flags.length = n) (hn : n < 2 ^ 32)
    (htext : (chunks values flags).flatten.length < 2 ^ 31) :
    assembleSeries ⟨name, .utf8, encodeUtf8 values flags, packValidBitmap flags⟩ n =
      .ok ⟨name, zipCells (fun v => .str (utf8Bytes v)) values flags⟩ := by
  have hcount : (chunks values flags).length = n := by simp [chunks, hv, hf]
  have htable : (table 4 (starts 0 (chunks values flags))).length = (n + 1) * 4 := by
    rw [length_table, length_starts, hcount]
  have hlen : (encode 4 n ++ table 4 (starts 0 (chunks values flags)) ++
      (chunks values flags).flatten).length =
        4 + (n + 1) * 4 + (chunks values flags).flatten.length := length_packed htable
  have hread : ∀ i (h : i < n), flags.getD i false = true →
      readString (table 4 (starts 0 (chunks values flags))) (chunks values flags).flatten i =
        .str (utf8Bytes (values[i])) := by
    intro i hi hflag
    rw [readString_starts htext (by omega)]
    rw [List.getD_eq_getElem?_getD, List.getElem?_eq_getElem (by omega), Option.getD_some] at hflag
    simp [chunks, hflag]
  unfold assembleSeries assembleUtf8
  simp only [if_true]
  rw [encodeUtf8_eq htext, hv, if_neg (by omega), packed_header hn]
  simp only [ne_eq, not_true_eq_false, if_false]
  rw [if_neg (by omega), packed_offsets htable, packed_bytes htable]
  by_cases h0 : n = 0
  · rw [if_pos h0, List.eq_nil_of_length_eq_zero (hv.trans h0)]
    rfl
  · rw [if_neg h0, fromBuffers_pack (f := fun v => Cell.str (utf8Bytes v)) hv hf hread]

/-! One column. -/

/-- Every key dtype Python has a type for comes back. -/
theorem assembleSeries_key {n : ℕ} (name : String) {d : DecodedColumn}
    (hrows : d.values.length = n ∧ d.valid.length = n)
    (hstrings : d.dtype = .utf8 → n < 2 ^ 32 ∧ textBytes d.dtype d.values d.valid < 2 ^ 31)
    (htag : tagToPa d.dtype ≠ none) :
    assembleSeries (encodeDecodedColumn name d) n = .ok ⟨name, keyCells d⟩ := by
  obtain ⟨dtype, values, flags⟩ := d
  obtain ⟨hv, hf⟩ := hrows
  simp only at hv hf hstrings htag
  cases dtype with
  | i64 =>
    refine assembleSeries_dense .i64 .int64 8 name hv hf nofun rfl
      (fun _ => rfl) (fun v => v.toBitVec.isLt) (fun data i v h => ?_)
    rw [readCell, h, BitVec.ofNat_toNat, BitVec.setWidth_eq]
    rfl
  | f64 =>
    refine assembleSeries_dense .f64 .float64 8 name hv hf nofun rfl
      (fun _ => rfl) (fun v => v.isLt) (fun data i v h => ?_)
    rw [readCell, h, BitVec.ofNat_toNat, BitVec.setWidth_eq]
    rfl
  | bool => exact assembleSeries_bool name hv hf
  | i32 =>
    refine assembleSeries_dense .i32 .int32 4 name hv hf nofun rfl
      (fun _ => rfl) (fun v => v.toBitVec.isLt) (fun data i v h => ?_)
    rw [readCell, h, BitVec.ofNat_toNat, BitVec.setWidth_eq]
    rfl
  | f32 =>
    refine assembleSeries_dense .f32 .float32 4 name hv hf nofun rfl
      (fun _ => rfl) (fun v => v.isLt) (fun data i v h => ?_)
    rw [readCell, h, BitVec.ofNat_toNat, BitVec.setWidth_eq]
    rfl
  | u32 =>
    refine assembleSeries_dense .u32 .uint32 4 name hv hf nofun rfl
      (fun _ => rfl) (fun v => v.toBitVec.isLt) (fun data i v h => ?_)
    rw [readCell, h]
    rfl
  | utf8 =>
    obtain ⟨hn, htext⟩ := hstrings rfl
    exact assembleSeries_utf8 name hv hf hn htext
  | i8 | i16 | u8 | u16 => exact absurd rfl htag

theorem assembleSeries_narrow (name : String) {d : DecodedColumn} (htag : tagToPa d.dtype = none)
    (n : ℕ) : assembleSeries (encodeDecodedColumn name d) n = .error (.keyError d.dtype) := by
  obtain ⟨dtype, values, flags⟩ := d
  cases dtype <;> first | rfl | cases htag

/-- A count's cell holds the count's low 32 bits. -/
theorem assembleSeries_counts {n : ℕ} (name : String) {values : List ℕ} (hv : values.length = n) :
    assembleSeries (encodeAggOutput name (.u64 values)) n =
      .ok ⟨name, values.map (fun v => some (.int ((v % 2 ^ 32 : ℕ) : ℤ)))⟩ := by
  unfold assembleSeries
  simp only [encodeAggOutput, tagToPa, trimData, reduceCtorEq, if_false]
  by_cases hn : n = 0
  · obtain rfl := List.eq_nil_of_length_eq_zero (hv.trans hn)
    rw [if_pos hn]
    rfl
  · rw [if_neg hn]
    refine congrArg (fun cells => Except.ok (Series.mk name cells)) ?_
    apply List.ext_getElem
    · simp [fromBuffers, hv]
    · intro i hi _
      have hin : i < n := by simpa [fromBuffers] using hi
      have hbyte : i / 8 < validBytes values.length := by
        unfold validBytes
        omega
      have hbit : bitAt (List.replicate (validBytes values.length) 0xFF) i = 1 := by
        have hget : (List.replicate (validBytes values.length) (0xFF : UInt8)).getD (i / 8) 0 =
            0xFF := by
          rw [List.getD_eq_getElem?_getD, List.getElem?_replicate, if_pos hbyte]
          rfl
        have hall : ∀ j < 8, (0xFF : UInt8).toBitVec.getLsbD j = true := by decide
        rw [bitAt_eq, hget, if_pos (hall _ (Nat.mod_lt i (by decide)))]
      simp only [fromBuffers, List.getElem_map, List.getElem_range]
      rw [bitAt_take hin, hbit, if_pos rfl, readCell,
        decode_dense (by simpa using hv) hin (by simp; omega), List.getElem_map]

theorem assembleSeries_agg {n : ℕ} (name : String) {o : AggOutput} (hrows : AggRows n o) :
    assembleSeries (encodeAggOutput name o) n = .ok ⟨name, aggCells o⟩ ↔
      ∀ values, o = .u64 values → ∀ v ∈ values, v < 2 ^ 32 := by
  cases o with
  | u64 values =>
    rw [assembleSeries_counts name hrows]
    simp only [Except.ok.injEq, Series.mk.injEq, true_and, aggCells, List.map_inj_left,
      Option.some.injEq, Cell.int.injEq, Nat.cast_inj, AggOutput.u64.injEq]
    refine ⟨?_, fun h v hv => Nat.mod_eq_of_lt (h values rfl v hv)⟩
    intro h values' hvalues v hv
    subst hvalues
    have := h v hv
    omega
  | i64 values valid =>
    refine ⟨fun _ _ h => (nomatch h), fun _ => ?_⟩
    refine assembleSeries_dense (f := fun v : BitVec 64 => Cell.int v.toInt) .i64 .int64 8 name hrows.1 hrows.2
      nofun rfl (fun _ => rfl) (fun v => v.isLt) (fun data i v h => ?_)
    rw [readCell, h, BitVec.ofNat_toNat, BitVec.setWidth_eq]
  | f64 values valid =>
    refine ⟨fun _ _ h => (nomatch h), fun _ => ?_⟩
    refine assembleSeries_dense .f64 .float64 8 name hrows.1 hrows.2
      nofun rfl (fun _ => rfl) (fun v => v.isLt) (fun data i v h => ?_)
    rw [readCell, h, BitVec.ofNat_toNat, BitVec.setWidth_eq]
  | i32 values valid =>
    refine ⟨fun _ _ h => (nomatch h), fun _ => ?_⟩
    refine assembleSeries_dense (f := fun v : Word => Cell.int v.toInt) .i32 .int32 4 name hrows.1 hrows.2
      nofun rfl (fun _ => rfl) (fun v => v.isLt) (fun data i v h => ?_)
    rw [readCell, h, BitVec.ofNat_toNat, BitVec.setWidth_eq]
  | f32 values valid =>
    refine ⟨fun _ _ h => (nomatch h), fun _ => ?_⟩
    refine assembleSeries_dense .f32 .float32 4 name hrows.1 hrows.2
      nofun rfl (fun _ => rfl) (fun v => v.isLt) (fun data i v h => ?_)
    rw [readCell, h, BitVec.ofNat_toNat, BitVec.setWidth_eq]

/-! The row count. -/

/-- The dtypes from which Python infers the row count. -/
def fixesRows : DtypeTag → Bool
  | .u32 | .i32 | .f32 | .i64 | .f64 | .utf8 => true
  | _ => false

/-- The column's length says `n` rows, if its dtype lets it. -/
def Counts (n : ℕ) (c : WireColumn) : Prop :=
  match c.tag with
  | .u32 | .i32 | .f32 => c.data.length / 4 = n
  | .i64 | .f64 => c.data.length / 8 = n
  | .utf8 => 4 ≤ c.data.length ∧ decode (c.data.take 4) = n
  | _ => True

theorem inferRows_eq {n : ℕ} {columns : List WireColumn} (h : ∀ c ∈ columns, Counts n c) :
    inferRows columns =
      .ok (if columns.any (fun c => fixesRows c.tag) then some n else none) := by
  induction columns with
  | nil => rfl
  | cons c columns ih =>
    obtain ⟨hc, hrest⟩ := List.forall_mem_cons.1 h
    obtain ⟨name, tag, data, valid⟩ := c
    cases tag with
    | i64 | f64 | u32 | i32 | f32 =>
      unfold Counts at hc
      simp only at hc
      simp [inferRows, fixesRows, hc]
    | utf8 =>
      unfold Counts at hc
      simp only at hc
      simp [inferRows, fixesRows, hc.2, Nat.not_lt.2 hc.1]
    | bool | i8 | i16 | u8 | u16 => simpa [inferRows, fixesRows] using ih hrest

theorem header_encodeUtf8 {n : ℕ} {values : List String} {flags : List Bool}
    (hv : values.length = n) (hn : n < 2 ^ 32)
    (htext : (chunks values flags).flatten.length < 2 ^ 31) :
    4 ≤ (encodeUtf8 values flags).length ∧ decode ((encodeUtf8 values flags).take 4) = n := by
  rw [encodeUtf8_eq htext, hv]
  refine ⟨?_, packed_header hn⟩
  rw [length_packed rfl]
  omega

theorem counts_key {n : ℕ} (name : String) {d : DecodedColumn}
    (hrows : d.values.length = n ∧ d.valid.length = n)
    (hstrings : d.dtype = .utf8 → n < 2 ^ 32 ∧ textBytes d.dtype d.values d.valid < 2 ^ 31) :
    Counts n (encodeDecodedColumn name d) := by
  obtain ⟨dtype, values, flags⟩ := d
  obtain ⟨hv, hf⟩ := hrows
  simp only at hv hf hstrings
  have hdense : ∀ {α : Type} (size : ℕ) (f : α → ℕ) (vs : List α), 0 < size → vs.length = n →
      (table size (vs.map f)).length / size = n := by
    intro α size f vs hsize hlen
    rw [length_table, List.length_map, hlen, Nat.mul_div_cancel _ hsize]
  cases dtype with
  | i64 | f64 => exact hdense 8 _ values (by decide) hv
  | u32 | i32 | f32 => exact hdense 4 _ values (by decide) hv
  | utf8 =>
    obtain ⟨hn, htext⟩ := hstrings rfl
    exact header_encodeUtf8 hv hn htext
  | bool | i8 | i16 | u8 | u16 => trivial

theorem counts_agg {n : ℕ} (name : String) {o : AggOutput} (hrows : AggRows n o) :
    Counts n (encodeAggOutput name o) ∧ fixesRows (encodeAggOutput name o).tag = true := by
  cases o with
  | i64 values valid | f64 values valid =>
    refine ⟨?_, rfl⟩
    change (table 8 _).length / 8 = n
    rw [length_table, List.length_map, hrows.1, Nat.mul_div_cancel _ (by decide)]
  | i32 values valid | f32 values valid =>
    refine ⟨?_, rfl⟩
    change (table 4 _).length / 4 = n
    rw [length_table, List.length_map, hrows.1, Nat.mul_div_cancel _ (by decide)]
  | u64 values =>
    refine ⟨?_, rfl⟩
    change (table 4 _).length / 4 = n
    rw [length_table, List.length_map, hrows, Nat.mul_div_cancel _ (by decide)]

/-! The whole result. -/

theorem mapM_pairs_iff {ε α β : Type} {f : α → Except ε β} {ps : List (α × β)} :
    (ps.map Prod.fst).mapM f = .ok (ps.map Prod.snd) ↔ ∀ p ∈ ps, f p.1 = .ok p.2 := by
  refine ⟨fun h => ?_, fun h => ?_⟩
  · have hall := forall₂_of_mapM h
    rw [List.forall₂_map_left_iff, List.forall₂_map_right_iff, List.forall₂_same] at hall
    exact hall
  · induction ps with
    | nil => rfl
    | cons p ps ih =>
      obtain ⟨hp, hps⟩ := List.forall_mem_cons.1 h
      rw [List.map_cons, List.mapM_cons, hp, ih hps]
      rfl

theorem frameOf_eq_ok {series out : List Series} :
    frameOf series = .ok out ↔ (series.map Series.name).Nodup ∧ series = out := by
  unfold frameOf
  rw [List.nodup_iff_count_le_one]
  rcases hfind : (series.map Series.name).find?
      (fun name => 1 < (series.map Series.name).count name) with _ | name
  · rw [List.find?_eq_none] at hfind
    simp only [Except.ok.injEq]
    refine ⟨fun h => ⟨fun name => ?_, h⟩, fun h => h.2⟩
    by_cases hname : name ∈ series.map Series.name
    · simpa using hfind name hname
    · rw [List.count_eq_zero.2 hname]
      exact Nat.zero_le 1
  · have hmany := List.find?_some hfind
    simp only [reduceCtorEq, false_iff, not_and]
    intro hone
    exact absurd (hone name) (by simpa using hmany)

theorem length_fromBuffers (nOut : ℕ) (valid : List UInt8) (read : ℕ → Cell) :
    (fromBuffers nOut valid read).length = nOut := by
  simp [fromBuffers]

theorem length_of_assembleUtf8 {c : WireColumn} {nOut : ℕ} {s : Series}
    (h : assembleUtf8 c nOut = .ok s) : s.cells.length = nOut := by
  unfold assembleUtf8 at h
  simp only at h
  split at h
  · cases h
  split at h
  · cases h
  split at h
  · cases h
  split at h
  · cases h
    exact (‹nOut = 0›).symm
  · cases h
    exact length_fromBuffers _ _ _

theorem length_of_assembleSeries {c : WireColumn} {nOut : ℕ} {s : Series}
    (h : assembleSeries c nOut = .ok s) : s.cells.length = nOut := by
  unfold assembleSeries at h
  simp only at h
  split at h
  · exact length_of_assembleUtf8 h
  split at h
  · cases h
  split at h
  · cases h
    exact (‹nOut = 0›).symm
  · cases h
    exact length_fromBuffers _ _ _

theorem validBytes_mul_eq_iff (n : ℕ) : validBytes n * 8 = n ↔ 0 < n ∧ 32 ∣ n := by
  unfold validBytes
  omega

namespace GroupByOutput

variable {r : GroupByOutput} {n : ℕ}

theorem encode_eq (r : GroupByOutput) : r.encode = r.columns.map Prod.fst := by
  simp [encode, columns, List.map_map, Function.comp_def]

theorem frame_eq (r : GroupByOutput) : r.frame = r.columns.map Prod.snd := by
  simp [frame, columns, List.map_map, Function.comp_def]

theorem frame_names (r : GroupByOutput) :
    r.frame.map Series.name = r.keys.map Prod.fst ++ r.aggs.map Prod.fst := by
  simp [frame, List.map_map, Function.comp_def]

/-- Some column of the result tells the row count. -/
def TellsRows (r : GroupByOutput) : Prop :=
  (∃ p ∈ r.keys, fixesRows p.2.dtype = true) ∨ r.aggs ≠ []

theorem Wf.counts (hr : r.Wf n) : ∀ c ∈ r.encode, Counts n c := by
  intro c hc
  rcases List.mem_append.1 hc with hc | hc
  · obtain ⟨p, hp, rfl⟩ := List.mem_map.1 hc
    exact counts_key p.1 (hr.keyRows p hp) (hr.strings p hp)
  · obtain ⟨p, hp, rfl⟩ := List.mem_map.1 hc
    exact (counts_agg p.1 (hr.aggRows p hp)).1

theorem Wf.tellsRows_iff (hr : r.Wf n) :
    r.encode.any (fun c => fixesRows c.tag) = true ↔ r.TellsRows := by
  rw [List.any_eq_true]
  refine ⟨?_, ?_⟩
  · intro ⟨c, hc, hfix⟩
    rcases List.mem_append.1 hc with hc | hc
    · obtain ⟨p, hp, rfl⟩ := List.mem_map.1 hc
      exact Or.inl ⟨p, hp, hfix⟩
    · obtain ⟨p, hp, rfl⟩ := List.mem_map.1 hc
      exact Or.inr (List.ne_nil_of_mem hp)
  · intro htells
    rcases htells with ⟨p, hp, hfix⟩ | hne
    · exact ⟨_, List.mem_append_left _ (List.mem_map_of_mem hp), hfix⟩
    · obtain ⟨p, aggs, haggs⟩ := List.exists_cons_of_ne_nil hne
      have hp : p ∈ r.aggs := haggs ▸ List.mem_cons_self
      exact ⟨_, List.mem_append_right _ (List.mem_map_of_mem hp),
        (counts_agg p.1 (hr.aggRows p hp)).2⟩

theorem Wf.keyed (hr : r.Wf n) (hany : ¬ r.TellsRows) : r.keys ≠ [] :=
  hr.someColumn.resolve_right (fun haggs => hany (Or.inr haggs))

/-- Reassembly works with the true row count, or else with the bits of the first bitmap. -/
theorem Wf.reassemble_eq (hr : r.Wf n) :
    ∃ nOut, (r.TellsRows → nOut = n) ∧ (¬ r.TellsRows → nOut = validBytes n * 8) ∧
      reassemble r.encode = r.encode.mapM (fun c => assembleSeries c nOut) >>= frameOf := by
  have hinfer := inferRows_eq hr.counts
  have htells := hr.tellsRows_iff
  by_cases hany : r.TellsRows
  · refine ⟨n, fun _ => rfl, fun h => absurd hany h, ?_⟩
    rw [if_pos (htells.2 hany)] at hinfer
    unfold reassemble
    rw [hinfer]
    rfl
  · refine ⟨validBytes n * 8, fun h => absurd h hany, fun _ => rfl, ?_⟩
    rw [if_neg (fun h => hany (htells.1 h))] at hinfer
    obtain ⟨p, keys, hkeys⟩ := List.exists_cons_of_ne_nil (hr.keyed hany)
    have hp : p ∈ r.keys := hkeys ▸ List.mem_cons_self
    have hvalid : (encodeDecodedColumn p.1 p.2).valid.length = validBytes n := by
      change (packValidBitmap p.2.valid).length = validBytes n
      rw [length_packValidBitmap, (hr.keyRows p hp).2]
    obtain ⟨rest, hcons⟩ : ∃ rest, r.encode = encodeDecodedColumn p.1 p.2 :: rest := by
      rw [encode, hkeys]
      exact ⟨_, rfl⟩
    unfold reassemble
    rw [hinfer, hcons, ← hvalid]
    rfl

theorem Wf.assembled_iff (hr : r.Wf n) :
    (∀ p ∈ r.columns, assembleSeries p.1 n = .ok p.2) ↔
      (∀ p ∈ r.keys, tagToPa p.2.dtype ≠ none) ∧
        ∀ p ∈ r.aggs, ∀ values, p.2 = .u64 values → ∀ v ∈ values, v < 2 ^ 32 := by
  simp only [columns, List.mem_append, or_imp, forall_and, List.forall_mem_map]
  refine and_congr ?_ ?_
  · refine forall₂_congr (fun p hp => ⟨fun h htag => ?_, fun htag => ?_⟩)
    · rw [assembleSeries_narrow p.1 htag] at h
      cases h
    · exact assembleSeries_key p.1 (hr.keyRows p hp) (hr.strings p hp) htag
  · exact forall₂_congr (fun p hp => assembleSeries_agg p.1 (hr.aggRows p hp))

/-- The frame Python reassembles is the result, row for row, exactly when the result is
transportable. -/
theorem reassemble_eq_frame_iff {r : GroupByOutput} {nGroups : ℕ} (hr : r.Wf nGroups) :
    (∃ frame, reassemble r.encode = .ok frame ∧ frame = r.frame ∧
      ∀ s ∈ frame, s.cells.length = nGroups) ↔ r.Transportable nGroups := by
  obtain ⟨nOut, htold, huntold, hrun⟩ := hr.reassemble_eq
  rw [hrun, encode_eq]
  refine ⟨?_, ?_⟩
  · intro ⟨frame, hok, hframe, hrows⟩
    obtain ⟨series, hseries, hdf⟩ := bind_eq_ok.1 hok
    obtain ⟨hnodup, hsame⟩ := frameOf_eq_ok.1 hdf
    rw [hsame, hframe, frame_eq] at hseries
    rw [hsame, hframe, frame_names] at hnodup
    have hcols := mapM_pairs_iff.1 hseries
    -- the rows agree, so the count Python used is the true one
    have hn : nOut = nGroups := by
      by_cases hany : r.TellsRows
      · exact htold hany
      obtain ⟨p, keys, hkeys⟩ := List.exists_cons_of_ne_nil (hr.keyed hany)
      have hp : (encodeDecodedColumn p.1 p.2, (⟨p.1, keyCells p.2⟩ : Series)) ∈ r.columns := by
        rw [columns, hkeys]
        exact List.mem_append_left _ List.mem_cons_self
      have hlen := length_of_assembleSeries (hcols _ hp)
      rw [← hlen]
      refine hrows _ ?_
      rw [hframe, frame_eq]
      exact List.mem_map_of_mem (f := Prod.snd) hp
    rw [hn] at hcols
    obtain ⟨htags, hcounts⟩ := hr.assembled_iff.1 hcols
    refine ⟨hnodup, htags, hcounts, ?_⟩
    by_cases hany : r.TellsRows
    · rcases hany with ⟨p, hp, hfix⟩ | hne
      · refine Or.inl ⟨p, hp, fun hbool => ?_⟩
        rw [hbool] at hfix
        cases hfix
      · exact Or.inr (Or.inl hne)
    · exact Or.inr (Or.inr ((validBytes_mul_eq_iff nGroups).1 ((huntold hany).symm.trans hn)))
  · intro ht
    have hn : nOut = nGroups := by
      by_cases hany : r.TellsRows
      · exact htold hany
      · rcases ht.rows with ⟨p, hp, hbool⟩ | hne | hmul
        · have htag := ht.tags p hp
          refine absurd (Or.inl ⟨p, hp, ?_⟩) hany
          revert hbool htag
          cases p.2.dtype <;> decide
        · exact absurd (Or.inr hne) hany
        · rw [huntold hany, (validBytes_mul_eq_iff nGroups).2 hmul]
    have hcols := hr.assembled_iff.2 ⟨ht.tags, ht.counts⟩
    rw [hn]
    refine ⟨r.frame, ?_, rfl, fun s hs => ?_⟩
    · rw [mapM_pairs_iff.2 hcols]
      refine frameOf_eq_ok.2 ⟨?_, (frame_eq r).symm⟩
      rw [← frame_eq, frame_names]
      exact ht.names
    · rw [frame_eq] at hs
      obtain ⟨p, hp, rfl⟩ := List.mem_map.1 hs
      exact length_of_assembleSeries (hcols p hp)

/-- A string key with a null, a Boolean key and a count over three groups. -/
def sample : GroupByOutput :=
  { keys := [("s", ⟨.utf8, ["é", "", ""], [true, false, true]⟩), ("b", ⟨.bool, [true, false, true], [true, true, true]⟩)]
    aggs := [("n", .u64 [4, 5, 6])] }

theorem reassemble_eq_frame_iff_sample :
    ∃ frame, reassemble sample.encode = .ok frame ∧ frame = sample.frame ∧
      ∀ s ∈ frame, s.cells.length = 3 := by
  refine (@reassemble_eq_frame_iff sample 3 ⟨Or.inl (by decide), ?_, ?_, ?_⟩).2
    ⟨by decide, by decide, ?_, Or.inr (Or.inl (by decide))⟩
  · simp only [sample, List.forall_mem_cons]
    decide
  · simp [sample, AggRows]
  · simp [sample]
    decide
  · simp [sample]

/-- Two groups keyed by one Boolean column and nothing else. -/
def boolKeyAlone : GroupByOutput := ⟨[("b", ⟨.bool, [true, false], [true, true]⟩)], []⟩

/-- They come back as 32 rows. -/
theorem bool_key_alone_gains_rows :
    boolKeyAlone.Wf 2 ∧ ¬ ∃ frame, reassemble boolKeyAlone.encode = .ok frame ∧
      frame = boolKeyAlone.frame ∧ ∀ s ∈ frame, s.cells.length = 2 := by
  refine ⟨⟨Or.inl (by decide), ?_, ?_, ?_⟩, ?_⟩
  · simp only [boolKeyAlone, List.forall_mem_cons]
    decide
  · simp [boolKeyAlone]
  · simp [boolKeyAlone]
  · intro ⟨frame, hok, hframe, _⟩
    rw [hframe] at hok
    exact absurd hok (by decide)

end GroupByOutput

end PolarsMetal.Wire
