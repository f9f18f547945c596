import PolarsMetal.GroupBy.Keys
import PolarsMetal.Lib.Fallible

/-! The key lanes lose nothing: a lane is a pack of one bit field per column, so
each column's null flag and payload can be read back from it, and two rows share
a lane exactly when they agree on every column. -/

namespace PolarsMetal.GroupBy
open BitFields Bitmap Fallible

/-! What a key column holds, independently of the lane format. -/

/-- The value bits stored at a row. -/
def readBits (dtype : KeyDtype) (data : List UInt8) (row : ℕ) : BitVec dtype.dataBits :=
  match dtype with
  | .i64 | .f64 => leBytes 64 (rowBytes data row 8)
  | .i32 | .f32 | .u32 | .utf8 => leBytes 32 (rowBytes data row 4)
  | .i16 | .u16 => leBytes 16 (rowBytes data row 2)
  | .i8 | .u8 => leBytes 8 (rowBytes data row 1)
  | .bool => (bitAt data row).toBitVec.setWidth 1

/-- The value that bits of a dtype denote; a string key denotes its dictionary entry. -/
def ofBits (dtype : KeyDtype) (dict : Option (List String)) (bits : BitVec dtype.dataBits) :
    dtype.Val :=
  match dtype with
  | .i64 => Int64.ofBitVec bits
  | .f64 => bits
  | .bool => bits == 1#1
  | .i32 => Int32.ofBitVec bits
  | .f32 => bits
  | .i8 => Int8.ofBitVec bits
  | .i16 => Int16.ofBitVec bits
  | .u8 => UInt8.ofBitVec bits
  | .u16 => UInt16.ofBitVec bits
  | .u32 => UInt32.ofBitVec bits
  | .utf8 => (dict.bind (fun d => d[(bits : BitVec 32).toNat]?)).getD ""

/-- What a decoded column holds under a null. -/
def nullValue : (dtype : KeyDtype) → dtype.Val
  | .i64 => (0 : Int64)
  | .f64 => 0#64
  | .bool => false
  | .i32 => (0 : Int32)
  | .f32 => 0#32
  | .i8 => (0 : Int8)
  | .i16 => (0 : Int16)
  | .u8 => (0 : UInt8)
  | .u16 => (0 : UInt16)
  | .u32 => (0 : UInt32)
  | .utf8 => ""

namespace KeyColumn

def isValid (c : KeyColumn) (row : ℕ) : Bool := bitAt c.valid row != 0

def bitsAt (c : KeyColumn) (row : ℕ) : BitVec c.dtype.dataBits := readBits c.dtype c.data row

def valueAt (c : KeyColumn) (row : ℕ) : c.dtype.Val :=
  if c.isValid row then ofBits c.dtype c.dict (c.bitsAt row) else nullValue c.dtype

/-- The column's own rows, as a decoded column. -/
def original (c : KeyColumn) (nRows : ℕ) : DecodedColumn :=
  ⟨c.dtype, (List.range nRows).map c.valueAt, (List.range nRows).map c.isValid⟩

/-- Both rows null, or both valid with equal bits. -/
def SameKey (c : KeyColumn) (i j : ℕ) : Prop :=
  (c.isValid i = false ∧ c.isValid j = false) ∨
    (c.isValid i = true ∧ c.isValid j = true ∧ c.bitsAt i = c.bitsAt j)

structure Wf (c : KeyColumn) (nRows : ℕ) : Prop where
  rows : c.nRows = nRows
  dict : c.dtype = .utf8 → c.dict ≠ none
  data : needData c.dtype nRows ≤ c.data.length
  valid : (nRows + 7) / 8 ≤ c.valid.length

theorem check_eq_ok_iff (c : KeyColumn) :
    c.check c.nRows = .ok () ↔ c.Wf c.nRows := by
  unfold check
  constructor
  · intro h
    split_ifs at h with h1 h2 h3
    exact ⟨rfl, fun hu hn => h1 ⟨hu, hn⟩, by omega, by omega⟩
  · rintro ⟨-, hdict, hdata, hvalid⟩
    rw [if_neg (fun h => hdict h.1 h.2), if_neg (by omega), if_neg (by omega)]

end KeyColumn

def keyWidth (cols : List KeyColumn) : ℕ := (cols.map (fun c => 1 + c.dtype.dataBits)).sum

/-! The match trees, read as operations on bits. -/

theorem dataBits_le (dtype : KeyDtype) : dtype.dataBits ≤ 64 := by
  cases dtype <;> decide

theorem dataValue_eq (dtype : KeyDtype) (data : List UInt8) (row : ℕ) :
    dataValue dtype data row = (readBits dtype data row).setWidth 128 := by
  cases dtype with
  | bool =>
    simp only [dataValue, readBits]
    rcases bitAt_eq_zero_or_one data row with h | h <;> rw [h] <;> rfl
  | _ => rfl

theorem decodeValue_valid (dtype : KeyDtype) (field : KeyField) (lane : Lane) :
    decodeValue dtype field lane true =
      ofBits dtype field.dict ((extract lane field.dataBitOffset dtype.dataBits).setWidth _) := by
  cases dtype with
  | bool =>
    change (extract lane field.dataBitOffset 1 == 1) =
      ((extract lane field.dataBitOffset 1).setWidth 1 == 1#1)
    rw [extract_one]
    split_ifs <;> rfl
  | _ => rfl

theorem decodeValue_null (dtype : KeyDtype) (field : KeyField) (lane : Lane) :
    decodeValue dtype field lane false = nullValue dtype := by
  cases dtype <;> rfl

/-! The field layout the column loop produces. -/

def fieldsFrom : ℕ → List KeyColumn → List KeyField
  | _, [] => []
  | offset, c :: cols =>
    ⟨c.name, c.dtype, offset, offset + 1, c.dict⟩ ::
      fieldsFrom (offset + (1 + c.dtype.dataBits)) cols

theorem layoutKeys_eq_ok_iff {nRows offset : ℕ} {cols : List KeyColumn} {fields : List KeyField}
    {totalBits : ℕ} (ho : offset ≤ 128) :
    layoutKeys nRows offset cols = .ok (fields, totalBits) ↔
      (∀ c ∈ cols, c.check nRows = .ok ()) ∧ offset + keyWidth cols ≤ 128 ∧
        fields = fieldsFrom offset cols ∧ totalBits = offset + keyWidth cols := by
  induction cols generalizing offset fields totalBits with
  | nil => simp [layoutKeys, fieldsFrom, keyWidth, ho, eq_comm]
  | cons c cols ih =>
    have hwidth : keyWidth (c :: cols) = (1 + c.dtype.dataBits) + keyWidth cols := by
      simp [keyWidth]
    simp only [layoutKeys, bind_eq_ok, guard_eq_ok, pure_eq_ok, List.forall_mem_cons, hwidth]
    constructor
    · rintro ⟨⟨⟩, hc, hfit, ⟨fs, total⟩, hrest, hr⟩
      obtain ⟨hcols, hle, rfl, rfl⟩ := (ih (by omega)).1 hrest
      cases hr
      exact ⟨⟨hc, hcols⟩, by omega, rfl, by omega⟩
    · rintro ⟨⟨hc, hcols⟩, hle, rfl, rfl⟩
      exact ⟨(), hc, by omega, _, (ih (by omega)).2 ⟨hcols, by omega, rfl, rfl⟩,
        by rw [Nat.add_assoc]; rfl⟩

structure Encodable (cols : List KeyColumn) (nRows : ℕ) : Prop where
  ne_nil : cols ≠ []
  wf : ∀ c ∈ cols, c.Wf nRows
  width : keyWidth cols ≤ 128

/-- The encoder accepts exactly the non-empty lists of well-formed columns that fit 128 bits. -/
theorem encodeKeys_eq_ok_iff (cols : List KeyColumn) (lanes : List Lane) (schema : KeySchema) :
    encodeKeys cols = .ok (lanes, schema) ↔
      ∃ nRows, Encodable cols nRows ∧
        lanes = (List.range nRows).map (encodeRow cols (fieldsFrom 0 cols)) ∧
        schema = ⟨fieldsFrom 0 cols, keyWidth cols, nRows⟩ := by
  rcases cols with _ | ⟨first, rest⟩
  · simp only [encodeKeys]
    constructor
    · intro h; cases h
    · rintro ⟨n, ⟨hne, -, -⟩, -⟩; exact absurd rfl hne
  have hrows : rest.find? (fun c => c.nRows != first.nRows) = none ↔
      ∀ c ∈ first :: rest, c.nRows = first.nRows := by
    simp [List.find?_eq_none]
  have hcheck : (∀ c ∈ first :: rest, c.nRows = first.nRows) →
      ((∀ c ∈ first :: rest, c.check first.nRows = .ok ()) ↔
        ∀ c ∈ first :: rest, c.Wf first.nRows) := by
    intro hn
    refine forall₂_congr (fun c hc => ?_)
    rw [← hn c hc]
    exact c.check_eq_ok_iff
  simp only [encodeKeys]
  rcases hfind : rest.find? (fun c => c.nRows != first.nRows) with _ | bad
  · have hn := hrows.1 hfind
    simp only [hfind, bind_eq_ok, pure_eq_ok, Prod.mk.injEq]
    constructor
    · rintro ⟨⟨fields, total⟩, hlay, rfl, rfl⟩
      obtain ⟨hc, hle, rfl, rfl⟩ := (layoutKeys_eq_ok_iff (by omega)).1 hlay
      exact ⟨first.nRows, ⟨by simp, (hcheck hn).1 hc, by omega⟩, rfl, by rw [Nat.zero_add]⟩
    · rintro ⟨nRows, ⟨-, hwf, hle⟩, rfl, rfl⟩
      obtain rfl : first.nRows = nRows := (hwf first (by simp)).rows
      exact ⟨_, (layoutKeys_eq_ok_iff (by omega)).2 ⟨(hcheck hn).2 hwf, by omega, rfl, rfl⟩, rfl,
        by rw [Nat.zero_add]⟩
  · simp only [hfind]
    constructor
    · intro h; cases h
    · rintro ⟨nRows, ⟨-, hwf, -⟩, -, -⟩
      have hn : ∀ c ∈ first :: rest, c.nRows = first.nRows := by
        intro c hc
        rw [(hwf c hc).rows, (hwf first (by simp)).rows]
      rw [hrows.2 hn] at hfind
      cases hfind

/-! A lane is a pack of bit fields. -/

/-- The null flag and payload a column contributes to its row's lane. -/
def payload (c : KeyColumn) (row : ℕ) : Lane :=
  if bitAt c.valid row = 0 then 1 else dataValue c.dtype c.data row <<< 1

theorem getLsbD_payload (c : KeyColumn) (row i : ℕ) (hi : 1 + c.dtype.dataBits ≤ i) :
    (payload c row).getLsbD i = false := by
  unfold payload
  split_ifs
  · simp [show i ≠ 0 by omega]
  · have : c.dtype.dataBits ≤ i - 1 := by omega
    rw [BitVec.getLsbD_shiftLeft, dataValue_eq, BitVec.getLsbD_setWidth,
      BitVec.getLsbD_of_ge _ _ this]
    simp

theorem extract_payload_flag (c : KeyColumn) (row : ℕ) :
    extract (payload c row) 0 1 = if c.isValid row then 0 else 1 := by
  rw [extract_one, payload, KeyColumn.isValid]
  split_ifs <;> simp_all

theorem extract_payload_bits {c : KeyColumn} {row : ℕ} (hv : c.isValid row = true) :
    (extract (payload c row) 1 c.dtype.dataBits).setWidth _ = c.bitsAt row := by
  have hbit : bitAt c.valid row ≠ 0 := by simpa [KeyColumn.isValid] using hv
  have hle := dataBits_le c.dtype
  rw [payload, if_neg hbit, dataValue_eq]
  apply BitVec.eq_of_getLsbD_eq
  intro i hi
  rw [BitVec.getLsbD_setWidth, getLsbD_extract, BitVec.getLsbD_shiftLeft, Nat.add_sub_cancel_left,
    BitVec.getLsbD_setWidth]
  simp [hi, show 1 + i < 128 by omega, show i < 128 by omega, KeyColumn.bitsAt]

theorem payload_eq_iff (c : KeyColumn) (i j : ℕ) : payload c i = payload c j ↔ c.SameKey i j := by
  constructor
  · intro h
    have hflag := extract_payload_flag c i
    rw [h, extract_payload_flag c j] at hflag
    rcases hi : c.isValid i with _ | _ <;> rcases hj : c.isValid j with _ | _ <;>
      simp only [hi, hj] at hflag
    · exact Or.inl ⟨hi, hj⟩
    · exact absurd hflag (by decide)
    · exact absurd hflag (by decide)
    · exact Or.inr ⟨hi, hj, by rw [← extract_payload_bits hi, ← extract_payload_bits hj, h]⟩
  · rintro (⟨hi, hj⟩ | ⟨hi, hj, hbits⟩)
    · simp only [KeyColumn.isValid, bne_eq_false_iff_eq] at hi hj
      rw [payload, payload, if_pos hi, if_pos hj]
    · simp only [KeyColumn.isValid, bne_iff_ne] at hi hj
      rw [payload, payload, if_neg hi, if_neg hj, dataValue_eq, dataValue_eq]
      exact congrArg (fun bits => BitVec.setWidth 128 bits <<< 1) hbits

def bitField (row : ℕ) (p : KeyColumn × KeyField) : BitField 128 where
  offset := p.2.nullBitOffset
  width := 1 + p.1.dtype.dataBits
  value := payload p.1 row
  fits := getLsbD_payload p.1 row

def placed (cols : List KeyColumn) : List (KeyColumn × KeyField) := cols.zip (fieldsFrom 0 cols)

theorem zip_fieldsFrom_cons (offset : ℕ) (c : KeyColumn) (cols : List KeyColumn) :
    (c :: cols).zip (fieldsFrom offset (c :: cols)) =
      (c, ⟨c.name, c.dtype, offset, offset + 1, c.dict⟩) ::
        cols.zip (fieldsFrom (offset + (1 + c.dtype.dataBits)) cols) := rfl

structure Matches (c : KeyColumn) (field : KeyField) : Prop where
  dtype : field.dtype = c.dtype
  dict : field.dict = c.dict
  data : field.dataBitOffset = field.nullBitOffset + 1

theorem matches_of_mem {offset : ℕ} {cols : List KeyColumn} :
    ∀ p ∈ cols.zip (fieldsFrom offset cols), Matches p.1 p.2 := by
  induction cols generalizing offset with
  | nil => simp
  | cons c cols ih =>
    rw [zip_fieldsFrom_cons]
    exact List.forall_mem_cons.2 ⟨⟨rfl, rfl, rfl⟩, ih⟩

theorem consecutive_bitFields (row offset : ℕ) (cols : List KeyColumn) :
    Consecutive offset ((cols.zip (fieldsFrom offset cols)).map (bitField row)) := by
  induction cols generalizing offset with
  | nil => trivial
  | cons c cols ih =>
    rw [zip_fieldsFrom_cons]
    exact ⟨rfl, ih _⟩

theorem width_bitFields (row offset : ℕ) (cols : List KeyColumn) :
    (((cols.zip (fieldsFrom offset cols)).map (bitField row)).map BitField.width).sum =
      keyWidth cols := by
  induction cols generalizing offset with
  | nil => rfl
  | cons c cols ih =>
    rw [zip_fieldsFrom_cons]
    simp only [List.map_cons, List.sum_cons, ih]
    simp [bitField, keyWidth]

theorem encodeRow_eq_pack (cols : List KeyColumn) (row : ℕ) :
    encodeRow cols (fieldsFrom 0 cols) row = pack ((placed cols).map (bitField row)) := by
  unfold encodeRow pack placed
  rw [List.foldl_map]
  apply List.foldl_ext
  rintro lane ⟨c, field⟩ hp
  have hm := matches_of_mem _ hp
  simp only [bitField, payload]
  split_ifs
  · rfl
  · rw [hm.data, ← BitVec.shiftLeft_add, Nat.add_comm]

/-- Every column's flag and payload can be read back from the lane. -/
theorem extract_encodeRow {cols : List KeyColumn} (hw : keyWidth cols ≤ 128)
    {p : KeyColumn × KeyField} (hp : p ∈ placed cols) (row : ℕ) :
    extract (encodeRow cols (fieldsFrom 0 cols) row) p.2.nullBitOffset (1 + p.1.dtype.dataBits) =
      payload p.1 row := by
  rw [encodeRow_eq_pack]
  exact extract_consecutive (consecutive_bitFields row 0 cols)
    (by rw [width_bitFields]; exact hw) (List.mem_map_of_mem (f := bitField row) hp)

/-- The flag is the field's lowest bit, at `nullBitOffset`. -/
theorem extract_nullBit {cols : List KeyColumn} (hw : keyWidth cols ≤ 128)
    {p : KeyColumn × KeyField} (hp : p ∈ placed cols) (row : ℕ) :
    extract (encodeRow cols (fieldsFrom 0 cols) row) p.2.nullBitOffset 1 =
      if p.1.isValid row then 0 else 1 := by
  have h := extract_extract (encodeRow cols (fieldsFrom 0 cols) row) p.2.nullBitOffset
    (1 + p.1.dtype.dataBits) 0 1 (by omega)
  rw [extract_encodeRow hw hp, Nat.add_zero] at h
  rw [← h, extract_payload_flag]

theorem extract_data {cols : List KeyColumn} (hw : keyWidth cols ≤ 128)
    {p : KeyColumn × KeyField} (hp : p ∈ placed cols) {row : ℕ} (hv : p.1.isValid row = true) :
    (extract (encodeRow cols (fieldsFrom 0 cols) row) p.2.dataBitOffset
      p.1.dtype.dataBits).setWidth _ = p.1.bitsAt row := by
  have h := extract_extract (encodeRow cols (fieldsFrom 0 cols) row) p.2.nullBitOffset
    (1 + p.1.dtype.dataBits) 1 p.1.dtype.dataBits (by omega)
  rw [extract_encodeRow hw hp, ← (matches_of_mem p hp).data] at h
  rw [← h, extract_payload_bits hv]

/-! The decoder, run over any lanes: one column per field, one entry per lane. -/

def laneValid (field : KeyField) (lane : Lane) : Bool := (lane >>> field.nullBitOffset) &&& 1 == 0

def columnOf (lanes : List Lane) (field : KeyField) : DecodedColumn where
  dtype := field.dtype
  values := lanes.map (fun lane => decodeValue field.dtype field lane (laneValid field lane))
  valid := lanes.map (laneValid field)

theorem push_columnOf (lanes : List Lane) (field : KeyField) (lane : Lane) :
    (columnOf lanes field).push field lane = some (columnOf (lanes ++ [lane]) field) := by
  simp only [DecodedColumn.push, columnOf, if_true, List.map_append, List.map_cons, List.map_nil]
  rfl

theorem decodeLane_columnOf (fields : List KeyField) (lanes : List Lane) (lane : Lane) :
    decodeLane fields (fields.map (columnOf lanes)) lane =
      some (fields.map (columnOf (lanes ++ [lane]))) := by
  unfold decodeLane
  induction fields with
  | nil => rfl
  | cons f fields ih =>
    simp only [List.map_cons, List.zip_cons_cons, List.mapM_cons, push_columnOf]
    rw [ih]
    rfl

theorem foldlM_decodeLane (fields : List KeyField) (seen lanes : List Lane) :
    lanes.foldlM (decodeLane fields) (fields.map (columnOf seen)) =
      some (fields.map (columnOf (seen ++ lanes))) := by
  induction lanes generalizing seen with
  | nil => simp
  | cons lane lanes ih =>
    rw [List.foldlM_cons, decodeLane_columnOf]
    exact (ih (seen ++ [lane])).trans (by rw [List.append_assoc]; rfl)

/-- The decoder never reaches its `unreachable!` arm. -/
theorem decodeKeys_eq (lanes : List Lane) (schema : KeySchema) :
    decodeKeys lanes schema = some (schema.fields.map (columnOf lanes)) :=
  foldlM_decodeLane schema.fields [] lanes

/-! The two directions together. -/

theorem laneValid_encodeRow {cols : List KeyColumn} (hw : keyWidth cols ≤ 128)
    {p : KeyColumn × KeyField} (hp : p ∈ placed cols) (row : ℕ) :
    laneValid p.2 (encodeRow cols (fieldsFrom 0 cols) row) = p.1.isValid row := by
  change (extract _ p.2.nullBitOffset 1 == 0) = p.1.isValid row
  rw [extract_nullBit hw hp]
  cases p.1.isValid row <;> rfl

/-- Decoding the lanes of any rows gives the column's entries at those rows. -/
theorem columnOf_encodeRows {cols : List KeyColumn} (hw : keyWidth cols ≤ 128)
    {p : KeyColumn × KeyField} (hp : p ∈ placed cols) (rows : List ℕ) :
    columnOf (rows.map (encodeRow cols (fieldsFrom 0 cols))) p.2 =
      ⟨p.1.dtype, rows.map p.1.valueAt, rows.map p.1.isValid⟩ := by
  have hvalid := laneValid_encodeRow hw hp
  have hdata := fun row => @extract_data cols hw p hp row
  obtain ⟨c, name, dtype, nullOff, dataOff, dict⟩ := p
  obtain ⟨hdtype, hdict, -⟩ := matches_of_mem _ hp
  simp only at hdtype hdict hvalid hdata
  subst hdtype hdict
  simp only [columnOf, List.map_map, DecodedColumn.mk.injEq, heq_eq_eq, true_and]
  constructor
  · apply List.map_congr_left
    intro row _
    simp only [Function.comp_apply, hvalid, KeyColumn.valueAt]
    rcases hv : c.isValid row with _ | _
    · exact decodeValue_null _ _ _
    · rw [decodeValue_valid, hdata row hv, if_pos rfl]
  · apply List.map_congr_left
    intro row _
    exact hvalid row

theorem columnOf_encodeRow {cols : List KeyColumn} (hw : keyWidth cols ≤ 128)
    {p : KeyColumn × KeyField} (hp : p ∈ placed cols) (nRows : ℕ) :
    columnOf ((List.range nRows).map (encodeRow cols (fieldsFrom 0 cols))) p.2 =
      p.1.original nRows := columnOf_encodeRows hw hp (List.range nRows)

theorem length_fieldsFrom (offset : ℕ) (cols : List KeyColumn) :
    (fieldsFrom offset cols).length = cols.length := by
  induction cols generalizing offset with
  | nil => rfl
  | cons c cols ih => simp [fieldsFrom, ih]

theorem map_fst_placed (cols : List KeyColumn) : (placed cols).map Prod.fst = cols :=
  List.map_fst_zip (length_fieldsFrom 0 cols).ge

theorem map_snd_placed (cols : List KeyColumn) : (placed cols).map Prod.snd = fieldsFrom 0 cols :=
  List.map_snd_zip (length_fieldsFrom 0 cols).le

theorem decode_encodeRows {cols : List KeyColumn} (hw : keyWidth cols ≤ 128) (nRows : ℕ) :
    (fieldsFrom 0 cols).map
        (columnOf ((List.range nRows).map (encodeRow cols (fieldsFrom 0 cols)))) =
      cols.map (fun c => c.original nRows) := by
  calc _ = (placed cols).map (fun p =>
        columnOf ((List.range nRows).map (encodeRow cols (fieldsFrom 0 cols))) p.2) := by
          conv_lhs => rw [← map_snd_placed, List.map_map]
          rw [map_snd_placed]
          rfl
    _ = (placed cols).map (fun p => p.1.original nRows) :=
          List.map_congr_left (fun p hp => columnOf_encodeRow hw hp nRows)
    _ = cols.map (fun c => c.original nRows) := by
          conv_rhs => rw [← map_fst_placed cols, List.map_map]
          rfl

theorem encodeRow_eq_iff {cols : List KeyColumn} (hw : keyWidth cols ≤ 128) (i j : ℕ) :
    encodeRow cols (fieldsFrom 0 cols) i = encodeRow cols (fieldsFrom 0 cols) j ↔
      ∀ c ∈ cols, c.SameKey i j := by
  have hcols : (∀ c ∈ cols, c.SameKey i j) ↔ ∀ p ∈ placed cols, p.1.SameKey i j := by
    conv_lhs => rw [← map_fst_placed cols]
    exact List.forall_mem_map
  rw [hcols]
  constructor
  · intro h p hp
    rw [← payload_eq_iff, ← extract_encodeRow hw hp i, ← extract_encodeRow hw hp j, h]
  · intro h
    rw [encodeRow_eq_pack, encodeRow_eq_pack, pack, pack, List.foldl_map, List.foldl_map]
    apply List.foldl_ext
    intro lane p hp
    simp only [bitField, (payload_eq_iff p.1 i j).2 (h p hp)]

/-- Encoding then decoding gives every column back, and lanes are equal exactly on equal keys. -/
theorem encode_keys_faithful {cols : List KeyColumn} {nRows : ℕ} (h : Encodable cols nRows) :
    ∃ lanes schema, encodeKeys cols = .ok (lanes, schema) ∧ lanes.length = nRows ∧
      decodeKeys lanes schema = some (cols.map (fun c => c.original nRows)) ∧
      ∀ i j (hi : i < lanes.length) (hj : j < lanes.length),
        lanes[i] = lanes[j] ↔ ∀ c ∈ cols, c.SameKey i j := by
  refine ⟨_, _, (encodeKeys_eq_ok_iff cols _ _).2 ⟨nRows, h, rfl, rfl⟩, by simp, ?_, ?_⟩
  · rw [decodeKeys_eq, decode_encodeRows h.width]
  · intro i j hi hj
    simp only [List.getElem_map, List.getElem_range]
    exact encodeRow_eq_iff h.width i j

/-- A null slot, a narrow signed key and a bit-packed one; the bytes under the null are garbage. -/
def sampleColumns : List KeyColumn :=
  [⟨"a", .i16, [0xff, 0xff, 7, 9], [1], 2, none⟩, ⟨"b", .bool, [2], [3], 2, none⟩]

theorem encode_keys_faithful_sample :
    ∃ lanes schema, encodeKeys sampleColumns = .ok (lanes, schema) ∧ lanes.length = 2 ∧
      decodeKeys lanes schema = some (sampleColumns.map (fun c => c.original 2)) ∧
      ∀ i j (hi : i < lanes.length) (hj : j < lanes.length),
        lanes[i] = lanes[j] ↔ ∀ c ∈ sampleColumns, c.SameKey i j :=
  encode_keys_faithful ⟨by decide, by
    intro c hc
    simp only [sampleColumns, List.mem_cons, List.not_mem_nil, or_false] at hc
    rcases hc with rfl | rfl <;> exact ⟨rfl, by decide, by decide, by decide⟩, by decide⟩

end PolarsMetal.GroupBy
