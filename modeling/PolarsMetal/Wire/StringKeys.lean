import PolarsMetal.Wire.RoundTrip
import PolarsMetal.GroupBy.FloatKeys

/-! String keys. Python packs an Arrow string array into one payload, the crate parses it,
numbers the distinct strings in first-seen order and groups by the numbers; the output strings
come back from the dictionary. -/

namespace PolarsMetal.Wire
open GroupBy Framing Bitmap Fallible

/-! Python's packing. -/

/-- The buffers of a `pa.string()` array; Arrow may leave any of them out. -/
structure StringArray where
  valid : Option (List UInt8)
  offsets : Option (List UInt8)
  data : Option (List UInt8)

inductive PackError where
  | negativeFinalOffset (offset : ℤ)
  | rowCountOverflow (nRows : ℕ)
deriving DecidableEq

def allOnesBitmap (nRows : ℕ) : List UInt8 := List.replicate ((nRows + 7) / 8) 0xFF

/-- Zero-extend to at least `n` bytes. -/
def padTo (n : ℕ) (bytes : List UInt8) : List UInt8 :=
  if bytes.length < n then bytes ++ List.replicate (n - bytes.length) 0 else bytes

/-- The `Utf8` branch of `_data_and_valid_for_dtype`. -/
def dataAndValidUtf8 (arr : StringArray) (nRows : ℕ) :
    Except PackError (List UInt8 × List UInt8) := do
  let valid := padTo ((nRows + 7) / 8) (arr.valid.getD (allOnesBitmap nRows))
  let expectedOffsetsLen := (nRows + 1) * 4
  let offsetsBytes := (padTo expectedOffsetsLen (arr.offsets.getD [])).take expectedOffsetsLen
  let totalDataLen := if nRows = 0 then 0 else readOffset offsetsBytes nRows
  if totalDataLen < 0 then throw (.negativeFinalOffset totalDataLen)
  let dataBytes := (padTo totalDataLen.toNat (arr.data.getD [])).take totalDataLen.toNat
  -- `n_rows.to_bytes(4, "little")`
  if 2 ^ 32 ≤ nRows then throw (.rowCountOverflow nRows)
  return (encode 4 nRows ++ offsetsBytes ++ dataBytes, valid)

/-! The crate's parse. -/

inductive KeyParseError where
  | tooShort (got : ℕ)
  | rowCountDisagrees (header nRows : ℕ)
  | truncatedOffsets (got need : ℕ)
  | validityTooShort (got need : ℕ)
  | invalidOffsets (row : ℕ) (start stop : ℤ)
  | endPastBuffer (row stop have_ : ℕ)
  | notUtf8 (row : ℕ)
deriving DecidableEq

/-- `std::str::from_utf8`. -/
def fromUtf8 (bytes : List UInt8) : Option String := String.fromUTF8? ⟨bytes.toArray⟩

def parseRow (offsets : List ℤ) (stringBytes valid : List UInt8) (r : ℕ) :
    Except KeyParseError (Option String) :=
  if bitAt valid r ≠ 1 then .ok none
  else
    let start := offsets.getD r 0
    let stop := offsets.getD (r + 1) 0
    if start < 0 ∨ stop < start then .error (.invalidOffsets r start stop)
    else if stringBytes.length < stop.toNat then
      .error (.endPastBuffer r stop.toNat stringBytes.length)
    else
      match fromUtf8 ((stringBytes.drop start.toNat).take (stop.toNat - start.toNat)) with
      | none => .error (.notUtf8 r)
      | some s => .ok (some s)

def parseUtf8Key (nRows : ℕ) (data valid : List UInt8) :
    Except KeyParseError (List (Option String)) :=
  if data.length < 4 then .error (.tooShort data.length)
  else
    let headerN := decode (data.take 4)
    if headerN ≠ nRows then .error (.rowCountDisagrees headerN nRows)
    else
      let offsetsEnd := 4 + (nRows + 1) * 4
      if data.length < offsetsEnd then .error (.truncatedOffsets data.length offsetsEnd)
      else
        let offsets := (List.range (nRows + 1)).map (readOffset (data.drop 4))
        let stringBytes := data.drop offsetsEnd
        if valid.length < (nRows + 7) / 8 then
          .error (.validityTooShort valid.length ((nRows + 7) / 8))
        else (List.range nRows).mapM (parseRow offsets stringBytes valid)

/-! The dictionary. -/

structure DictState where
  dict : List String
  seen : Std.HashMap String ℕ
  codes : List ℕ
  valid : List Bool

def dictStep (s : DictState) : Option String → DictState
  | some str =>
    match s.seen[str]? with
    | some c => { s with codes := s.codes ++ [c], valid := s.valid ++ [true] }
    | none =>
      { dict := s.dict ++ [str]
        seen := s.seen.insert str (asU32 s.dict.length)
        codes := s.codes ++ [asU32 s.dict.length]
        valid := s.valid ++ [true] }
  | none => { s with codes := s.codes ++ [0], valid := s.valid ++ [false] }

def buildDictNullable (strings : List (Option String)) : List String × List ℕ × List Bool :=
  let s := strings.foldl dictStep ⟨[], ∅, [], []⟩
  (s.dict, s.codes, s.valid)

/-- The key column `execute_groupby` builds for a string key. -/
def utf8KeyColumn (name : String) (nRows : ℕ) (data valid : List UInt8) :
    Except KeyParseError KeyColumn := do
  let strings ← parseUtf8Key nRows data valid
  let (dict, codes, _) := buildDictNullable strings
  return ⟨name, .utf8, table 4 codes, valid, nRows, some dict⟩

/-- The lanes whose decoded entries are the output keys: the first row of each group. -/
def representativeKeys (lanes : List Lane) (out : BuildOutput) : List Lane :=
  out.firstRowPerGroup.map (fun row => lanes.getD row 0)

/-! What the array holds. -/

namespace StringArray

def offset (arr : StringArray) (i : ℕ) : ℤ := readOffset (arr.offsets.getD []) i

def bytes (arr : StringArray) : List UInt8 := arr.data.getD []

/-- The Arrow layout of a list of optional strings: a validity bit per row unless no row is null,
non-negative offsets that never decrease and end inside the data, and the bytes of each string
between its offsets. What lies under a null is left open. -/
structure Holds (arr : StringArray) (rows : List (Option String)) : Prop where
  valid : ∀ i (h : i < rows.length),
    (∀ bits, arr.valid = some bits → (bitAt bits i = 1 ↔ rows[i] ≠ none)) ∧
      (arr.valid = none → rows[i] ≠ none)
  table : rows ≠ [] → (rows.length + 1) * 4 ≤ (arr.offsets.getD []).length
  start : 0 ≤ arr.offset 0
  mono : ∀ i < rows.length, arr.offset i ≤ arr.offset (i + 1)
  last : arr.offset rows.length ≤ arr.bytes.length
  strings : ∀ i (h : i < rows.length) s, rows[i] = some s →
    (arr.bytes.drop (arr.offset i).toNat).take
      ((arr.offset (i + 1)).toNat - (arr.offset i).toNat) = utf8Bytes s

variable {arr : StringArray} {rows : List (Option String)}

theorem Holds.offset_nonneg (h : arr.Holds rows) {i : ℕ} (hi : i ≤ rows.length) :
    0 ≤ arr.offset i := by
  induction i with
  | zero => exact h.start
  | succ i ih => exact (ih (by omega)).trans (h.mono i (by omega))

theorem Holds.offset_le_last (h : arr.Holds rows) {i : ℕ} (hi : i ≤ rows.length) :
    arr.offset i ≤ arr.offset rows.length := by
  induction hi using Nat.decreasingInduction with
  | self => exact le_rfl
  | of_succ i hi ih => exact (h.mono i hi).trans ih

end StringArray

theorem fromUtf8_utf8Bytes (s : String) : fromUtf8 (utf8Bytes s) = some s := by
  have hbytes : (⟨(utf8Bytes s).toArray⟩ : ByteArray) = s.toUTF8 := by
    rw [utf8Bytes, Array.toArray_toList]
  have hvalid : s.toUTF8.IsValidUTF8 := s.isValidUTF8
  unfold fromUtf8 String.fromUTF8?
  rw [hbytes, dif_pos hvalid]
  rfl

/-! Packing, then parsing. -/

theorem length_padTo (n : ℕ) (bytes : List UInt8) : n ≤ (padTo n bytes).length := by
  unfold padTo
  split_ifs with h
  · rw [List.length_append, List.length_replicate]
    omega
  · omega

theorem padTo_of_le {n : ℕ} {bytes : List UInt8} (h : n ≤ bytes.length) : padTo n bytes = bytes :=
  if_neg (by omega)

theorem bitAt_padTo (n : ℕ) (bytes : List UInt8) (i : ℕ) :
    bitAt (padTo n bytes) i = bitAt bytes i := by
  unfold padTo
  split_ifs with h
  · have hget : (bytes ++ List.replicate (n - bytes.length) 0).getD (i / 8) 0 =
        bytes.getD (i / 8) 0 := by
      rw [List.getD_eq_getElem?_getD, List.getD_eq_getElem?_getD]
      by_cases hi : i / 8 < bytes.length
      · rw [List.getElem?_append_left hi]
      · rw [List.getElem?_append_right (by omega), List.getElem?_eq_none (l := bytes) (by omega),
          List.getElem?_replicate]
        split_ifs <;> rfl
    rw [bitAt_eq, bitAt_eq, hget]
  · rfl

theorem bitAt_allOnes {nRows i : ℕ} (hi : i < nRows) : bitAt (allOnesBitmap nRows) i = 1 := by
  have hget : (List.replicate ((nRows + 7) / 8) (0xFF : UInt8)).getD (i / 8) 0 = 0xFF := by
    rw [List.getD_eq_getElem?_getD, List.getElem?_replicate, if_pos (by omega)]
    rfl
  have hall : ∀ j < 8, (0xFF : UInt8).toBitVec.getLsbD j = true := by decide
  rw [allOnesBitmap, bitAt_eq, hget, if_pos (hall _ (Nat.mod_lt i (by decide)))]

/-- What a packed column's validity says of each row. -/
def Flags (valid : List UInt8) (rows : List (Option String)) : Prop :=
  (rows.length + 7) / 8 ≤ valid.length ∧
    ∀ i (h : i < rows.length), bitAt valid i = 1 ↔ rows[i] ≠ none

theorem flags_padTo {arr : StringArray} {rows : List (Option String)} (h : arr.Holds rows) :
    Flags (padTo ((rows.length + 7) / 8) (arr.valid.getD (allOnesBitmap rows.length))) rows := by
  refine ⟨length_padTo _ _, fun i hi => ?_⟩
  obtain ⟨hsome, hnone⟩ := h.valid i hi
  rw [bitAt_padTo]
  rcases hv : arr.valid with _ | bits
  · rw [Option.getD_none, bitAt_allOnes hi]
    exact ⟨fun _ => hnone hv, fun _ => rfl⟩
  · exact hsome bits hv

theorem parseRow_eq_ok {offsets : List ℤ} {stringBytes valid : List UInt8} {r : ℕ}
    {row : Option String} (hflag : bitAt valid r = 1 ↔ row ≠ none)
    (hoffsets : ∀ s, row = some s → ∃ start stop : ℕ, offsets.getD r 0 = start ∧
      offsets.getD (r + 1) 0 = stop ∧ start ≤ stop ∧ stop ≤ stringBytes.length ∧
        (stringBytes.drop start).take (stop - start) = utf8Bytes s) :
    parseRow offsets stringBytes valid r = .ok row := by
  unfold parseRow
  rcases row with _ | s
  · rw [if_pos (fun h => hflag.1 h rfl)]
  · obtain ⟨start, stop, hstart, hstop, hle, hlen, hbytes⟩ := hoffsets s rfl
    have hone : bitAt valid r = 1 := hflag.2 (by simp)
    rw [if_neg (fun h => h hone), hstart, hstop]
    simp only [Int.toNat_natCast]
    rw [if_neg (by omega), if_neg (by omega), hbytes, fromUtf8_utf8Bytes]

/-- The offsets and the data a packed payload carries. -/
structure Packs (arr : StringArray) (n : ℕ) (offsetsBytes dataBytes : List UInt8) : Prop where
  length : offsetsBytes.length = (n + 1) * 4
  offsets : ∀ i ≤ n, n ≠ 0 → readOffset offsetsBytes i = arr.offset i
  data : n ≠ 0 → dataBytes = arr.bytes.take (arr.offset n).toNat

theorem dataAndValidUtf8_eq_ok {arr : StringArray} {rows : List (Option String)}
    (h : arr.Holds rows) (hrows : rows.length < 2 ^ 32) :
    ∃ offsetsBytes dataBytes valid, Packs arr rows.length offsetsBytes dataBytes ∧
      Flags valid rows ∧ dataAndValidUtf8 arr rows.length =
        .ok (encode 4 rows.length ++ offsetsBytes ++ dataBytes, valid) := by
  set n := rows.length with hn
  set offsetsBytes := (padTo ((n + 1) * 4) (arr.offsets.getD [])).take ((n + 1) * 4) with hoffs
  have hlen : offsetsBytes.length = (n + 1) * 4 := by
    rw [hoffs, List.length_take, Nat.min_eq_left (length_padTo _ _)]
  have hread : ∀ i ≤ n, n ≠ 0 → readOffset offsetsBytes i = arr.offset i := by
    intro i hi h0
    have htable := h.table (by intro hnil; rw [hnil] at hn; exact h0 hn)
    rw [hoffs, padTo_of_le htable, readOffset, cell_take (by omega)]
    rfl
  set total := if n = 0 then 0 else readOffset offsetsBytes n with htotal
  have hnonneg : 0 ≤ total := by
    rw [htotal]
    split_ifs with h0
    · exact le_rfl
    · rw [hread n le_rfl h0]
      exact h.offset_nonneg le_rfl
  refine ⟨offsetsBytes, (padTo total.toNat arr.bytes).take total.toNat, _,
    ⟨hlen, hread, fun h0 => ?_⟩, flags_padTo h, ?_⟩
  · have heq : total = arr.offset n := by rw [htotal, if_neg h0, hread n le_rfl h0]
    have hle : (arr.offset n).toNat ≤ arr.bytes.length := Int.toNat_le.2 h.last
    rw [heq, padTo_of_le hle]
  · unfold dataAndValidUtf8
    simp only [← hoffs, ← htotal]
    rw [if_neg (not_lt.2 hnonneg), if_neg (not_le.2 hrows)]
    rfl

/-- The crate parses the packed payload back into the rows. -/
theorem parse_pack {arr : StringArray} {rows : List (Option String)}
    (h : arr.Holds rows) (hrows : rows.length < 2 ^ 32) :
    ∃ data valid, dataAndValidUtf8 arr rows.length = .ok (data, valid) ∧ Flags valid rows ∧
      parseUtf8Key rows.length data valid = .ok rows := by
  obtain ⟨offsetsBytes, dataBytes, valid, hpack, hflags, hrun⟩ := dataAndValidUtf8_eq_ok h hrows
  refine ⟨_, valid, hrun, hflags, ?_⟩
  have hlen := @length_packed rows.length ((rows.length + 1) * 4) offsetsBytes dataBytes hpack.length
  have hdrop : (encode 4 rows.length ++ offsetsBytes ++ dataBytes).drop 4 =
      offsetsBytes ++ dataBytes := by
    rw [List.append_assoc, List.drop_left' (length_encode 4 _)]
  unfold parseUtf8Key
  rw [if_neg (by omega), packed_header hrows, hdrop]
  simp only [ne_eq, not_true_eq_false, if_false]
  rw [if_neg (by omega), if_neg (by have := hflags.1; omega), packed_bytes hpack.length]
  have hall : (List.range rows.length).mapM
      (parseRow ((List.range (rows.length + 1)).map (readOffset (offsetsBytes ++ dataBytes)))
        dataBytes valid) = .ok ((List.range rows.length).map (fun i => rows.getD i none)) := by
    refine mapM_eq_ok (fun r hr => ?_)
    have hr := List.mem_range.1 hr
    have h0 : rows.length ≠ 0 := by omega
    have hget : rows.getD r none = rows[r] := by
      rw [List.getD_eq_getElem?_getD, List.getElem?_eq_getElem hr, Option.getD_some]
    have hoffset : ∀ i ≤ rows.length,
        ((List.range (rows.length + 1)).map (readOffset (offsetsBytes ++ dataBytes))).getD i 0 =
          ((arr.offset i).toNat : ℤ) := by
      intro i hi
      have hcell : cell 4 (offsetsBytes ++ dataBytes) i = cell 4 offsetsBytes i := by
        rw [← cell_take (n := rows.length + 1) (by omega), List.take_left' hpack.length]
      rw [List.getD_eq_getElem?_getD, List.getElem?_map, List.getElem?_range (by omega)]
      simp only [Option.map_some, Option.getD_some]
      rw [readOffset, hcell, ← readOffset, hpack.offsets i hi h0,
        Int.toNat_of_nonneg (h.offset_nonneg hi)]
    have hbytes := hpack.data h0
    have hlast := h.last
    rw [hget]
    refine parseRow_eq_ok (hflags.2 r hr) (fun s hs => ⟨_, _, hoffset r (by omega),
      hoffset (r + 1) (by omega), ?_, ?_, ?_⟩)
    · exact Int.toNat_le_toNat (h.mono r hr)
    · have hle := h.offset_le_last (i := r + 1) (by omega)
      rw [hbytes, List.length_take]
      omega
    · have hle := h.offset_le_last (i := r + 1) (by omega)
      rw [← h.strings r hr s hs, hbytes, List.drop_take, List.take_take]
      congr 1
      omega
  rw [hall]
  refine congrArg Except.ok (List.ext_getElem (by simp) (fun i hi hi' => ?_))
  rw [List.getElem_map, List.getElem_range, List.getD_eq_getElem?_getD,
    List.getElem?_eq_getElem hi', Option.getD_some]

/-! The dictionary numbers the distinct strings. -/

/-- After some rows: the map inverts the dictionary, and each row's code names its string. -/
structure DictInv (rows : List (Option String)) (s : DictState) : Prop where
  seen : ∀ (str : String) (c : ℕ), s.seen[str]? = some c ↔ s.dict[c]? = some str
  short : s.dict.length ≤ rows.length
  length : s.codes.length = rows.length
  codes : ∀ (i : ℕ) (str : String), rows[i]? = some (some str) →
    ∃ c, s.codes[i]? = some c ∧ s.dict[c]? = some str

theorem DictInv.inj {rows : List (Option String)} {s : DictState} (h : DictInv rows s) {c c' : ℕ}
    {str : String} (hc : s.dict[c]? = some str) (hc' : s.dict[c']? = some str) : c = c' :=
  Option.some.inj (((h.seen str c).2 hc).symm.trans ((h.seen str c').2 hc'))

/-- Appending a code keeps the codes of the earlier rows. -/
theorem codes_append {rows : List (Option String)} {row : Option String} {codes : List ℕ} {c : ℕ}
    {dict : List String} (hlen : codes.length = rows.length)
    (hold : ∀ (i : ℕ) (str : String), rows[i]? = some (some str) →
      ∃ c, codes[i]? = some c ∧ dict[c]? = some str)
    (hnew : ∀ str, row = some str → dict[c]? = some str) :
    ∀ (i : ℕ) (str : String), (rows ++ [row])[i]? = some (some str) →
      ∃ c', (codes ++ [c])[i]? = some c' ∧ dict[c']? = some str := by
  intro i str hi
  rcases lt_trichotomy i rows.length with hlt | rfl | hgt
  · rw [List.getElem?_append_left hlt] at hi
    rw [List.getElem?_append_left (by omega)]
    exact hold i str hi
  · rw [List.getElem?_append_right le_rfl, Nat.sub_self] at hi
    refine ⟨c, ?_, hnew str (by simpa using hi)⟩
    rw [List.getElem?_append_right (by omega), hlen, Nat.sub_self]
    rfl
  · rw [List.getElem?_eq_none (by simp; omega)] at hi
    cases hi

theorem dictInv_step {rows : List (Option String)} {s : DictState} (h : DictInv rows s)
    (hrows : rows.length < 2 ^ 32) (row : Option String) :
    DictInv (rows ++ [row]) (dictStep s row) := by
  have hlen : ∀ c, (s.codes ++ [c]).length = (rows ++ [row]).length := by
    intro c
    rw [List.length_append, List.length_append, h.length]
    rfl
  have hshort : s.dict.length ≤ (rows ++ [row]).length := by
    rw [List.length_append]
    exact h.short.trans (Nat.le_add_right _ _)
  rcases row with _ | str
  · exact ⟨h.seen, hshort, hlen 0, codes_append h.length h.codes nofun⟩
  · rcases hseen : s.seen[str]? with _ | c
    · -- a string not seen before takes the next code
      have hcode : asU32 s.dict.length = s.dict.length :=
        Nat.mod_eq_of_lt (h.short.trans_lt hrows)
      simp only [dictStep, hseen, hcode]
      have hnew : (s.dict ++ [str])[s.dict.length]? = some str := by
        rw [List.getElem?_append_right le_rfl, Nat.sub_self]
        rfl
      refine ⟨fun x c => ?_, ?_, hlen _, ?_⟩
      · rw [Std.HashMap.getElem?_insert]
        by_cases hx : str = x
        · subst hx
          rw [if_pos (by simp)]
          refine ⟨fun hc => ?_, fun hc => ?_⟩
          · cases hc
            exact hnew
          · by_cases hlt : c < s.dict.length
            · rw [List.getElem?_append_left hlt, ← h.seen, hseen] at hc
              cases hc
            · have := (List.getElem?_eq_some_iff.1 hc).1
              rw [List.length_append, List.length_singleton] at this
              rw [show c = s.dict.length by omega]
        · rw [if_neg (by simpa using hx), h.seen]
          by_cases hlt : c < s.dict.length
          · rw [List.getElem?_append_left hlt]
          · rw [List.getElem?_eq_none (by omega), List.getElem?_append_right (by omega)]
            refine ⟨fun hc => (nomatch hc), fun hc => ?_⟩
            obtain ⟨hi, hget⟩ := List.getElem?_eq_some_iff.1 hc
            rw [List.length_singleton] at hi
            simp only [show c - s.dict.length = 0 by omega, List.getElem_cons_zero] at hget
            exact absurd hget hx
      · rw [List.length_append, List.length_append]
        exact Nat.add_le_add_right h.short 1
      · refine codes_append h.length (fun i x hi => ?_) (fun x hx => ?_)
        · obtain ⟨c, hc, hdict⟩ := h.codes i x hi
          refine ⟨c, hc, ?_⟩
          rw [List.getElem?_append_left (List.getElem?_eq_some_iff.1 hdict).1]
          exact hdict
        · cases hx
          exact hnew
    · simp only [dictStep, hseen]
      refine ⟨h.seen, hshort, hlen c, codes_append h.length h.codes (fun x hx => ?_)⟩
      cases hx
      exact (h.seen str c).1 hseen

theorem dictInv_foldl {rows : List (Option String)} (hrows : rows.length < 2 ^ 32) :
    DictInv rows (rows.foldl dictStep ⟨[], ∅, [], []⟩) := by
  induction rows using List.reverseRecOn with
  | nil => exact ⟨by simp, le_rfl, rfl, by simp⟩
  | append_singleton rows row ih =>
    rw [List.length_append, List.length_singleton] at hrows
    rw [List.foldl_append]
    exact dictInv_step (ih (by omega)) (by omega) row

/-! The key column. -/

section Column

variable {rows : List (Option String)} {s : DictState} {valid : List UInt8} (name : String)

/-- The column the crate groups by. -/
def stringColumn (name : String) (nRows : ℕ) (s : DictState) (valid : List UInt8) : KeyColumn :=
  ⟨name, .utf8, table 4 s.codes, valid, nRows, some s.dict⟩

variable (hinv : DictInv rows s) (hrows : rows.length < 2 ^ 32) (hflags : Flags valid rows)

include hinv hflags in
theorem stringColumn_wf : (stringColumn name rows.length s valid).Wf rows.length := by
  refine ⟨rfl, fun _ h => (nomatch h), ?_, hflags.1⟩
  change rows.length * 4 ≤ (table 4 s.codes).length
  rw [length_table, hinv.length]

include hflags in
theorem stringColumn_isValid {i : ℕ} (hi : i < rows.length) :
    (stringColumn name rows.length s valid).isValid i = (rows[i]).isSome := by
  have hbit := hflags.2 i hi
  change (bitAt valid i != 0) = _
  rcases bitAt_eq_zero_or_one valid i with h | h
  · rcases hrow : rows[i] with _ | str
    · rw [h]
      rfl
    · rw [hrow] at hbit
      rw [hbit.2 (by simp)] at h
      cases h
  · rcases hrow : rows[i] with _ | str
    · exact absurd hrow (hbit.1 h)
    · rw [h]
      rfl

include hinv hrows in
/-- A valid row's bits are its string's position in the dictionary. -/
theorem stringColumn_bitsAt (valid : List UInt8) {i : ℕ} {str : String} (hi : rows[i]? = some (some str)) :
    ∃ c < 2 ^ 32, s.dict[c]? = some str ∧
      (stringColumn name rows.length s valid).bitsAt i = BitVec.ofNat 32 c := by
  obtain ⟨c, hc, hdict⟩ := hinv.codes i str hi
  have hlt : c < 2 ^ 32 := by
    have := (List.getElem?_eq_some_iff.1 hdict).1
    have := hinv.short
    omega
  obtain ⟨hlen, hget⟩ := List.getElem?_eq_some_iff.1 hc
  refine ⟨c, hlt, hdict, ?_⟩
  have hcell : decode (cell 4 (table 4 s.codes) i) = c := by
    rw [← List.append_nil (table 4 s.codes), decode_cell_table hlen (by rw [hget]; omega), hget]
  change BitVec.ofNat 32 (decode (cell 4 (table 4 s.codes) i)) = _
  rw [hcell]

include hinv hrows hflags

theorem stringColumn_valueAt {i : ℕ} (hi : i < rows.length) :
    ((stringColumn name rows.length s valid).valueAt i : String) = (rows[i]).getD "" := by
  have hvalid := stringColumn_isValid (s := s) name hflags hi
  rw [KeyColumn.valueAt, hvalid]
  rcases hrow : rows[i] with _ | str
  · rfl
  · have hget : rows[i]? = some (some str) := by rw [List.getElem?_eq_getElem hi, hrow]
    obtain ⟨c, hc, hdict, hbits⟩ := stringColumn_bitsAt name hinv hrows valid hget
    simp only [Option.isSome_some, if_true, Option.getD_some]
    have hcode : ((stringColumn name rows.length s valid).bitsAt i).toNat = c := by
      rw [hbits]
      exact Nat.mod_eq_of_lt hc
    exact (congrArg (fun k => (s.dict[k]?).getD "") hcode).trans (by rw [hdict, Option.getD_some])

theorem stringColumn_sameKey {i j : ℕ} (hi : i < rows.length) (hj : j < rows.length) :
    (stringColumn name rows.length s valid).SameKey i j ↔ rows[i] = rows[j] := by
  have hvi := stringColumn_isValid (s := s) name hflags hi
  have hvj := stringColumn_isValid (s := s) name hflags hj
  unfold KeyColumn.SameKey
  rw [hvi, hvj]
  rcases hri : rows[i] with _ | x <;> rcases hrj : rows[j] with _ | y
  · simp
  · simp
  · simp
  · have hgi : rows[i]? = some (some x) := by rw [List.getElem?_eq_getElem hi, hri]
    have hgj : rows[j]? = some (some y) := by rw [List.getElem?_eq_getElem hj, hrj]
    obtain ⟨c, hc, hdc, hbc⟩ := stringColumn_bitsAt name hinv hrows valid hgi
    obtain ⟨c', hc', hdc', hbc'⟩ := stringColumn_bitsAt name hinv hrows valid hgj
    have hbits : BitVec.ofNat 32 c = BitVec.ofNat 32 c' ↔ c = c' := by
      refine ⟨fun h => ?_, fun h => h ▸ rfl⟩
      have := congrArg BitVec.toNat h
      rwa [BitVec.toNat_ofNat, BitVec.toNat_ofNat, Nat.mod_eq_of_lt hc, Nat.mod_eq_of_lt hc'] at this
    rw [hbc, hbc']
    simp only [Option.isSome_some, reduceCtorEq, false_and, true_and, false_or, Option.some.injEq]
    refine hbits.trans ⟨fun h => ?_, fun h => ?_⟩
    · rw [h, hdc'] at hdc
      exact (Option.some.inj hdc).symm
    · rw [← h] at hdc'
      exact hinv.inj hdc hdc'

end Column

/-! The output keys. -/

def rowBytesOf (row : Option String) : List UInt8 := row.elim [] utf8Bytes

/-- The UTF-8 bytes of all the strings. -/
def totalBytes (rows : List (Option String)) : ℕ := (rows.map (fun r => (rowBytesOf r).length)).sum

def stringCell (row : Option String) : Option Cell := row.map (fun s => .str (utf8Bytes s))

/-- Distinct rows hold no more bytes than all of them. -/
theorem totalBytes_picked {rows : List (Option String)} {picked : List ℕ} (hnodup : picked.Nodup)
    (hlt : ∀ r ∈ picked, r < rows.length) :
    totalBytes (picked.map (fun r => rows.getD r none)) ≤ totalBytes rows := by
  have hall : rows = (List.range rows.length).map (fun r => rows.getD r none) := by
    refine List.ext_getElem (by simp) (fun i hi _ => ?_)
    rw [List.getElem_map, List.getElem_range, List.getD_eq_getElem?_getD,
      List.getElem?_eq_getElem hi, Option.getD_some]
  have hsum : ∀ rs : List ℕ, rs.Nodup → totalBytes (rs.map (fun r => rows.getD r none)) =
      rs.toFinset.sum (fun r => (rowBytesOf (rows.getD r none)).length) := by
    intro rs hrs
    rw [totalBytes, List.map_map, List.sum_toFinset _ hrs]
    rfl
  rw [hsum picked hnodup]
  conv_rhs => rw [hall, hsum _ List.nodup_range]
  refine Finset.sum_le_sum_of_subset (fun r hr => ?_)
  rw [List.mem_toFinset] at hr ⊢
  exact List.mem_range.2 (hlt r hr)

theorem length_chunks_rows (rows : List (Option String)) :
    (chunks (rows.map (fun r => r.getD "")) (rows.map Option.isSome)).flatten.length =
      totalBytes rows := by
  induction rows with
  | nil => rfl
  | cons r rows ih =>
    have hcons : chunks ((r :: rows).map (fun r => r.getD "")) ((r :: rows).map Option.isSome) =
        rowBytesOf r :: chunks (rows.map (fun r => r.getD "")) (rows.map Option.isSome) := by
      cases r <;> rfl
    rw [hcons, List.flatten_cons, List.length_append, ih]
    rfl

theorem zipCells_rows (rows : List (Option String)) :
    zipCells (fun v => Cell.str (utf8Bytes v)) (rows.map (fun r => r.getD ""))
      (rows.map Option.isSome) = rows.map stringCell := by
  induction rows with
  | nil => rfl
  | cons r rows ih =>
    rw [List.map_cons, List.map_cons, List.map_cons, ← ih]
    cases r <;> rfl

/-- The decoded column of some rows' strings. -/
def stringKeys (rows : List (Option String)) : DecodedColumn :=
  ⟨.utf8, rows.map (fun r => r.getD ""), rows.map Option.isSome⟩

/-- Any rows' strings, written out and reassembled, are those rows' strings. -/
theorem assembleSeries_rows (name : String) {rows : List (Option String)}
    (hrows : rows.length < 2 ^ 32) (hsize : totalBytes rows < 2 ^ 31) :
    assembleSeries (encodeDecodedColumn name (stringKeys rows)) rows.length =
      .ok ⟨name, rows.map stringCell⟩ := by
  have hlen : (rows.map (fun r => r.getD "")).length = rows.length := List.length_map _
  have htext := (length_chunks_rows rows).trans_lt hsize
  rw [← zipCells_rows]
  exact assembleSeries_utf8 name hlen (List.length_map _) hrows htext

theorem keyWidth_stringColumn (name : String) (nRows : ℕ) (s : DictState) (valid : List UInt8) :
    keyWidth [stringColumn name nRows s valid] ≤ 128 := by
  change 1 + KeyDtype.dataBits .utf8 + 0 ≤ 128
  decide

/-- Decoding the lanes of some rows gives those rows' strings. -/
theorem columnOf_strings {rows : List (Option String)} {s : DictState} {valid : List UInt8}
    (name : String) (hinv : DictInv rows s) (hrows : rows.length < 2 ^ 32)
    (hflags : Flags valid rows) {picked : List ℕ} (hpicked : ∀ r ∈ picked, r < rows.length) :
    (fieldsFrom 0 [stringColumn name rows.length s valid]).map (columnOf (picked.map
        (encodeRow [stringColumn name rows.length s valid]
          (fieldsFrom 0 [stringColumn name rows.length s valid])))) =
      [stringKeys (picked.map (fun r => rows.getD r none))] := by
  set col := stringColumn name rows.length s valid with hcol
  have hcolumn := columnOf_encodeRows (keyWidth_stringColumn name rows.length s valid)
    (show (col, ⟨col.name, col.dtype, 0, 1, col.dict⟩) ∈ placed [col] from
      List.mem_singleton.2 rfl) picked
  have hget : ∀ r ∈ picked, ∃ h : r < rows.length, rows.getD r none = rows[r] := by
    intro r hr
    refine ⟨hpicked r hr, ?_⟩
    rw [List.getD_eq_getElem?_getD, List.getElem?_eq_getElem (hpicked r hr), Option.getD_some]
  have hvalues : (picked.map col.valueAt : List String) =
      (picked.map (fun r => rows.getD r none)).map (fun r => r.getD "") := by
    rw [List.map_map]
    refine List.map_congr_left (fun r hr => ?_)
    obtain ⟨h, heq⟩ := hget r hr
    rw [Function.comp_apply, heq]
    exact stringColumn_valueAt name hinv hrows hflags h
  have hvalids : picked.map col.isValid =
      (picked.map (fun r => rows.getD r none)).map Option.isSome := by
    rw [List.map_map]
    refine List.map_congr_left (fun r hr => ?_)
    obtain ⟨h, heq⟩ := hget r hr
    rw [Function.comp_apply, heq]
    exact stringColumn_isValid name hflags h
  have hkeys := congrArg₂ (fun (v : List String) f => (⟨.utf8, v, f⟩ : DecodedColumn)) hvalues hvalids
  exact congrArg (fun d => [d]) (hcolumn.trans hkeys)

/-- Strings survive the dictionary path: packing and parsing succeed, rows share a group exactly
when both are null or hold the same string, and each group's output key is its rows' string. -/
theorem string_keys_survive {arr : StringArray} {rows : List (Option String)} (name : String)
    (harr : arr.Holds rows) (hsize : totalBytes rows < 2 ^ 31) (hrows : rows.length < 2 ^ 32) :
    ∃ data valid col lanes schema,
      dataAndValidUtf8 arr rows.length = .ok (data, valid) ∧
      utf8KeyColumn name rows.length data valid = .ok col ∧
      encodeKeys [col] = .ok (lanes, schema) ∧
      ∀ g deviceOk, GpuRun.Sound g deviceOk lanes → ∃ out,
        dispatchBuild g deviceOk lanes rows.length = .ok out ∧
        (∀ i j : ℕ, i < rows.length → j < rows.length →
          (out.rowToGroup[i]? = out.rowToGroup[j]? ↔ rows[i]? = rows[j]?)) ∧
        ∃ d cells, decodeKeys (representativeKeys lanes out) schema = some [d] ∧
          assembleSeries (encodeDecodedColumn name d) out.nGroups = .ok ⟨name, cells⟩ ∧
          cells.length = out.nGroups ∧
          ∀ i gid : ℕ, out.rowToGroup[i]? = some gid →
            ∃ row, rows[i]? = some row ∧ cells[gid]? = some (stringCell row) := by
  obtain ⟨data, valid, hpack, hflags, hparse⟩ := parse_pack harr hrows
  set s := rows.foldl dictStep ⟨[], ∅, [], []⟩ with hs
  have hinv : DictInv rows s := dictInv_foldl hrows
  set col := stringColumn name rows.length s valid with hcol
  have hkey : utf8KeyColumn name rows.length data valid = .ok col := by
    unfold utf8KeyColumn
    rw [hparse]
    rfl
  have hwidth : keyWidth [col] ≤ 128 := keyWidth_stringColumn _ _ _ _
  have henc : Encodable [col] rows.length :=
    ⟨by simp, by simpa using stringColumn_wf name hinv hflags, hwidth⟩
  set enc := encodeRow [col] (fieldsFrom 0 [col]) with henc'
  set lanes := (List.range rows.length).map enc with hlanes
  have hlen : lanes.length = rows.length := by simp [hlanes]
  have hlane : ∀ i, i < rows.length → lanes[i]? = some (enc i) := by
    intro i hi
    rw [hlanes, List.getElem?_map, List.getElem?_range hi]
    rfl
  have hsame : ∀ i j (hi : i < rows.length) (hj : j < rows.length),
      enc i = enc j ↔ rows[i] = rows[j] := by
    intro i j hi hj
    rw [henc', encodeRow_eq_iff hwidth, List.forall_mem_singleton]
    exact stringColumn_sameKey name hinv hrows hflags hi hj
  refine ⟨data, valid, col, lanes, ⟨fieldsFrom 0 [col], keyWidth [col], rows.length⟩, hpack, hkey,
    (encodeKeys_eq_ok_iff _ _ _).2 ⟨rows.length, henc, rfl, rfl⟩, ?_⟩
  intro g deviceOk hsound
  obtain ⟨out, hrun, hgroups⟩ := groups_dispatchBuild (hlen ▸ hrows) hsound
  rw [hlen] at hrun
  refine ⟨out, hrun, ?_, ?_⟩
  · intro i j hi hj
    have hiff := hgroups.same_iff i j (hlen ▸ hi) (hlen ▸ hj)
    have hi' := Option.some.inj ((List.getElem?_eq_getElem (hlen ▸ hi)).symm.trans (hlane i hi))
    have hj' := Option.some.inj ((List.getElem?_eq_getElem (hlen ▸ hj)).symm.trans (hlane j hj))
    rw [hiff, hi', hj', hsame i j hi hj, List.getElem?_eq_getElem hi, List.getElem?_eq_getElem hj,
      Option.some.injEq]
  · have hfirst : ∀ r ∈ out.firstRowPerGroup, r < rows.length :=
      fun r hr => hlen ▸ hgroups.first_lt hr
    set picked := out.firstRowPerGroup.map (fun r => rows.getD r none) with hpicked
    have hcount : picked.length = out.nGroups := by
      rw [hpicked, List.length_map, hgroups.length_firsts]
    have hreps : representativeKeys lanes out = out.firstRowPerGroup.map enc := by
      refine List.map_congr_left (fun r hr => ?_)
      rw [List.getD_eq_getElem?_getD, hlane r (hfirst r hr), Option.getD_some]
    refine ⟨stringKeys picked, picked.map stringCell, ?_, ?_,
      by rw [List.length_map, hcount], ?_⟩
    · rw [hreps, decodeKeys_eq]
      exact congrArg some (columnOf_strings name hinv hrows hflags hfirst)
    · rw [← hcount]
      refine assembleSeries_rows name ?_ ?_
      · rw [hcount]
        exact hgroups.count_le.trans_lt (hlen ▸ hrows)
      · exact (totalBytes_picked hgroups.nodup_firsts hfirst).trans_lt hsize
    · intro i gid hgid
      have hi : i < rows.length := by
        have := (List.getElem?_eq_some_iff.1 hgid).1
        rwa [hgroups.length_ids, hlen] at this
      obtain ⟨r, hr, hkeys⟩ := hgroups.key_firstRow (hlen ▸ hi) hgid
      have hrlt := hfirst r (List.mem_of_getElem? hr)
      have hi' := Option.some.inj ((List.getElem?_eq_getElem (hlen ▸ hi)).symm.trans (hlane i hi))
      rw [hlane r hrlt, hi', Option.some.injEq, hsame r i hrlt hi] at hkeys
      refine ⟨rows[i], List.getElem?_eq_getElem hi, ?_⟩
      rw [List.getElem?_map, hpicked, List.getElem?_map, hr]
      simp only [Option.map_some]
      rw [List.getD_eq_getElem?_getD, List.getElem?_eq_getElem hrlt, Option.getD_some, hkeys]

/-! An array of any rows: every null has a byte under it. -/

def chunkOf (row : Option String) : List UInt8 := row.elim [0x7A] utf8Bytes

def StringArray.ofRows (rows : List (Option String)) : StringArray where
  valid := some (packBits ((rows.length + 7) / 8) (rows.map Option.isSome))
  offsets := some (table 4 (starts 0 (rows.map chunkOf)))
  data := some (rows.map chunkOf).flatten

theorem StringArray.ofRows_holds {rows : List (Option String)}
    (h : (rows.map chunkOf).flatten.length < 2 ^ 31) : (StringArray.ofRows rows).Holds rows := by
  set cs := rows.map chunkOf with hcs
  have hlen : cs.length = rows.length := by rw [hcs, List.length_map]
  have hoffset : ∀ i ≤ rows.length,
      (StringArray.ofRows rows).offset i = (cs.take i).flatten.length := fun i hi => by
    have hread := readOffset_starts h (i := i) (hlen.symm ▸ hi) []
    rwa [List.append_nil] at hread
  refine ⟨fun i hi => ⟨fun bits hbits => ?_, fun hnone => by cases hnone⟩, fun _ => ?_, ?_,
    fun i hi => ?_, ?_, fun i hi s hs => ?_⟩
  · obtain rfl := Option.some.inj hbits
    rw [bitAt_packBits (by rw [List.length_map]; omega), List.getD_eq_getElem?_getD,
      List.getElem?_map, List.getElem?_eq_getElem hi]
    rcases rows[i] with _ | s <;> simp
  · exact (by rw [length_table, length_starts, hlen] :
      (table 4 (starts 0 cs)).length = (rows.length + 1) * 4).ge
  · exact (hoffset 0 (Nat.zero_le _)).symm ▸ Int.natCast_nonneg _
  · rw [hoffset i hi.le, hoffset (i + 1) hi, List.take_succ_eq_append_getElem (hlen.symm ▸ hi),
      List.flatten_append, List.length_append]
    omega
  · rw [hoffset rows.length le_rfl, ← hlen, List.take_length]
    exact le_rfl
  · have hslice := slice_flatten (hlen.symm ▸ hi : i < cs.length) []
    rw [List.append_nil] at hslice
    rw [hoffset i hi.le, hoffset (i + 1) hi, Int.toNat_natCast, Int.toNat_natCast]
    refine hslice.trans ?_
    simp only [hcs, List.getElem_map, hs]
    rfl

/-- "é", a null, "" and "é" again, over 500000 rows. -/
def sampleRows : List (Option String) :=
  (List.replicate 125000 [some "é", none, some "", some "é"]).flatten

/-- A run of the host's own launch, with rows enough for the GPU build. -/
theorem string_keys_survive_sample :
    ∃ data valid col lanes schema,
      dataAndValidUtf8 (.ofRows sampleRows) sampleRows.length = .ok (data, valid) ∧
      utf8KeyColumn "k" sampleRows.length data valid = .ok col ∧
      encodeKeys [col] = .ok (lanes, schema) ∧
      ∃ schedule out, (hostLaunch lanes.length schedule).Sound true lanes ∧
        dispatchBuild (hostLaunch lanes.length schedule) true lanes sampleRows.length = .ok out ∧
        (∀ i j : ℕ, i < sampleRows.length → j < sampleRows.length →
          (out.rowToGroup[i]? = out.rowToGroup[j]? ↔ sampleRows[i]? = sampleRows[j]?)) ∧
        ∃ d cells, decodeKeys (representativeKeys lanes out) schema = some [d] ∧
          assembleSeries (encodeDecodedColumn "k" d) out.nGroups = .ok ⟨"k", cells⟩ ∧
          cells.length = out.nGroups ∧
          ∀ i gid : ℕ, out.rowToGroup[i]? = some gid →
            ∃ row, sampleRows[i]? = some row ∧ cells[gid]? = some (stringCell row) := by
  have hrows : sampleRows.length = 500000 := length_flatten_replicate 125000 _
  have hchunks : (sampleRows.map chunkOf).flatten.length < 2 ^ 31 := by
    rw [sampleRows, List.map_flatten, List.map_replicate, List.flatten_flatten, List.map_replicate,
      length_flatten_replicate]
    decide
  have htotal : totalBytes sampleRows < 2 ^ 31 := by
    rw [totalBytes, sampleRows, List.map_flatten, List.map_replicate, List.sum_flatten,
      List.map_replicate, List.sum_replicate]
    decide
  obtain ⟨data, valid, col, lanes, schema, hpack, hkey, henc, hall⟩ :=
    string_keys_survive "k" (StringArray.ofRows_holds hchunks) htotal (by rw [hrows]; decide)
  obtain ⟨nRows, hcols, rfl, -⟩ := (encodeKeys_eq_ok_iff [col] lanes schema).1 henc
  have hnRows : nRows = 500000 := by
    obtain ⟨strings, -, hcol⟩ := bind_eq_ok.1 hkey
    obtain rfl := pure_eq_ok.1 hcol
    exact (hcols.wf _ (List.mem_singleton.2 rfl)).rows.symm.trans hrows
  have hlen : ((List.range nRows).map (encodeRow [col] (fieldsFrom 0 [col]))).length = 500000 := by
    rw [List.length_map, List.length_range, hnRows]
  obtain ⟨schedule, hsound⟩ :=
    exists_sound true (hlen.symm ▸ (show 500000 + 256 < 2 ^ 32 by decide))
  obtain ⟨out, hout⟩ := hall _ true hsound
  exact ⟨data, valid, col, _, schema, hpack, hkey, henc, schedule, out, hsound, hout⟩

end PolarsMetal.Wire
