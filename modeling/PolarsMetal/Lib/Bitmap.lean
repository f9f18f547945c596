import Mathlib.Tactic

/-! Bit-packed buffers: bit `i` is bit `i % 8` of byte `i / 8`. A writer that ORs
single bits into 32-bit words produces the same bytes whatever order its
threads run in. -/

namespace Bitmap

/-- Bit `i` of a bitmap, as a byte that is 0 or 1. -/
def bitAt (bytes : List UInt8) (i : ℕ) : UInt8 :=
  (bytes.getD (i >>> 3) 0 >>> UInt8.ofNat (i &&& 7)) &&& 1

def orBit (words : List (BitVec 32)) (i : ℕ) : List (BitVec 32) :=
  words.modify (i >>> 5) (fun word => word ||| 1#32 <<< (i &&& 31))

def wordBytes (word : BitVec 32) : List UInt8 :=
  (List.range 4).map (fun b => UInt8.ofBitVec ((word >>> (8 * b)).setWidth 8))

/-- The words as little-endian bytes. -/
def toBytes (words : List (BitVec 32)) : List UInt8 := words.flatMap wordBytes

def wordBit (words : List (BitVec 32)) (i : ℕ) : Bool := (words.getD (i / 32) 0).getLsbD (i % 32)

theorem and_mask (i k : ℕ) : i &&& (2 ^ k - 1) = i % 2 ^ k := Nat.and_two_pow_sub_one_eq_mod i k

theorem toNat_and_one (x : UInt8) : (x &&& 1).toNat = x.toNat % 2 := by
  simp [Nat.and_one_is_mod]

theorem bitAt_toNat (bytes : List UInt8) (i : ℕ) :
    (bitAt bytes i).toNat = ((bytes.getD (i / 8) 0).toBitVec.getLsbD (i % 8)).toNat := by
  have h7 : i &&& 7 = i % 8 := and_mask i 3
  have hlt : i % 8 < 256 := by omega
  rw [bitAt, toNat_and_one, UInt8.toNat_shiftRight, h7, Nat.shiftRight_eq_div_pow i 3,
    UInt8.toNat_ofNat', Nat.mod_eq_of_lt hlt, Nat.mod_mod, BitVec.getLsbD, Nat.testBit, Nat.one_and_eq_mod_two,
    UInt8.toNat_toBitVec]
  rcases Nat.mod_two_eq_zero_or_one ((bytes.getD (i / 2 ^ 3) 0).toNat >>> (i % 8)) with h | h <;>
    simp_all

theorem bitAt_eq (bytes : List UInt8) (i : ℕ) :
    bitAt bytes i = if (bytes.getD (i / 8) 0).toBitVec.getLsbD (i % 8) then 1 else 0 := by
  apply UInt8.toNat_inj.1
  rw [bitAt_toNat]
  split_ifs with h
  · rw [h]; rfl
  · rw [Bool.not_eq_true] at h; rw [h]; rfl

theorem bitAt_eq_zero_or_one (bytes : List UInt8) (i : ℕ) : bitAt bytes i = 0 ∨ bitAt bytes i = 1 := by
  rw [bitAt_eq]
  split_ifs
  · exact Or.inr rfl
  · exact Or.inl rfl

/-- The bytes that hold `nRows` bits are enough to read any of them. -/
theorem bitAt_take {bytes : List UInt8} {nRows row : ℕ} (h : row < nRows) :
    bitAt (bytes.take ((nRows + 7) / 8)) row = bitAt bytes row := by
  have : row >>> 3 < (nRows + 7) / 8 := by
    rw [Nat.shiftRight_eq_div_pow]
    omega
  rw [bitAt, bitAt, List.getD_eq_getElem?_getD, List.getElem?_take_of_lt this,
    ← List.getD_eq_getElem?_getD]

theorem length_orBit (words : List (BitVec 32)) (i : ℕ) : (orBit words i).length = words.length := by
  simp [orBit]

theorem length_foldl_orBit (words : List (BitVec 32)) (is : List ℕ) :
    (is.foldl orBit words).length = words.length := by
  induction is generalizing words with
  | nil => rfl
  | cons i is ih => rw [List.foldl_cons, ih, length_orBit]

theorem wordBit_orBit (words : List (BitVec 32)) {i : ℕ} (hi : i < 32 * words.length) (j : ℕ) :
    wordBit (orBit words i) j = (wordBit words j || decide (i = j)) := by
  have h31 : i &&& 31 = i % 32 := and_mask i 5
  have h5 : i >>> 5 = i / 32 := Nat.shiftRight_eq_div_pow i 5
  simp only [wordBit, orBit, h31, h5, List.getD_eq_getElem?_getD, List.getElem?_modify]
  by_cases hword : i / 32 = j / 32
  · have hj : j / 32 < words.length := by omega
    simp only [hword, List.getElem?_eq_getElem hj, Option.map_eq_map, Option.map_some,
      Option.getD_some, if_true, BitVec.getLsbD_or]
    congr 1
    have hbit : (1#32 <<< (i % 32)).getLsbD (j % 32) = decide (i % 32 = j % 32) := by
      rw [BitVec.getLsbD_shiftLeft]
      by_cases h : i % 32 = j % 32
      · simp [h, show j % 32 < 32 by omega]
      · rcases Nat.lt_or_gt_of_ne h with h' | h'
        · have : j % 32 - i % 32 ≠ 0 := by omega
          simp [h, this]
        · simp [h, h']
    rw [hbit]
    exact decide_eq_decide.2 (by omega)
  · have : i ≠ j := by rintro rfl; exact hword rfl
    simp [hword, this]

/-- After any sequence of OR writes, bit `j` is set iff it was set or some write was to `j`. -/
theorem wordBit_foldl_orBit (words : List (BitVec 32)) {is : List ℕ}
    (his : ∀ i ∈ is, i < 32 * words.length) (j : ℕ) :
    wordBit (is.foldl orBit words) j = (wordBit words j || decide (j ∈ is)) := by
  induction is generalizing words with
  | nil => simp
  | cons i is ih =>
    obtain ⟨hi, hrest⟩ := List.forall_mem_cons.1 his
    rw [List.foldl_cons, ih _ (by simpa only [length_orBit] using hrest), wordBit_orBit words hi,
      Bool.or_assoc]
    congr 1
    by_cases hij : i = j
    · simp [hij]
    · simp [hij, Ne.symm hij]

theorem length_toBytes (words : List (BitVec 32)) : (toBytes words).length = 4 * words.length := by
  induction words with
  | nil => rfl
  | cons word words ih =>
    have hlen : (wordBytes word).length = 4 := by simp [wordBytes]
    rw [toBytes, List.flatMap_cons, List.length_append, hlen, List.length_cons]
    change 4 + (toBytes words).length = _
    rw [ih]
    omega

theorem getD_wordBytes (word : BitVec 32) {b : ℕ} (hb : b < 4) :
    (wordBytes word).getD b 0 = UInt8.ofBitVec ((word >>> (8 * b)).setWidth 8) := by
  simp [wordBytes, hb]

theorem getD_toBytes (words : List (BitVec 32)) (b : ℕ) :
    (toBytes words).getD b 0 =
      UInt8.ofBitVec (((words.getD (b / 4) 0) >>> (8 * (b % 4))).setWidth 8) := by
  induction words generalizing b with
  | nil => simp [toBytes]
  | cons word words ih =>
    have hlen : (wordBytes word).length = 4 := by simp [wordBytes]
    rw [toBytes, List.flatMap_cons]
    by_cases hb : b < 4
    · rw [List.getD_eq_getElem?_getD, List.getElem?_append_left (by omega),
        ← List.getD_eq_getElem?_getD, getD_wordBytes word hb]
      simp [Nat.div_eq_of_lt hb, Nat.mod_eq_of_lt hb]
    · rw [List.getD_eq_getElem?_getD, List.getElem?_append_right (by omega), hlen,
        ← List.getD_eq_getElem?_getD]
      change (toBytes words).getD (b - 4) 0 = _
      rw [ih]
      have hdiv : b / 4 = (b - 4) / 4 + 1 := by omega
      have hmod : b % 4 = (b - 4) % 4 := by omega
      rw [hdiv, hmod, List.getD_cons_succ]

/-- A word buffer read back byte by byte has the bits that were written. -/
theorem bitAt_toBytes (words : List (BitVec 32)) (i : ℕ) :
    bitAt (toBytes words) i = if wordBit words i then 1 else 0 := by
  have hbit : ((toBytes words).getD (i / 8) 0).toBitVec.getLsbD (i % 8) = wordBit words i := by
    rw [getD_toBytes, UInt8.toBitVec_ofBitVec, BitVec.getLsbD_setWidth, BitVec.getLsbD_ushiftRight,
      wordBit]
    rw [show i / 8 / 4 = i / 32 by omega, show 8 * (i / 8 % 4) + i % 8 = i % 32 by omega]
    simp [show i % 8 < 8 by omega]
  rw [bitAt_eq, hbit]

/-! Bitmaps packed byte by byte on one thread. -/

def orByte (bytes : List UInt8) (i : ℕ) : List UInt8 :=
  bytes.modify (i >>> 3) (fun byte => byte ||| 1 <<< UInt8.ofNat (i &&& 7))

def packBits (nBytes : ℕ) (bits : List Bool) : List UInt8 :=
  bits.zipIdx.foldl (fun out (b, i) => if b then orByte out i else out) (List.replicate nBytes 0)

theorem length_orByte (bytes : List UInt8) (i : ℕ) : (orByte bytes i).length = bytes.length :=
  List.length_modify _ _ _

theorem packBits_append (nBytes : ℕ) (bits : List Bool) (b : Bool) :
    packBits nBytes (bits ++ [b]) =
      if b then orByte (packBits nBytes bits) bits.length else packBits nBytes bits := by
  rw [packBits, List.zipIdx_append, List.foldl_append]
  simp [packBits]

theorem length_packBits (nBytes : ℕ) (bits : List Bool) : (packBits nBytes bits).length = nBytes := by
  induction bits using List.reverseRecOn with
  | nil => simp [packBits]
  | append_singleton bits b ih =>
    rw [packBits_append]
    split_ifs
    · rw [length_orByte, ih]
    · exact ih

theorem getLsbD_shiftOne {b : ℕ} (hb : b < 8) (j : ℕ) :
    (1 <<< UInt8.ofNat b : UInt8).toBitVec.getLsbD j = decide (b = j ∧ j < 8) := by
  interval_cases b <;> by_cases hj : j < 8
  all_goals first
    | (interval_cases j <;> rfl)
    | (rw [BitVec.getLsbD_of_ge _ _ (by omega)]; simp [hj])

theorem bitAt_orByte {bytes : List UInt8} {i : ℕ} (hi : i < 8 * bytes.length) (j : ℕ) :
    bitAt (orByte bytes i) j = if i = j then 1 else bitAt bytes j := by
  have h7 : i &&& 7 = i % 8 := and_mask i 3
  have h3 : i >>> 3 = i / 8 := Nat.shiftRight_eq_div_pow i 3
  rw [bitAt_eq, bitAt_eq]
  simp only [orByte, h7, h3, List.getD_eq_getElem?_getD, List.getElem?_modify]
  by_cases hbyte : i / 8 = j / 8
  · have hj : j / 8 < bytes.length := by omega
    simp only [hbyte, List.getElem?_eq_getElem hj, Option.map_eq_map, Option.map_some,
      Option.getD_some, if_true, UInt8.toBitVec_or, BitVec.getLsbD_or,
      getLsbD_shiftOne (Nat.mod_lt i (by decide : 0 < 8))]
    have hbit : decide (i % 8 = j % 8 ∧ j % 8 < 8) = decide (i = j) :=
      decide_eq_decide.2 (by omega)
    rw [hbit]
    by_cases hij : i = j <;> simp [hij]
  · have : i ≠ j := by rintro rfl; exact hbyte rfl
    simp [hbyte, this]

theorem getD_append_singleton {bits : List Bool} {b : Bool} (j : ℕ) :
    (bits ++ [b]).getD j false =
      if j = bits.length then b else bits.getD j false := by
  rw [List.getD_eq_getElem?_getD, List.getD_eq_getElem?_getD]
  rcases lt_trichotomy j bits.length with hj | rfl | hj
  · rw [List.getElem?_append_left hj, if_neg hj.ne]
  · rw [List.getElem?_append_right le_rfl, Nat.sub_self, if_pos rfl]
    rfl
  · rw [if_neg hj.ne', List.getElem?_eq_none (by simp; omega), List.getElem?_eq_none hj.le]

/-- The packed bitmap holds the flags, and zeros past the last one. -/
theorem bitAt_packBits {nBytes : ℕ} {bits : List Bool} (h : bits.length ≤ 8 * nBytes) (j : ℕ) :
    bitAt (packBits nBytes bits) j = if bits.getD j false then 1 else 0 := by
  induction bits using List.reverseRecOn with
  | nil =>
    rw [bitAt_eq]
    by_cases hj : j / 8 < nBytes <;> simp [packBits, hj]
  | append_singleton bits b ih =>
    rw [List.length_append, List.length_singleton] at h
    specialize ih (by omega)
    have hset : bitAt (orByte (packBits nBytes bits) bits.length) j =
        if bits.length = j then 1 else bitAt (packBits nBytes bits) j :=
      bitAt_orByte (by rw [length_packBits]; omega) j
    rw [packBits_append, getD_append_singleton]
    by_cases hj : j = bits.length
    · rw [if_pos hj]
      cases b with
      | true => rw [if_pos rfl, hset, if_pos hj.symm, if_pos rfl]
      | false => rw [if_neg (by decide), ih, hj, List.getD_eq_getElem?_getD, List.getElem?_eq_none le_rfl]; rfl
    · rw [if_neg hj, ← ih]
      cases b with
      | true => rw [if_pos rfl, hset, if_neg (Ne.symm hj)]
      | false => rw [if_neg (by decide)]

end Bitmap
