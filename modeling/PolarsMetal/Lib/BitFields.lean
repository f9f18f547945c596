import Mathlib.Data.List.Pairwise
import Mathlib.Tactic

/-! Bit fields packed into one machine word by OR. A field owns the bits
`offset .. offset + width` of the word and its value fits that width, so
fields whose ranges do not meet can be read back from the packed word. -/

namespace BitFields

structure BitField (w : ℕ) where
  offset : ℕ
  width : ℕ
  value : BitVec w
  fits : ∀ i, width ≤ i → value.getLsbD i = false

variable {w : ℕ}

def BitField.limit (f : BitField w) : ℕ := f.offset + f.width

def BitField.Apart (f g : BitField w) : Prop := f.limit ≤ g.offset ∨ g.limit ≤ f.offset

instance : Std.Symm (@BitField.Apart w) := ⟨fun _ _ h => Or.symm h⟩

def pack (fs : List (BitField w)) : BitVec w :=
  fs.foldl (fun word f => word ||| f.value <<< f.offset) 0

def extract (word : BitVec w) (offset width : ℕ) : BitVec w :=
  (word >>> offset) &&& BitVec.ofNat w (2 ^ width - 1)

/-- Fields laid out one after the other from `start`. -/
def Consecutive : ℕ → List (BitField w) → Prop
  | _, [] => True
  | start, f :: fs => f.offset = start ∧ Consecutive (start + f.width) fs

theorem getLsbD_foldl (fs : List (BitField w)) (word : BitVec w) (i : ℕ) :
    (fs.foldl (fun word f => word ||| f.value <<< f.offset) word).getLsbD i =
      (word.getLsbD i || fs.any (fun f => (f.value <<< f.offset).getLsbD i)) := by
  induction fs generalizing word with
  | nil => simp
  | cons f fs ih =>
    simp only [List.foldl_cons, List.any_cons]
    rw [ih, BitVec.getLsbD_or, Bool.or_assoc]

theorem getLsbD_pack (fs : List (BitField w)) (i : ℕ) :
    (pack fs).getLsbD i = fs.any (fun f => (f.value <<< f.offset).getLsbD i) := by
  simp [pack, getLsbD_foldl]

theorem getLsbD_mask (width i : ℕ) :
    (BitVec.ofNat w (2 ^ width - 1)).getLsbD i = (decide (i < w) && decide (i < width)) := by
  rw [BitVec.getLsbD_ofNat, Nat.testBit_two_pow_sub_one]

theorem getLsbD_extract (word : BitVec w) (offset width i : ℕ) :
    (extract word offset width).getLsbD i = (word.getLsbD (offset + i) && decide (i < width)) := by
  simp only [extract, BitVec.getLsbD_and, BitVec.getLsbD_ushiftRight, getLsbD_mask]
  by_cases hi : i < w
  · simp [hi]
  · rw [BitVec.getLsbD_of_ge word _ (by omega)]
    simp

/-- A field never sets a bit outside its own range. -/
theorem getLsbD_shifted_outside (f : BitField w) {i : ℕ} (h : i < f.offset ∨ f.limit ≤ i) :
    (f.value <<< f.offset).getLsbD i = false := by
  rw [BitVec.getLsbD_shiftLeft]
  rcases h with h | h
  · simp [h]
  · have : f.width ≤ i - f.offset := by simp only [BitField.limit] at h; omega
    simp [f.fits _ this]

/-- Reading a field's range back gives its value, whatever the other fields hold. -/
theorem extract_pack {fs : List (BitField w)} (hp : fs.Pairwise BitField.Apart)
    {f : BitField w} (hf : f ∈ fs) (hw : f.limit ≤ w) :
    extract (pack fs) f.offset f.width = f.value := by
  apply BitVec.eq_of_getLsbD_eq
  intro i _
  rw [getLsbD_extract, getLsbD_pack]
  by_cases hi : i < f.width
  · have hbit : (f.value <<< f.offset).getLsbD (f.offset + i) = f.value.getLsbD i := by
      have : f.offset + i < w := by simp only [BitField.limit] at hw; omega
      rw [BitVec.getLsbD_shiftLeft, Nat.add_sub_cancel_left]
      simp [this]
    have hothers : ∀ g ∈ fs, g ≠ f → (g.value <<< g.offset).getLsbD (f.offset + i) = false := by
      intro g hg hne
      apply getLsbD_shifted_outside
      have hapart : BitField.Apart g f := hp.forall hg hf hne
      simp only [BitField.Apart, BitField.limit] at hapart ⊢
      omega
    have hany : fs.any (fun g => (g.value <<< g.offset).getLsbD (f.offset + i)) =
        f.value.getLsbD i := by
      rw [← hbit]
      rcases hv : (f.value <<< f.offset).getLsbD (f.offset + i) with _ | _
      · rw [List.any_eq_false]
        intro g hg
        by_cases hgf : g = f
        · subst hgf; simp [hv]
        · simp [hothers g hg hgf]
      · exact List.any_eq_true.2 ⟨f, hf, hv⟩
    rw [hany, decide_eq_true hi, Bool.and_true]
  · simp [hi, f.fits i (by omega)]

theorem Consecutive.start_le {start : ℕ} {fs : List (BitField w)} (h : Consecutive start fs) :
    ∀ f ∈ fs, start ≤ f.offset := by
  induction fs generalizing start with
  | nil => simp
  | cons g fs ih =>
    obtain ⟨hg, hrest⟩ := h
    intro f hf
    rcases List.mem_cons.1 hf with rfl | hf
    · exact hg.ge
    · have := ih hrest f hf
      omega

theorem Consecutive.apart {start : ℕ} {fs : List (BitField w)} (h : Consecutive start fs) :
    fs.Pairwise BitField.Apart := by
  induction fs generalizing start with
  | nil => exact List.Pairwise.nil
  | cons g fs ih =>
    obtain ⟨hg, hrest⟩ := h
    refine List.Pairwise.cons (fun f hf => Or.inl ?_) (ih hrest)
    have := hrest.start_le f hf
    simp only [BitField.limit]
    omega

theorem Consecutive.limit_le {start : ℕ} {fs : List (BitField w)} (h : Consecutive start fs) :
    ∀ f ∈ fs, f.limit ≤ start + (fs.map BitField.width).sum := by
  induction fs generalizing start with
  | nil => simp
  | cons g fs ih =>
    obtain ⟨hg, hrest⟩ := h
    intro f hf
    simp only [List.map_cons, List.sum_cons]
    rcases List.mem_cons.1 hf with rfl | hf
    · simp only [BitField.limit]; omega
    · have := ih hrest f hf
      omega

theorem extract_consecutive {fs : List (BitField w)} (h : Consecutive 0 fs)
    (hw : (fs.map BitField.width).sum ≤ w) {f : BitField w} (hf : f ∈ fs) :
    extract (pack fs) f.offset f.width = f.value :=
  extract_pack h.apart hf ((h.limit_le f hf).trans (by omega))

/-- A field of one bit reads as 0 or 1. -/
theorem extract_one (word : BitVec w) (offset : ℕ) :
    extract word offset 1 = if word.getLsbD offset then 1#w else 0#w := by
  apply BitVec.eq_of_getLsbD_eq
  intro i hi
  rw [getLsbD_extract]
  by_cases h0 : i = 0
  · subst h0
    cases word.getLsbD offset <;> simp [hi]
  · have hone : ¬ i < 1 := by omega
    have hbit : (1#w).getLsbD i = false := by simp [BitVec.getLsbD_one, h0]
    split_ifs
    · simp [hone, hbit]
    · simp [hone]

/-- The low bits of a field and the bits above them can be read apart. -/
theorem extract_extract (word : BitVec w) (offset width a b : ℕ) (h : a + b ≤ width) :
    extract (extract word offset width) a b = extract word (offset + a) b := by
  apply BitVec.eq_of_getLsbD_eq
  intro i _
  simp only [getLsbD_extract, Nat.add_assoc]
  by_cases hi : i < b
  · simp [hi, show a + i < width by omega]
  · simp [hi]

end BitFields
