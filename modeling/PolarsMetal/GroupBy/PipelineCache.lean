import Mathlib.Data.List.AList
import PolarsMetal.GroupBy.Emitter
import PolarsMetal.GroupBy.SignatureSpec
import PolarsMetal.Lib.Runs

/-! The cache of compiled fused kernels. Signatures that compare equal print the same text, so
a pipeline found under a signature's hash is the one its own text compiles to, whatever calls
ran before or beside it. The Metal compiler and the hash are parameters. -/

namespace PolarsMetal.GroupBy
open Runs

/-- A signature's identity leaves the column names out. -/
def AggSignature.identity (sig : AggSignature) : List MetalDtype × List CanonicalAgg :=
  (sig.columnDtypes, sig.aggs)

/-- Specs with the signature `from_specs` built for them, its slots within 16 bits. -/
structure CacheRequest where
  specs : List AggSpec
  colDtypes : ColDtypes
  sig : AggSignature
  built : AggSignature.fromSpecs specs colDtypes = .ok sig
  slots : sig.columnOrder.length ≤ 2 ^ 16

/-! Equal identities print equal text. -/

section Text

variable {o₁ o₂ : List String}

theorem slotOf_eq_colSlot {order : List String} (horder : order.length ≤ 2 ^ 16) {name : String}
    (h : name ∈ order) : slotOf order name = colSlot order name := by
  have := List.idxOf_lt_length_iff.2 h
  rw [slotOf, colSlot, if_pos h, Nat.mod_eq_of_lt (by omega)]

/-- The slots of a canonical expression, left to right, with repeats. -/
def CanonicalExpr.slots : CanonicalExpr → List ℕ
  | .column slot => [slot]
  | .literalF64Bits _ | .literalI64 _ => []
  | .binary _ lhs rhs => lhs.slots ++ rhs.slots

theorem slots_canonExpr {order : List String} (horder : order.length ≤ 2 ^ 16) {e : AggExpr}
    (h : ∀ name ∈ e.columns, name ∈ order) :
    (canonExpr order e).slots = e.columns.map (colSlot order) := by
  induction e with
  | column name =>
    have hname := h name (by simp [AggExpr.columns])
    simp [canonExpr, CanonicalExpr.slots, AggExpr.columns, hname, slotOf_eq_colSlot horder hname]
  | literalF64 bits => rfl
  | literalI64 v => rfl
  | binary op lhs rhs ihl ihr =>
    simp only [canonExpr, CanonicalExpr.slots, AggExpr.columns, List.map_append]
    rw [ihl fun n hn => h n (List.mem_append_left _ hn),
      ihr fun n hn => h n (List.mem_append_right _ hn)]

theorem colSlot_inj {order : List String} {a b : String} (ha : a ∈ order) (hb : b ∈ order)
    (h : colSlot order a = colSlot order b) : a = b := by
  rw [colSlot, colSlot, if_pos ha, if_pos hb] at h
  exact (List.idxOf_inj ha).1 h

/-- First occurrences commute with an injective renaming. -/
theorem foldl_distinct_map {α β : Type*} [DecidableEq α] [DecidableEq β] {f : α → β}
    (xs out : List α) (hinj : ∀ a ∈ out ++ xs, ∀ b ∈ out ++ xs, f a = f b → a = b) :
    (xs.map f).foldl (fun out x => if x ∈ out then out else out ++ [x]) (out.map f) =
      (xs.foldl (fun out x => if x ∈ out then out else out ++ [x]) out).map f := by
  induction xs generalizing out with
  | nil => rfl
  | cons x xs ih =>
    rw [List.map_cons, List.foldl_cons, List.foldl_cons]
    have hmem : f x ∈ out.map f ↔ x ∈ out := by
      refine ⟨fun h => ?_, List.mem_map_of_mem⟩
      obtain ⟨a, ha, hfa⟩ := List.mem_map.1 h
      rwa [← hinj a (by simp [ha]) x (by simp) hfa]
    by_cases hx : x ∈ out
    · rw [if_pos hx, if_pos (hmem.2 hx)]
      exact ih _ fun a ha b hb => hinj a (by simp at ha ⊢; tauto) b (by simp at hb ⊢; tauto)
    · rw [if_neg hx, if_neg (mt hmem.1 hx), ← List.map_singleton (f := f), ← List.map_append]
      exact ih _ fun a ha b hb => hinj a (by simp at ha ⊢; tauto) b (by simp at hb ⊢; tauto)

theorem emitExprValidityCheck_congr (h₁ : o₁.length ≤ 2 ^ 16) (h₂ : o₂.length ≤ 2 ^ 16)
    {e₁ e₂ : AggExpr} (hc₁ : ∀ name ∈ e₁.columns, name ∈ o₁)
    (hc₂ : ∀ name ∈ e₂.columns, name ∈ o₂) (h : canonExpr o₁ e₁ = canonExpr o₂ e₂) :
    emitExprValidityCheck e₁ o₁ = emitExprValidityCheck e₂ o₂ := by
  have hslots : ∀ (o : List String) (e : AggExpr), o.length ≤ 2 ^ 16 →
      (∀ name ∈ e.columns, name ∈ o) → e.referencedColumns.map (colSlot o) =
        (canonExpr o e).slots.foldl (fun out x => if x ∈ out then out else out ++ [x]) [] := by
    intro o e ho hc
    rw [slots_canonExpr ho hc, AggExpr.referencedColumns]
    exact (foldl_distinct_map e.columns [] fun a ha b hb => by
      exact colSlot_inj (hc a (by simpa using ha)) (hc b (by simpa using hb))).symm
  rw [emitExprValidityCheck, emitExprValidityCheck, hslots o₁ e₁ h₁ hc₁, hslots o₂ e₂ h₂ hc₂, h]

theorem emitExprMsl_congr (fmtF64 : BitVec 64 → String) (h₁ : o₁.length ≤ 2 ^ 16)
    (h₂ : o₂.length ≤ 2 ^ 16) {e₁ e₂ : AggExpr} (hc₁ : ∀ name ∈ e₁.columns, name ∈ o₁)
    (hc₂ : ∀ name ∈ e₂.columns, name ∈ o₂) (h : canonExpr o₁ e₁ = canonExpr o₂ e₂) :
    emitExprMsl fmtF64 o₁ e₁ = emitExprMsl fmtF64 o₂ e₂ := by
  induction e₁ generalizing e₂ with
  | column name =>
    have hname := hc₁ name (by simp [AggExpr.columns])
    cases e₂ with
    | column name' =>
      have hname' := hc₂ name' (by simp [AggExpr.columns])
      simp only [canonExpr, hname, hname', if_true, CanonicalExpr.column.injEq,
        slotOf_eq_colSlot h₁ hname, slotOf_eq_colSlot h₂ hname'] at h
      rw [emitExprMsl, emitExprMsl, h]
    | _ => simp [canonExpr] at h
  | literalF64 bits =>
    cases e₂ with
    | literalF64 bits' =>
      obtain rfl : bits = bits' := by simpa [canonExpr] using h
      rfl
    | _ => simp [canonExpr] at h
  | literalI64 v =>
    cases e₂ with
    | literalI64 v' =>
      obtain rfl : v = v' := by simpa [canonExpr] using h
      rfl
    | _ => simp [canonExpr] at h
  | binary op lhs rhs ihl ihr =>
    cases e₂ with
    | binary op' lhs' rhs' =>
      simp only [canonExpr, CanonicalExpr.binary.injEq] at h
      obtain ⟨rfl, hl, hr⟩ := h
      rw [emitExprMsl, emitExprMsl,
        ihl (fun n hn => hc₁ n (List.mem_append_left _ hn))
          (fun n hn => hc₂ n (List.mem_append_left _ hn)) hl,
        ihr (fun n hn => hc₁ n (List.mem_append_right _ hn))
          (fun n hn => hc₂ n (List.mem_append_right _ hn)) hr]
    | _ => simp [canonExpr] at h

/-- Two signatures of equal identity, with what each was built from. -/
structure SameKernel (specs₁ : List AggSpec) (sig₁ : AggSignature) (specs₂ : List AggSpec)
    (sig₂ : AggSignature) : Prop where
  built₁ : ∃ colDtypes, SignatureOf colDtypes specs₁ sig₁
  built₂ : ∃ colDtypes, SignatureOf colDtypes specs₂ sig₂
  slots₁ : sig₁.columnOrder.length ≤ 2 ^ 16
  slots₂ : sig₂.columnOrder.length ≤ 2 ^ 16
  identity : sig₁.identity = sig₂.identity

namespace SameKernel

variable {specs₁ specs₂ : List AggSpec} {sig₁ sig₂ : AggSignature} {s₁ s₂ : AggSpec}

theorem dtypes (h : SameKernel specs₁ sig₁ specs₂ sig₂) : sig₁.columnDtypes = sig₂.columnDtypes :=
  congrArg Prod.fst h.identity

theorem columnCount (h : SameKernel specs₁ sig₁ specs₂ sig₂) :
    sig₁.columnOrder.length = sig₂.columnOrder.length := by
  obtain ⟨_, hb₁⟩ := h.built₁
  obtain ⟨_, hb₂⟩ := h.built₂
  rw [← hb₁.interned.length, ← hb₂.interned.length]
  exact congrArg List.length h.dtypes

/-- The canonical forms, spec by spec. -/
theorem canonical (h : SameKernel specs₁ sig₁ specs₂ sig₂) :
    specs₁.map (canonSpec (sig₁.columnOrder, sig₁.columnDtypes)) =
      specs₂.map (canonSpec (sig₂.columnOrder, sig₂.columnDtypes)) := by
  obtain ⟨_, hb₁⟩ := h.built₁
  obtain ⟨_, hb₂⟩ := h.built₂
  rw [← hb₁.aggs, ← hb₂.aggs]
  exact congrArg Prod.snd h.identity

theorem map_eq {α : Type*} (h : SameKernel specs₁ sig₁ specs₂ sig₂) {f₁ f₂ : AggSpec → α}
    (hf : ∀ s₁ ∈ specs₁, ∀ s₂ ∈ specs₂, canonSpec (sig₁.columnOrder, sig₁.columnDtypes) s₁ =
      canonSpec (sig₂.columnOrder, sig₂.columnDtypes) s₂ → f₁ s₁ = f₂ s₂) :
    specs₁.map f₁ = specs₂.map f₂ := by
  have hcan := h.canonical
  have hlen : specs₁.length = specs₂.length := by simpa using congrArg List.length hcan
  refine List.ext_getElem (by simpa using hlen) fun i h₁ h₂ => ?_
  rw [List.length_map] at h₁ h₂
  have hi := List.getElem_of_eq hcan (by simpa using h₁)
  rw [List.getElem_map, List.getElem_map] at hi ⊢
  exact hf _ (List.getElem_mem h₁) _ (List.getElem_mem h₂) hi

theorem columns₁ (h : SameKernel specs₁ sig₁ specs₂ sig₂) (hs : s₁ ∈ specs₁) :
    ∀ name ∈ s₁.referencedColumns, name ∈ sig₁.columnOrder := by
  obtain ⟨_, hb⟩ := h.built₁
  exact hb.used s₁ hs

theorem columns₂ (h : SameKernel specs₁ sig₁ specs₂ sig₂) (hs : s₂ ∈ specs₂) :
    ∀ name ∈ s₂.referencedColumns, name ∈ sig₂.columnOrder := by
  obtain ⟨_, hb⟩ := h.built₂
  exact hb.used s₂ hs

/-- Two simple specs of one canonical form read the same slot with the same op. -/
theorem simple_slot (h : SameKernel specs₁ sig₁ specs₂ sig₂) {c₁ c₂ a₁ a₂ : String} {p₁ p₂ : AggOp}
    (h₁ : .simple c₁ p₁ a₁ ∈ specs₁) (h₂ : .simple c₂ p₂ a₂ ∈ specs₂)
    (hc : canonSpec (sig₁.columnOrder, sig₁.columnDtypes) (.simple c₁ p₁ a₁) =
      canonSpec (sig₂.columnOrder, sig₂.columnDtypes) (.simple c₂ p₂ a₂)) :
    c₁ ∈ sig₁.columnOrder ∧ c₂ ∈ sig₂.columnOrder ∧
      sig₁.columnOrder.idxOf c₁ = sig₂.columnOrder.idxOf c₂ ∧ p₁ = p₂ := by
  have hm₁ := h.columns₁ h₁ c₁ (by simp [AggSpec.referencedColumns])
  have hm₂ := h.columns₂ h₂ c₂ (by simp [AggSpec.referencedColumns])
  simp only [canonSpec, CanonicalAgg.simple.injEq] at hc
  obtain ⟨hslot, rfl, -⟩ := hc
  rw [slotOf_eq_colSlot h.slots₁ hm₁, slotOf_eq_colSlot h.slots₂ hm₂, colSlot, colSlot,
    if_pos hm₁, if_pos hm₂] at hslot
  exact ⟨hm₁, hm₂, hslot, rfl⟩

theorem aggSlots_eq (h : SameKernel specs₁ sig₁ specs₂ sig₂) (h₁ : s₁ ∈ specs₁) (h₂ : s₂ ∈ specs₂)
    (hc : canonSpec (sig₁.columnOrder, sig₁.columnDtypes) s₁ =
      canonSpec (sig₂.columnOrder, sig₂.columnDtypes) s₂) :
    aggSlots sig₁ s₁ = aggSlots sig₂ s₂ := by
  cases s₁ with
  | simple c₁ p₁ a₁ =>
    cases s₂ with
    | simple c₂ p₂ a₂ =>
      obtain ⟨hm₁, hm₂, hidx, rfl⟩ := h.simple_slot h₁ h₂ hc
      simp only [aggSlots, columnDtypeFor, if_pos hm₁, if_pos hm₂, hidx, h.dtypes]
    | _ => simp [canonSpec] at hc
  | expression e₁ p₁ a₁ =>
    cases s₂ with
    | expression e₂ p₂ a₂ =>
      obtain rfl : p₁ = p₂ := by simp only [canonSpec, CanonicalAgg.expression.injEq] at hc; tauto
      rfl
    | _ => simp [canonSpec] at hc
  | length a₁ =>
    cases s₂ with
    | length a₂ => rfl
    | _ => simp [canonSpec] at hc

theorem isMean_eq
    (hc : canonSpec (sig₁.columnOrder, sig₁.columnDtypes) s₁ =
      canonSpec (sig₂.columnOrder, sig₂.columnDtypes) s₂) : isMean s₁ = isMean s₂ := by
  cases s₁ <;> cases s₂ <;> simp_all [canonSpec, isMean]

theorem lengthRowUpdate_eq
    (hc : canonSpec (sig₁.columnOrder, sig₁.columnDtypes) s₁ =
      canonSpec (sig₂.columnOrder, sig₂.columnDtypes) s₂) :
    lengthRowUpdate s₁ = lengthRowUpdate s₂ := by
  cases s₁ <;> cases s₂ <;> first | rfl | simp [canonSpec] at hc

theorem emitAggRowUpdate_eq (fmtF64 : BitVec 64 → String) (h : SameKernel specs₁ sig₁ specs₂ sig₂)
    (h₁ : s₁ ∈ specs₁) (h₂ : s₂ ∈ specs₂)
    (hc : canonSpec (sig₁.columnOrder, sig₁.columnDtypes) s₁ =
      canonSpec (sig₂.columnOrder, sig₂.columnDtypes) s₂) :
    emitAggRowUpdate fmtF64 sig₁ s₁ = emitAggRowUpdate fmtF64 sig₂ s₂ := by
  funext a
  cases s₁ with
  | simple c₁ p₁ a₁ =>
    cases s₂ with
    | simple c₂ p₂ a₂ =>
      obtain ⟨hm₁, hm₂, hidx, rfl⟩ := h.simple_slot h₁ h₂ hc
      simp only [emitAggRowUpdate, if_pos hm₁, if_pos hm₂, hidx, h.dtypes]
    | _ => simp [canonSpec] at hc
  | expression e₁ p₁ a₁ =>
    cases s₂ with
    | expression e₂ p₂ a₂ =>
      have hcols₁ : ∀ name ∈ e₁.columns, name ∈ sig₁.columnOrder := fun name hn =>
        h.columns₁ h₁ name (mem_referencedColumns.2 hn)
      have hcols₂ : ∀ name ∈ e₂.columns, name ∈ sig₂.columnOrder := fun name hn =>
        h.columns₂ h₂ name (mem_referencedColumns.2 hn)
      simp only [canonSpec, CanonicalAgg.expression.injEq] at hc
      obtain ⟨hexpr, rfl, -⟩ := hc
      simp only [emitAggRowUpdate,
        emitExprValidityCheck_congr h.slots₁ h.slots₂ hcols₁ hcols₂ hexpr,
        emitExprMsl_congr fmtF64 h.slots₁ h.slots₂ hcols₁ hcols₂ hexpr]
    | _ => simp [canonSpec] at hc
  | length a₁ =>
    cases s₂ with
    | length a₂ => rfl
    | _ => simp [canonSpec] at hc

theorem buildAggSlots_eq (h : SameKernel specs₁ sig₁ specs₂ sig₂) :
    buildAggSlots specs₁ sig₁ = buildAggSlots specs₂ sig₂ :=
  h.map_eq fun _ h₁ _ h₂ hc => h.aggSlots_eq h₁ h₂ hc

theorem outputSlots_congr {specs specs' : List AggSpec} (h : specs.map isMean = specs'.map isMean)
    (slot : ℕ) : outputSlots slot specs = outputSlots slot specs' := by
  induction specs generalizing specs' slot with
  | nil =>
    cases specs' with
    | nil => rfl
    | cons s' rest => simp at h
  | cons s rest ih =>
    cases specs' with
    | nil => simp at h
    | cons s' rest' =>
      obtain ⟨hhead, htail⟩ := List.cons.inj h
      simp only [outputSlots, hhead]
      rw [ih htail]

theorem forSpecs_congr {specs specs' : List AggSpec} {text text' : AggSpec → ℕ → String}
    (h : specs.map text = specs'.map text') : forSpecs specs text = forSpecs specs' text' := by
  have hmap : ∀ (l : List AggSpec) (t : AggSpec → ℕ → String),
      forSpecs l t = String.join ((l.map t).zipIdx.map fun p => p.1 p.2) := by
    intro l t
    rw [forSpecs, List.zipIdx_map, List.map_map]
    rfl
  rw [hmap, hmap, h]

theorem emitMsl_eq (fmtF64 : BitVec 64 → String) (h : SameKernel specs₁ sig₁ specs₂ sig₂) :
    emitMsl fmtF64 sig₁ specs₁ = emitMsl fmtF64 sig₂ specs₂ := by
  have hmeans := h.map_eq fun _ _ _ _ hc => isMean_eq hc
  have hupdates := h.map_eq fun _ h₁ _ h₂ hc => h.emitAggRowUpdate_eq fmtF64 h₁ h₂ hc
  have hlengths := h.map_eq fun _ _ _ _ hc => lengthRowUpdate_eq hc
  have hparams : kernelParams sig₁ specs₁ = kernelParams sig₂ specs₂ := by
    simp only [kernelParams, h.dtypes, h.buildAggSlots_eq]
    rw [outputSlots_congr hmeans]
  rw [emitMsl, emitMsl, hparams, h.buildAggSlots_eq, h.columnCount, forSpecs_congr hupdates,
    forSpecs_congr hlengths]

end SameKernel

end Text

/-! Equal identities mean the same kernel. A canonical expression is evaluated by slots, so the
names of two requests' columns do not enter. -/

section Meaning

variable (fl : F32Ops) {o₁ o₂ : List String} {inp inp₁ inp₂ : KernelInput} {row : ℕ}

/-- The columns two kernels read are bound to the same buffers, slot by slot. -/
structure SameBuffers (inp₁ inp₂ : KernelInput) : Prop where
  rowToGroup : inp₁.rowToGroup = inp₂.rowToGroup
  nGroups : inp₁.nGroups = inp₂.nGroups
  dtypes : inp₁.columnDtypes = inp₂.columnDtypes
  values : inp₁.values = inp₂.values
  validities : inp₁.validities = inp₂.validities

def CanonicalExpr.eval (inp : KernelInput) (row : ℕ) : CanonicalExpr → Word
  | .column slot => inp.rowFloat fl slot row
  | .literalF64Bits bits => fl.ofF64 bits
  | .literalI64 v => fl.ofI64 v
  | .binary op lhs rhs =>
    let l := lhs.eval inp row
    let r := rhs.eval inp row
    match op with
    | .add => fl.add l r
    | .sub => fl.sub l r
    | .mul => fl.mul l r
    | .div => fl.div l r

theorem evalExprMsl_eq_eval (horder : inp.columnOrder.length ≤ 2 ^ 16) {e : AggExpr}
    (h : ∀ name ∈ e.columns, name ∈ inp.columnOrder) :
    evalExprMsl fl inp row e = (canonExpr inp.columnOrder e).eval fl inp row := by
  induction e with
  | column name =>
    have hname := h name (by simp [AggExpr.columns])
    simp only [evalExprMsl, canonExpr, CanonicalExpr.eval, if_pos hname,
      slotOf_eq_colSlot horder hname, colSlot]
  | literalF64 bits => rfl
  | literalI64 v => rfl
  | binary op lhs rhs ihl ihr =>
    have hl := ihl fun n hn => h n (List.mem_append_left _ hn)
    have hr := ihr fun n hn => h n (List.mem_append_right _ hn)
    cases op <;> simp only [evalExprMsl, canonExpr, CanonicalExpr.eval, hl, hr]

theorem exprValid_eq_slots (horder : inp.columnOrder.length ≤ 2 ^ 16) {e : AggExpr}
    (h : ∀ name ∈ e.columns, name ∈ inp.columnOrder) :
    exprValid inp row e = (canonExpr inp.columnOrder e).slots.all (inp.rowValid · row) := by
  rw [slots_canonExpr horder h, exprValid, Bool.eq_iff_iff, List.all_map, List.all_eq_true,
    List.all_eq_true]
  refine forall_congr' fun name => ?_
  rw [← mem_referencedColumns]
  rfl

namespace SameBuffers

variable (h : SameBuffers inp₁ inp₂)
include h

theorem rowValid (slot row : ℕ) : inp₁.rowValid slot row = inp₂.rowValid slot row := by
  rw [KernelInput.rowValid, KernelInput.rowValid, h.validities]

theorem rowValue (slot row : ℕ) : inp₁.rowValue slot row = inp₂.rowValue slot row := by
  rw [KernelInput.rowValue, KernelInput.rowValue, h.values]

theorem rowFloat (slot row : ℕ) : inp₁.rowFloat fl slot row = inp₂.rowFloat fl slot row := by
  rw [KernelInput.rowFloat, KernelInput.rowFloat, h.dtypes, h.rowValue]

theorem eval (e : CanonicalExpr) (row : ℕ) : e.eval fl inp₁ row = e.eval fl inp₂ row := by
  induction e with
  | column slot => exact h.rowFloat fl slot row
  | literalF64Bits bits => rfl
  | literalI64 v => rfl
  | binary op lhs rhs ihl ihr => simp only [CanonicalExpr.eval, ihl, ihr]

end SameBuffers

namespace SameKernel

variable {specs₁ specs₂ : List AggSpec} {sig₁ sig₂ : AggSignature} {s₁ s₂ : AggSpec}

/-- A spec's row update depends on its canonical form and the bound buffers. -/
theorem aggRowUpdate_eq (h : SameKernel specs₁ sig₁ specs₂ sig₂) (hb : SameBuffers inp₁ inp₂)
    (ho₁ : inp₁.columnOrder = sig₁.columnOrder) (ho₂ : inp₂.columnOrder = sig₂.columnOrder)
    (h₁ : s₁ ∈ specs₁) (h₂ : s₂ ∈ specs₂)
    (hc : canonSpec (sig₁.columnOrder, sig₁.columnDtypes) s₁ =
      canonSpec (sig₂.columnOrder, sig₂.columnDtypes) s₂) (j : ℕ) :
    aggRowUpdate fl inp₁ s₁ j = aggRowUpdate fl inp₂ s₂ j := by
  funext row
  cases s₁ with
  | simple c₁ p₁ a₁ =>
    cases s₂ with
    | simple c₂ p₂ a₂ =>
      obtain ⟨hm₁, hm₂, hidx, rfl⟩ := h.simple_slot h₁ h₂ hc
      simp only [aggRowUpdate, ho₁, ho₂, if_pos hm₁, if_pos hm₂, hidx, hb.rowValid, hb.rowValue]
    | _ => simp [canonSpec] at hc
  | expression e₁ p₁ a₁ =>
    cases s₂ with
    | expression e₂ p₂ a₂ =>
      have hcols₁ : ∀ name ∈ e₁.columns, name ∈ inp₁.columnOrder := fun name hn =>
        ho₁ ▸ h.columns₁ h₁ name (mem_referencedColumns.2 hn)
      have hcols₂ : ∀ name ∈ e₂.columns, name ∈ inp₂.columnOrder := fun name hn =>
        ho₂ ▸ h.columns₂ h₂ name (mem_referencedColumns.2 hn)
      have hs₁ : inp₁.columnOrder.length ≤ 2 ^ 16 := ho₁ ▸ h.slots₁
      have hs₂ : inp₂.columnOrder.length ≤ 2 ^ 16 := ho₂ ▸ h.slots₂
      simp only [canonSpec, CanonicalAgg.expression.injEq] at hc
      obtain ⟨hexpr, rfl, -⟩ := hc
      have hvalid : exprValid inp₁ row e₁ = exprValid inp₂ row e₂ := by
        rw [exprValid_eq_slots hs₁ hcols₁, exprValid_eq_slots hs₂ hcols₂, ho₁, ho₂, hexpr]
        simp only [hb.rowValid]
      have hvalue : evalExprMsl fl inp₁ row e₁ = evalExprMsl fl inp₂ row e₂ := by
        rw [evalExprMsl_eq_eval fl hs₁ hcols₁, evalExprMsl_eq_eval fl hs₂ hcols₂, ho₁, ho₂, hexpr]
        exact hb.eval fl _ row
      simp only [aggRowUpdate, hvalid, hvalue]
    | _ => simp [canonSpec] at hc
  | length a₁ =>
    cases s₂ with
    | length a₂ => rfl
    | _ => simp [canonSpec] at hc

theorem gridFlushes_congr {k : ReduceKind} {update : ℕ → Option Word} (hb : SameBuffers inp₁ inp₂)
    (grid : Grid) : gridFlushes fl inp₁ k update grid = gridFlushes fl inp₂ k update grid := by
  have hthread : threadAcc fl inp₁ k update = threadAcc fl inp₂ k update := by
    funext rows
    simp only [threadAcc, hb.rowToGroup, hb.nGroups]
  have htg : tgFlushes fl inp₁ k update = tgFlushes fl inp₂ k update := by
    funext tg
    simp only [tgFlushes, hthread, hb.nGroups]
  rw [gridFlushes, gridFlushes, htg]

theorem fusedFlushes_eq_getD (specs : List AggSpec) (sig : AggSignature) (inp : KernelInput)
    (grid : Grid) (a j : ℕ) :
    fusedFlushes fl specs sig inp grid a j =
      ((specs.map (fun s => gridFlushes fl inp ((aggSlots sig s).getD j .counter)
        (aggRowUpdate fl inp s j) grid))[a]?).getD [] := by
  rw [fusedFlushes, List.getElem?_map]
  cases specs[a]? <;> rfl

/-- Over the same buffers the two kernels issue the same flushes. -/
theorem fusedFlushes_eq (h : SameKernel specs₁ sig₁ specs₂ sig₂) (hb : SameBuffers inp₁ inp₂)
    (ho₁ : inp₁.columnOrder = sig₁.columnOrder) (ho₂ : inp₂.columnOrder = sig₂.columnOrder)
    (grid : Grid) (a j : ℕ) :
    fusedFlushes fl specs₁ sig₁ inp₁ grid a j = fusedFlushes fl specs₂ sig₂ inp₂ grid a j := by
  have hflushes : specs₁.map (fun s => gridFlushes fl inp₁ ((aggSlots sig₁ s).getD j .counter)
        (aggRowUpdate fl inp₁ s j) grid) =
      specs₂.map (fun s => gridFlushes fl inp₂ ((aggSlots sig₂ s).getD j .counter)
        (aggRowUpdate fl inp₂ s j) grid) :=
    h.map_eq fun s₁ h₁ s₂ h₂ hc => by
      rw [h.aggSlots_eq h₁ h₂ hc, h.aggRowUpdate_eq fl hb ho₁ ho₂ h₁ h₂ hc j]
      exact gridFlushes_congr fl hb grid
  rw [fusedFlushes_eq_getD, fusedFlushes_eq_getD, hflushes]

end SameKernel

end Meaning

/-! The cache. A call looks its hash up, compiles outside the lock on a miss, and looks again
before it inserts; the calls take their turns in any order. -/

section Cache

inductive CallState (E P : Type*) where
  | waiting
  | missed
  | compiled (pso : P)
  | returned (result : Except E P)

structure FusedLibraryCache (E P : Type*) where
  byHash : AList fun _ : BitVec 64 => P
  calls : ℕ → CallState E P

variable {E P : Type*}

def FusedLibraryCache.new : FusedLibraryCache E P := ⟨∅, fun _ => .waiting⟩

def FusedLibraryCache.setCall (s : FusedLibraryCache E P) (i : ℕ) (c : CallState E P) :
    FusedLibraryCache E P :=
  { s with calls := Function.update s.calls i c }

def CacheRequest.msl (fmtF64 : BitVec 64 → String) (r : CacheRequest) : String :=
  emitMsl fmtF64 r.sig r.specs

/-- The next turn of call `i`. Each call compiles at most once, so its index stands for the
attempt. -/
def getOrCompile (fmtF64 : BitVec 64 → String)
    (hash64 : List MetalDtype × List CanonicalAgg → BitVec 64)
    (compile : ℕ → String → Except E P) (requests : List CacheRequest)
    (s : FusedLibraryCache E P) (i : ℕ) : FusedLibraryCache E P :=
  match requests[i]? with
  | none => s
  | some r =>
    let key := hash64 r.sig.identity
    match s.calls i with
    | .waiting =>
      match s.byHash.lookup key with
      | some pso => s.setCall i (.returned (.ok pso))
      | none => s.setCall i .missed
    | .missed =>
      match compile i (r.msl fmtF64) with
      | .ok pso => s.setCall i (.compiled pso)
      | .error e => s.setCall i (.returned (.error e))
    | .compiled pso =>
      match s.byHash.lookup key with
      | some cached => s.setCall i (.returned (.ok cached))
      | none => { s with byHash := s.byHash.insert key pso }.setCall i (.returned (.ok pso))
    | .returned _ => s

variable {fmtF64 : BitVec 64 → String} {hash64 : List MetalDtype × List CanonicalAgg → BitVec 64}
  {compile : ℕ → String → Except E P} {requests : List CacheRequest} {s : FusedLibraryCache E P}
  {i : ℕ} {r : CacheRequest}

@[simp] theorem setCall_byHash (c : CallState E P) : (s.setCall i c).byHash = s.byHash := rfl

theorem setCall_self (c : CallState E P) : (s.setCall i c).calls i = c := Function.update_self ..

theorem setCall_of_ne {j : ℕ} (h : j ≠ i) (c : CallState E P) :
    (s.setCall i c).calls j = s.calls j := Function.update_of_ne h ..

theorem setCall_cases {j : ℕ} {c d : CallState E P} (h : (s.setCall i c).calls j = d) :
    j = i ∧ d = c ∨ s.calls j = d := by
  by_cases hj : j = i
  · subst hj
    exact Or.inl ⟨rfl, by rw [← h, setCall_self]⟩
  · exact Or.inr (by rw [← h, setCall_of_ne hj])

/-- What a cached, compiled or returned pipeline was compiled from. -/
structure CacheSound (fmtF64 : BitVec 64 → String)
    (hash64 : List MetalDtype × List CanonicalAgg → BitVec 64)
    (compile : ℕ → String → Except E P) (requests : List CacheRequest)
    (s : FusedLibraryCache E P) : Prop where
  cached : ∀ key pso, s.byHash.lookup key = some pso → ∃ j r, requests[j]? = some r ∧
    hash64 r.sig.identity = key ∧ compile j (r.msl fmtF64) = .ok pso
  compiled : ∀ i r pso, requests[i]? = some r → s.calls i = .compiled pso →
    compile i (r.msl fmtF64) = .ok pso
  served : ∀ i r pso, requests[i]? = some r → s.calls i = .returned (.ok pso) →
    s.byHash.lookup (hash64 r.sig.identity) = some pso
  failed : ∀ i r e, requests[i]? = some r → s.calls i = .returned (.error e) →
    compile i (r.msl fmtF64) = .error e

/-- What call `i` may come to while the cache stays as it is. -/
inductive Settled (fmtF64 : BitVec 64 → String)
    (hash64 : List MetalDtype × List CanonicalAgg → BitVec 64)
    (compile : ℕ → String → Except E P) (s : FusedLibraryCache E P) (i : ℕ) (r : CacheRequest) :
    CallState E P → Prop
  | missed : Settled fmtF64 hash64 compile s i r .missed
  | compiled {pso} (h : compile i (r.msl fmtF64) = .ok pso) :
    Settled fmtF64 hash64 compile s i r (.compiled pso)
  | served {pso} (h : s.byHash.lookup (hash64 r.sig.identity) = some pso) :
    Settled fmtF64 hash64 compile s i r (.returned (.ok pso))
  | failed {e} (h : compile i (r.msl fmtF64) = .error e) :
    Settled fmtF64 hash64 compile s i r (.returned (.error e))

theorem cacheSound_setCall (hs : CacheSound fmtF64 hash64 compile requests s)
    (hr : requests[i]? = some r) {c : CallState E P}
    (hc : Settled fmtF64 hash64 compile s i r c) :
    CacheSound fmtF64 hash64 compile requests (s.setCall i c) := by
  have hown : ∀ j r', requests[j]? = some r' → j = i → j = i ∧ r' = r := fun j r' hr' hj => by
    subst hj
    exact ⟨rfl, Option.some.inj (hr'.symm.trans hr)⟩
  refine ⟨hs.cached, fun j r' pso hr' hj => ?_, fun j r' pso hr' hj => ?_,
    fun j r' e hr' hj => ?_⟩
  · rcases setCall_cases hj with ⟨hji, rfl⟩ | hj
    · obtain ⟨rfl, rfl⟩ := hown j r' hr' hji
      cases hc with | compiled h => exact h
    · exact hs.compiled j r' pso hr' hj
  · rcases setCall_cases hj with ⟨hji, rfl⟩ | hj
    · obtain ⟨rfl, rfl⟩ := hown j r' hr' hji
      cases hc with | served h => exact h
    · exact hs.served j r' pso hr' hj
  · rcases setCall_cases hj with ⟨hji, rfl⟩ | hj
    · obtain ⟨rfl, rfl⟩ := hown j r' hr' hji
      cases hc with | failed h => exact h
    · exact hs.failed j r' e hr' hj

/-- A fresh pipeline takes a vacant key. -/
theorem cacheSound_insert (hs : CacheSound fmtF64 hash64 compile requests s)
    (hr : requests[i]? = some r) {pso : P} (hpso : compile i (r.msl fmtF64) = .ok pso)
    (hvacant : s.byHash.lookup (hash64 r.sig.identity) = none) :
    CacheSound fmtF64 hash64 compile requests
      { s with byHash := s.byHash.insert (hash64 r.sig.identity) pso } := by
  refine ⟨fun key cached hkey => ?_, hs.compiled, fun j r' pso' hr' hj => ?_, hs.failed⟩
  · by_cases h : key = hash64 r.sig.identity
    · subst h
      rw [AList.lookup_insert] at hkey
      obtain rfl := Option.some.inj hkey
      exact ⟨i, r, hr, rfl, hpso⟩
    · rw [AList.lookup_insert_ne h] at hkey
      exact hs.cached key cached hkey
  · have hold := hs.served j r' pso' hr' hj
    have hne : hash64 r'.sig.identity ≠ hash64 r.sig.identity := fun h => by
      rw [h, hvacant] at hold
      simp at hold
    rw [AList.lookup_insert_ne hne]
    exact hold

theorem cacheSound_step (s : FusedLibraryCache E P) (i : ℕ)
    (hs : CacheSound fmtF64 hash64 compile requests s) :
    CacheSound fmtF64 hash64 compile requests
      (getOrCompile fmtF64 hash64 compile requests s i) := by
  unfold getOrCompile
  cases hr : requests[i]? with
  | none => exact hs
  | some r =>
    cases hcall : s.calls i with
    | waiting =>
      cases hkey : s.byHash.lookup (hash64 r.sig.identity) with
      | some pso => simpa only [hkey] using cacheSound_setCall hs hr (.served hkey)
      | none => simpa only [hkey] using cacheSound_setCall hs hr .missed
    | missed =>
      cases hres : compile i (r.msl fmtF64) with
      | ok pso => simpa only [hres] using cacheSound_setCall hs hr (.compiled hres)
      | error e => simpa only [hres] using cacheSound_setCall hs hr (.failed hres)
    | compiled pso =>
      have hpso := hs.compiled i r pso hr hcall
      cases hkey : s.byHash.lookup (hash64 r.sig.identity) with
      | some cached => simpa only [hkey] using cacheSound_setCall hs hr (.served hkey)
      | none =>
        simpa only [hkey] using cacheSound_setCall (cacheSound_insert hs hr hpso hkey) hr
          (.served (AList.lookup_insert ..))
    | returned result => exact hs

theorem cacheSound_new : CacheSound fmtF64 hash64 compile requests (.new : FusedLibraryCache E P) :=
  ⟨fun _ _ h => by simp [FusedLibraryCache.new] at h, nofun, nofun, nofun⟩

/-- Turns a call has behind it. -/
def CallState.stage : CallState E P → ℕ
  | .waiting => 0
  | .missed => 1
  | .compiled _ => 2
  | .returned _ => 3

theorem stage_step (hr : requests[i]? = some r) : min 3 ((s.calls i).stage + 1) ≤
    ((getOrCompile fmtF64 hash64 compile requests s i).calls i).stage := by
  unfold getOrCompile
  rw [hr]
  cases hcall : s.calls i with
  | waiting =>
    cases hkey : s.byHash.lookup (hash64 r.sig.identity) <;>
      simp [hkey, setCall_self, CallState.stage]
  | missed =>
    cases hres : compile i (r.msl fmtF64) <;> simp [hres, setCall_self, CallState.stage]
  | compiled pso =>
    cases hkey : s.byHash.lookup (hash64 r.sig.identity) <;>
      simp [hkey, setCall_self, CallState.stage]
  | returned result => simp [hcall, CallState.stage]

theorem calls_of_ne {j : ℕ} (h : i ≠ j) :
    (getOrCompile fmtF64 hash64 compile requests s j).calls i = s.calls i := by
  unfold getOrCompile
  cases requests[j]? with
  | none => rfl
  | some r =>
    cases s.calls j with
    | waiting =>
      cases hkey : s.byHash.lookup (hash64 r.sig.identity) <;> simp [hkey, setCall_of_ne h]
    | missed =>
      cases hres : compile j (r.msl fmtF64) <;> simp [hres, setCall_of_ne h]
    | compiled pso =>
      cases hkey : s.byHash.lookup (hash64 r.sig.identity) <;> simp [hkey, setCall_of_ne h]
    | returned result => rfl

/-- Every turn of a call brings it a stage further. -/
theorem stage_run (hr : requests[i]? = some r) (order : List ℕ) :
    min 3 ((s.calls i).stage + order.count i) ≤
      ((run (getOrCompile fmtF64 hash64 compile requests) s order).calls i).stage := by
  induction order generalizing s with
  | nil => exact min_le_right _ _
  | cons j order ih =>
    refine le_trans ?_ ih
    by_cases hj : j = i
    · subst hj
      have hstep : min 3 ((s.calls j).stage + 1) ≤
          ((getOrCompile fmtF64 hash64 compile requests s j).calls j).stage := stage_step hr
      rw [List.count_cons_self]
      omega
    · rw [List.count_cons_of_ne hj, calls_of_ne (Ne.symm hj)]

end Cache

/-- No two requests of one hash but different identities. -/
def NoCollision (hash64 : List MetalDtype × List CanonicalAgg → BitVec 64)
    (requests : List CacheRequest) : Prop :=
  ∀ r ∈ requests, ∀ r' ∈ requests, hash64 r.sig.identity = hash64 r'.sig.identity →
    r.sig.identity = r'.sig.identity

/-- The result of a call is a compilation of its own text. -/
def CompiledFrom {E P : Type*} (compile : ℕ → String → Except E P) (i : ℕ) (msl : String) :
    Except E P → Prop
  | .ok pso => ∃ j, compile j msl = .ok pso
  | .error e => compile i msl = .error e

theorem CacheRequest.sameKernel {r r' : CacheRequest} (h : r.sig.identity = r'.sig.identity) :
    SameKernel r.specs r.sig r'.specs r'.sig :=
  ⟨⟨_, signatureOf_fromSpecs r.built⟩, ⟨_, signatureOf_fromSpecs r'.built⟩, r.slots, r'.slots, h⟩

/-- Whatever the order of the turns, a call with three of them returns, and what it returns was
compiled from the text of its own specs; equal signatures have one text, one slot list and, over
the caller's buffers, one kernel. -/
theorem pipeline_cache_sound {E P : Type*} (fmtF64 : BitVec 64 → String)
    (hash64 : List MetalDtype × List CanonicalAgg → BitVec 64) (compile : ℕ → String → Except E P) :
    (∀ r r' : CacheRequest, r.sig.identity = r'.sig.identity →
      emitMsl fmtF64 r.sig r.specs = emitMsl fmtF64 r'.sig r'.specs ∧
        buildAggSlots r.specs r.sig = buildAggSlots r'.specs r'.sig ∧
        ∀ fl buffers nRows build grid a j,
          fusedFlushes fl r.specs r.sig (kernelInput r.sig buffers nRows build) grid a j =
            fusedFlushes fl r'.specs r'.sig (kernelInput r'.sig buffers nRows build) grid a j) ∧
    ∀ (requests : List CacheRequest), NoCollision hash64 requests → ∀ (order : List ℕ) (i : ℕ)
      (r : CacheRequest), requests[i]? = some r →
        (3 ≤ order.count i → ∃ result,
          (run (getOrCompile fmtF64 hash64 compile requests) .new order).calls i =
            .returned result) ∧
        ∀ result, (run (getOrCompile fmtF64 hash64 compile requests) .new order).calls i =
            .returned result →
          CompiledFrom compile i (emitMsl fmtF64 r.sig r.specs) result := by
  refine ⟨fun r r' h => ?_, fun requests hcoll order i r hr => ⟨fun hcount => ?_,
    fun result hresult => ?_⟩⟩
  · have hsame := CacheRequest.sameKernel h
    refine ⟨hsame.emitMsl_eq fmtF64, hsame.buildAggSlots_eq,
      fun fl buffers nRows build grid a j => ?_⟩
    have hbuffers : SameBuffers (kernelInput r.sig buffers nRows build)
        (kernelInput r'.sig buffers nRows build) := ⟨rfl, rfl, hsame.dtypes, rfl, rfl⟩
    exact hsame.fusedFlushes_eq fl hbuffers rfl rfl grid a j
  · have hstage : min 3 (((.new : FusedLibraryCache E P).calls i).stage + order.count i) ≤
        ((run (getOrCompile fmtF64 hash64 compile requests) .new order).calls i).stage :=
      stage_run hr order
    rw [min_eq_left (by omega)] at hstage
    cases hcall : (run (getOrCompile fmtF64 hash64 compile requests) .new order).calls i with
    | returned result => exact ⟨result, rfl⟩
    | _ => simp [hcall, CallState.stage] at hstage
  · have hs : CacheSound fmtF64 hash64 compile requests _ :=
      run_invariant cacheSound_step cacheSound_new order
    cases result with
    | ok pso =>
      obtain ⟨j, r', hr', hkey, hpso⟩ := hs.cached _ _ (hs.served i r pso hr hresult)
      have hid := hcoll r' (List.mem_of_getElem? hr') r (List.mem_of_getElem? hr) hkey
      have htext : r'.msl fmtF64 = emitMsl fmtF64 r.sig r.specs :=
        (CacheRequest.sameKernel hid).emitMsl_eq fmtF64
      exact ⟨j, htext ▸ hpso⟩
    | error e => exact hs.failed i r e hr hresult

/-- One aggregate of an F32 column. -/
def sampleRequest (name : String) (op : AggOp) : CacheRequest where
  specs := [.simple name op ("out_" ++ name)]
  colDtypes := [(name, .f32)]
  sig := ⟨[name], [.f32], [.simple 0 op .f32]⟩
  built := by
    simp [AggSignature.fromSpecs, internSpec, lookupDtype, intern, slotOf, bind, Except.bind, pure,
      Except.pure]
  slots := by simp

def sampleHash (identity : List MetalDtype × List CanonicalAgg) : BitVec 64 :=
  if identity.2 = [.simple 0 .sum .f32] then 17 else 42

/-- Two calls share a kernel under different column names, beside one of another op. -/
theorem pipeline_cache_sound_sample :
    let fmtF64 : BitVec 64 → String := fun bits => toString bits.toNat ++ ".0"
    let requests := [sampleRequest "a" .sum, sampleRequest "b" .sum, sampleRequest "a" .mean]
    ∃ result, (run (getOrCompile fmtF64 sampleHash
        (fun j msl => (.ok (j, msl) : Except String (ℕ × String))) requests) .new
        [0, 1, 2, 1, 0, 0, 2, 1]).calls 1 = .returned result ∧
      CompiledFrom (fun j msl => .ok (j, msl)) 1
        (emitMsl fmtF64 (sampleRequest "b" .sum).sig (sampleRequest "b" .sum).specs) result := by
  intro fmtF64 requests
  have hcoll : NoCollision sampleHash requests := by unfold NoCollision; decide
  obtain ⟨hreturns, hfrom⟩ := (pipeline_cache_sound fmtF64 sampleHash
    (fun j msl => (.ok (j, msl) : Except String (ℕ × String)))).2 requests hcoll
    [0, 1, 2, 1, 0, 0, 2, 1] 1 (sampleRequest "b" .sum) rfl
  obtain ⟨result, hresult⟩ := hreturns (by decide)
  exact ⟨result, hresult, hfrom result hresult⟩

end PolarsMetal.GroupBy
