import PolarsMetal.Fusion.ScopeValue
import PolarsMetal.Fusion.Variants

/-! What an analyzed scope declares for its inputs. Inputs and descriptors are paired from the
first pass on, and the second pass leaves both alone. -/

namespace PolarsMetal.Fusion
open Fallible

/-! Inputs and descriptors. -/

def declaredDtype (cx : Context) : Descriptor → Except Stop InputDtype
  | .col name =>
    match cx.schema name with
    | some dtype => dtypeToInputStr dtype
    | none => .error .aborted
  | .lit _ => .ok cx.litDtype
  | .gatherKey _ => .ok .i32
  | .gatherValue _ => .ok .f32

abbrev Declares (cx : Context) (input : InputRef) (d : Descriptor) : Prop :=
  declaredDtype cx d = .ok input.dtype

/-- A column the leaves read as itself. -/
def ReadsColumn (cx : Context) (ids : List ℕ) (name : String) : Prop :=
  ∃ id ∈ ids, cx.nt id = .column name ∧ isGathered cx name = none

def ReadsLiteral (nt : NodeTraverser) (ids : List ℕ) : Prop := ∃ id ∈ ids, ∃ v, nt id = .literal v

theorem readsColumn_append {cx : Context} {ids ids' : List ℕ} {name : String} :
    ReadsColumn cx (ids ++ ids') name ↔ ReadsColumn cx ids name ∨ ReadsColumn cx ids' name := by
  simp only [ReadsColumn, List.mem_append, or_and_right, exists_or]

/-- A column the leaves read through the gather. -/
def ReadsGathered (cx : Context) (ids : List ℕ) (name : String) : Prop :=
  ∃ id ∈ ids, cx.nt id = .column name ∧ (isGathered cx name).isSome

/-- Why a leaf may add a descriptor. -/
def AddedBy (cx : Context) (id : ℕ) : Descriptor → Prop
  | .col name => cx.nt id = .column name ∧ isGathered cx name = none
  | .lit _ => ∃ v, cx.nt id = .literal v
  | .gatherKey key => ∃ g, cx.gather = some g ∧ g.keyCol = key
  | .gatherValue name => cx.nt id = .column name ∧ (isGathered cx name).isSome

/-- The first pass so far, from a scope that already had the inputs `base`. -/
structure Declared (cx : Context) (base : List InputRef) (ids : List ℕ) (st : Leaves) : Prop where
  paired : ∃ own, st.scope.inputs = base ++ own ∧ List.Forall₂ (Declares cx) own st.descriptors
  dedup : ∀ name i, st.colDedup.lookup name = some i → .col name ∈ st.descriptors
  reads : ∀ name, ReadsColumn cx ids name → .col name ∈ st.descriptors
  added : ∀ d ∈ st.descriptors, ∃ id ∈ ids, AddedBy cx id d

namespace Declared

variable {cx : Context} {base : List InputRef} {ids : List ℕ} {st : Leaves}

theorem cols (h : Declared cx base ids st) (name : String) :
    .col name ∈ st.descriptors ↔ ReadsColumn cx ids name :=
  ⟨h.added _, h.reads name⟩

theorem lits (h : Declared cx base ids st) (x : PyFloat) (hx : .lit x ∈ st.descriptors) :
    ReadsLiteral cx.nt ids :=
  h.added _ hx

end Declared

structure Adds (cx : Context) (id : ℕ) (st st' : Leaves) : Prop where
  inputs : ∃ new ds, st'.scope.inputs = st.scope.inputs ++ new ∧
    st'.descriptors = st.descriptors ++ ds ∧ List.Forall₂ (Declares cx) new ds ∧
    ∀ d ∈ ds, AddedBy cx id d
  dedup : ∀ name i, st'.colDedup.lookup name = some i →
    (∃ i, st.colDedup.lookup name = some i) ∨ .col name ∈ st'.descriptors
  own : ∀ name, cx.nt id = .column name → isGathered cx name = none →
    (∃ i, st.colDedup.lookup name = some i) ∨ .col name ∈ st'.descriptors

section FirstPass

variable {cx : Context} {base : List InputRef} {ids : List ℕ} {st st' : Leaves} {id : ℕ}

theorem Declared.step (h : Declared cx base ids st) (ha : Adds cx id st st') :
    Declared cx base (ids ++ [id]) st' := by
  obtain ⟨own, hown, hpaired⟩ := h.paired
  obtain ⟨new, ds, hnew, hds, hdeclares, hadded⟩ := ha.inputs
  have hkeep : ∀ d ∈ st.descriptors, d ∈ st'.descriptors := fun d hd => by
    rw [hds]
    exact List.mem_append_left _ hd
  have hold : ∀ name, (∃ i, st.colDedup.lookup name = some i) → .col name ∈ st'.descriptors := by
    rintro name ⟨i, hi⟩
    exact hkeep _ (h.dedup name i hi)
  refine ⟨⟨own ++ new, by rw [hnew, hown, List.append_assoc], ?_⟩, fun name i hi => ?_,
    fun name hname => ?_, fun d hd => ?_⟩
  · rw [hds]
    exact List.rel_append hpaired hdeclares
  · rcases ha.dedup name i hi with hi | hi
    · exact hold name hi
    · exact hi
  · rcases readsColumn_append.1 hname with hread | ⟨id', hid', hcol, hplain⟩
    · exact hkeep _ (h.reads name hread)
    · rw [List.mem_singleton] at hid'
      subst hid'
      rcases ha.own name hcol hplain with hi | hi
      · exact hold name hi
      · exact hi
  · rw [hds, List.mem_append] at hd
    rcases hd with hd | hd
    · obtain ⟨id', hid', hby⟩ := h.added d hd
      exact ⟨id', List.mem_append_left _ hid', hby⟩
    · exact ⟨id, by simp, hadded d hd⟩

theorem adds_nothing (hin : st'.scope.inputs = st.scope.inputs)
    (hds : st'.descriptors = st.descriptors) (hdedup : st'.colDedup = st.colDedup)
    (hown : ∀ name, cx.nt id = .column name → isGathered cx name = none →
      ∃ i, st.colDedup.lookup name = some i) : Adds cx id st st' := by
  refine ⟨⟨[], [], by rw [hin, List.append_nil], by rw [hds, List.append_nil], .nil, by simp⟩,
    fun name i hi => Or.inl ⟨i, hdedup ▸ hi⟩, fun name h₁ h₂ => Or.inl (hown name h₁ h₂)⟩

theorem gatherKeyInput_adds {g : GatherCtx} {name : String} (hid : cx.nt id = .column name)
    (hg : isGathered cx name = some g) (h : gatherKeyInput cx g st = .ok st') :
    Adds cx id st st' := by
  have hown : ∀ name', cx.nt id = .column name' → isGathered cx name' = none →
      ∃ i, st.colDedup.lookup name' = some i := fun name' hid' hplain => by
    obtain rfl : name = name' := LeafNode.column.inj (hid.symm.trans hid')
    rw [hg] at hplain
    cases hplain
  rw [gatherKeyInput] at h
  rcases hk : st.keyIdx with _ | ki
  · simp only [hk] at h
    rcases hs : cx.schema g.keyCol with _ | dtype
    · simp only [hs] at h
      cases h
    · simp only [hs] at h
      obtain rfl := Except.ok.inj h
      have hgather : cx.gather = some g := (Option.filter_eq_some_iff.1 hg).1
      exact ⟨⟨[⟨g.keyCol, .i32⟩], [.gatherKey g.keyCol], rfl, rfl, .cons rfl .nil,
        by simp [AddedBy, hgather]⟩,
        fun _ i hi => Or.inl ⟨i, hi⟩, fun name' h₁ h₂ => Or.inl (hown name' h₁ h₂)⟩
  · simp only [hk] at h
    obtain rfl := Except.ok.inj h
    exact adds_nothing rfl rfl rfl hown

theorem gatherValueInput_adds {g : GatherCtx} {name : String} (hid : cx.nt id = .column name)
    (hg : isGathered cx name = some g) : Adds cx id st (gatherValueInput name st) := by
  have hown : ∀ name', cx.nt id = .column name' → isGathered cx name' = none →
      ∃ i, st.colDedup.lookup name' = some i := fun name' hid' hplain => by
    obtain rfl : name = name' := LeafNode.column.inj (hid.symm.trans hid')
    rw [hg] at hplain
    cases hplain
  rw [gatherValueInput]
  rcases hv : st.valueIdx.lookup name with _ | vi
  · simp only
    exact ⟨⟨[⟨name, .f32⟩], [.gatherValue name], rfl, rfl, .cons rfl .nil,
      by simp [AddedBy, hid, hg]⟩,
      fun _ i hi => Or.inl ⟨i, hi⟩, fun name' h₁ h₂ => Or.inl (hown name' h₁ h₂)⟩
  · simp only
    exact adds_nothing rfl rfl rfl hown

theorem gatherColumn_adds {name : String} (hid : cx.nt id = .column name)
    (hplain : isGathered cx name = none) (h : gatherColumn cx id name st = .ok st') :
    Adds cx id st st' := by
  rw [gatherColumn] at h
  simp only [hplain] at h
  rcases hs : cx.schema name with _ | dtype
  · simp only [hs] at h
    cases h
  · simp only [hs] at h
    rcases hc : st.colDedup.lookup name with _ | idx
    · simp only [hc, bind_eq_ok] at h
      obtain ⟨input, hinput, h⟩ := h
      obtain rfl := Except.ok.inj h
      refine ⟨⟨[⟨name, input⟩], [.col name], rfl, rfl,
        .cons (by simp only [Declares, declaredDtype, hs, hinput]) .nil, by simp [AddedBy, hid, hplain]⟩,
        fun n i hi => ?_, fun n hn _ => Or.inr ?_⟩
      · by_cases hne : n = name
        · subst hne
          exact Or.inr (by simp [Leaves.addDescriptor])
        · exact Or.inl ⟨i, (lookup_cons_of_ne hne _ _).symm.trans hi⟩
      · obtain rfl : name = n := LeafNode.column.inj (hid.symm.trans hn)
        simp [Leaves.addDescriptor]
    · simp only [hc] at h
      obtain rfl := Except.ok.inj h
      refine adds_nothing rfl rfl rfl (fun n hn _ => ?_)
      obtain rfl : name = n := LeafNode.column.inj (hid.symm.trans hn)
      exact ⟨idx, hc⟩

theorem gatherLiteral_adds {v : LitValue} (hid : cx.nt id = .literal v)
    (h : gatherLiteral cx id v st = .ok st') : Adds cx id st st' := by
  have hown : ∀ name, cx.nt id = .column name → isGathered cx name = none →
      ∃ i, st.colDedup.lookup name = some i := fun name hname => by
    rw [hid] at hname
    cases hname
  rw [gatherLiteral] at h
  split_ifs at h
  rcases hx : v.toFloat with _ | x
  · simp only [hx] at h
    cases h
  · simp only [hx] at h
    rcases hl : st.lookupLit x with _ | idx
    · simp only [hl] at h
      obtain rfl := Except.ok.inj h
      exact ⟨⟨[⟨"__lit_" ++ x.repr, cx.litDtype⟩], [.lit x], rfl, rfl, .cons rfl .nil, by simp [AddedBy, hid]⟩,
        fun _ i hi => Or.inl ⟨i, hi⟩, fun name h₁ h₂ => Or.inl (hown name h₁ h₂)⟩
    · simp only [hl] at h
      obtain rfl := Except.ok.inj h
      exact adds_nothing rfl rfl rfl hown

/-- One leaf keeps inputs and descriptors paired. -/
theorem Declared.gatherLeaf (hst : Declared cx base ids st) (h : gatherLeaf cx id st = .ok st') :
    Declared cx base (ids ++ [id]) st' := by
  rw [Fusion.gatherLeaf] at h
  rcases hid : cx.nt id with name | v
  · simp only [hid] at h
    rcases hg : isGathered cx name with _ | g
    · exact hst.step (gatherColumn_adds hid hg h)
    · rw [gatherColumn] at h
      simp only [hg, gatherDimValue, bind_eq_ok] at h
      obtain ⟨mid, hkey, h⟩ := h
      obtain rfl := Except.ok.inj h
      have hmid := hst.step (gatherKeyInput_adds hid hg hkey)
      have hadds : Adds cx id mid (gatherValueInput name mid) := gatherValueInput_adds hid hg
      have hlast := hmid.step hadds
      -- the leaf counted twice reads what it reads
      refine ⟨hlast.paired, hlast.dedup, fun n hn => hlast.reads n ?_, fun d hd => ?_⟩
      · exact readsColumn_append.2 (Or.inl hn)
      · obtain ⟨id', hid', hby⟩ := hlast.added d hd
        exact ⟨id', by simpa using hid', hby⟩
  · simp only [hid] at h
    exact hst.step (gatherLiteral_adds hid h)

theorem Declared.fold (ids' : List ℕ) (hst : Declared cx base ids st)
    (h : ids'.foldlM (fun st id => Fusion.gatherLeaf cx id st) st = .ok st') :
    Declared cx base (ids ++ ids') st' :=
  foldlM_ok_invariant (I := fun ids st => Declared cx base ids st)
    (fun _ _ _ _ hI hstep => hI.gatherLeaf hstep) hst h

theorem Declared.gatherLeaves {e : IRExpr} (hst : Declared cx base ids st)
    (h : gatherLeaves cx e st = .ok st') : Declared cx base (ids ++ leafIds e) st' :=
  hst.fold (leafIds e) (gatherLeaves_fold cx e h)

theorem declared_empty : Declared cx [] [] .empty :=
  ⟨⟨[], rfl, .nil⟩, by rintro _ _ ⟨⟩, by rintro name ⟨id, hid, -⟩; simp at hid,
    by rintro d hd; simp [Leaves.empty] at hd⟩

end FirstPass

/-! The slots of the literals. -/

def leafLiterals (nt : NodeTraverser) (ids : List ℕ) : List LitValue :=
  ids.filterMap (fun id =>
    match nt id with
    | .literal v => some v
    | .column _ => none)

def litFloats (vs : List LitValue) : List PyFloat := vs.filterMap LitValue.toFloat

/-- The literals so far, after those of `base`, have floats, and their slots are among the
descriptors. -/
structure Slotted (base vs : List LitValue) (st : Leaves) : Prop where
  found : ∀ x i, st.lookupLit x = some i → ∃ y,
    (litFloats vs).find? (fun y => y.pyEq x) = some y ∧ (y ∈ litFloats base ∨ .lit y ∈ st.descriptors)
  fresh : ∀ x, st.lookupLit x = none → (litFloats vs).find? (fun y => y.pyEq x) = none
  slots : ∀ v ∈ vs, ∃ x, v.toFloat = some x ∧ x ∈ litFloats vs ∧
    (slotValue (litFloats vs) x ∈ litFloats base ∨
      .lit (slotValue (litFloats vs) x) ∈ st.descriptors)

theorem gatherColumn_literals {cx : Context} {id : ℕ} {name : String} {st st' : Leaves}
    (h : gatherColumn cx id name st = .ok st') :
    st'.litDedup = st.litDedup ∧ st.descriptors ⊆ st'.descriptors := by
  have hsub : ∀ (ds : List Descriptor) (d : Descriptor), ds ⊆ ds ++ [d] :=
    fun ds d => List.subset_append_left _ _
  rw [gatherColumn] at h
  rcases hg : isGathered cx name with _ | g
  · simp only [hg] at h
    rcases hs : cx.schema name with _ | dtype
    · simp only [hs] at h
      cases h
    · simp only [hs] at h
      rcases hc : st.colDedup.lookup name with _ | idx
      · simp only [hc, bind_eq_ok] at h
        obtain ⟨input, -, h⟩ := h
        obtain rfl := Except.ok.inj h
        exact ⟨rfl, hsub _ _⟩
      · simp only [hc] at h
        obtain rfl := Except.ok.inj h
        exact ⟨rfl, List.Subset.refl _⟩
  · simp only [hg, gatherDimValue, bind_eq_ok] at h
    obtain ⟨mid, hkey, h⟩ := h
    obtain rfl := Except.ok.inj h
    have hmid : mid.litDedup = st.litDedup ∧ st.descriptors ⊆ mid.descriptors := by
      rw [gatherKeyInput] at hkey
      rcases hk : st.keyIdx with _ | ki
      · simp only [hk] at hkey
        rcases hs : cx.schema g.keyCol with _ | dtype
        · simp only [hs] at hkey
          cases hkey
        · simp only [hs] at hkey
          obtain rfl := Except.ok.inj hkey
          exact ⟨rfl, hsub _ _⟩
      · simp only [hk] at hkey
        obtain rfl := Except.ok.inj hkey
        exact ⟨rfl, List.Subset.refl _⟩
    rw [gatherValueInput]
    rcases hv : mid.valueIdx.lookup name with _ | vi
    · exact ⟨hmid.1, List.Subset.trans hmid.2 (hsub _ _)⟩
    · exact hmid

namespace Slotted

variable {base vs : List LitValue} {st st' : Leaves}

/-- Gathering something else. -/
theorem keep (h : Slotted base vs st) (hlits : st'.litDedup = st.litDedup)
    (hds : st.descriptors ⊆ st'.descriptors) : Slotted base vs st' := by
  have hlookup : ∀ x, st'.lookupLit x = st.lookupLit x := fun x => by
    rw [Leaves.lookupLit, Leaves.lookupLit, hlits]
  refine ⟨fun x i hx => ?_, fun x hx => h.fresh x (hlookup x ▸ hx), fun v hv => ?_⟩
  · obtain ⟨y, hy, hslot⟩ := h.found x i (hlookup x ▸ hx)
    exact ⟨y, hy, hslot.imp_right (@hds _)⟩
  · obtain ⟨x, hx, hmem, hslot⟩ := h.slots v hv
    exact ⟨x, hx, hmem, hslot.imp_right (@hds _)⟩

theorem gatherLiteral {cx : Context} {id : ℕ} {v : LitValue} (h : Slotted base vs st)
    (hrun : gatherLiteral cx id v st = .ok st') : Slotted base (vs ++ [v]) st' := by
  rw [Fusion.gatherLiteral] at hrun
  split_ifs at hrun
  rcases hx : v.toFloat with _ | x
  · simp only [hx] at hrun
    cases hrun
  have hfloats : litFloats (vs ++ [v]) = litFloats vs ++ [x] := by simp [litFloats, hx]
  have hold : ∀ (st' : Leaves), st.descriptors ⊆ st'.descriptors → ∀ w ∈ vs, ∃ z,
      w.toFloat = some z ∧ z ∈ litFloats vs ++ [x] ∧
        (slotValue (litFloats vs ++ [x]) z ∈ litFloats base ∨
          .lit (slotValue (litFloats vs ++ [x]) z) ∈ st'.descriptors) := by
    intro st' hds w hw
    obtain ⟨z, hz, hmem, hslot⟩ := h.slots w hw
    refine ⟨z, hz, List.mem_append_left _ hmem, ?_⟩
    rw [slotValue_append hmem]
    exact hslot.imp_right (@hds _)
  have hlast : x ∈ litFloats vs ++ [x] := by simp
  simp only [hx] at hrun
  rcases hl : st.lookupLit x with _ | idx
  · simp only [hl] at hrun
    obtain rfl := Except.ok.inj hrun
    have hfind := h.fresh x hl
    have hds : st.descriptors ⊆ st.descriptors ++ [.lit x] := List.subset_append_left _ _
    refine ⟨fun z i hz => ?_, fun z hz => ?_, fun w hw => ?_⟩
    · rw [hfloats]
      change { st with litDedup := (x, _) :: st.litDedup }.lookupLit z = some i at hz
      rw [lookupLit_cons] at hz
      split_ifs at hz with hxz
      · exact ⟨x, by rw [find?_append_of_none (find?_none_of_pyEq hxz hfind), if_pos hxz],
          Or.inr (by simp [Leaves.addDescriptor])⟩
      · obtain ⟨y, hy, hslot⟩ := h.found z i hz
        exact ⟨y, find?_append_of_some hy, hslot.imp_right (@hds _)⟩
    · rw [hfloats]
      change { st with litDedup := (x, _) :: st.litDedup }.lookupLit z = none at hz
      rw [lookupLit_cons] at hz
      split_ifs at hz with hxz
      rw [find?_append_of_none (h.fresh z hz), if_neg hxz]
    · rw [hfloats]
      rcases List.mem_append.1 hw with hw | hw
      · exact hold _ hds w hw
      · obtain rfl := List.mem_singleton.1 hw
        refine ⟨x, hx, hlast, Or.inr ?_⟩
        rw [slotValue_new hfind]
        simp [Leaves.addDescriptor]
  · simp only [hl] at hrun
    obtain rfl := Except.ok.inj hrun
    obtain ⟨y, hy, hslot⟩ := h.found x idx hl
    refine ⟨fun z i hz => ?_, fun z hz => ?_, fun w hw => ?_⟩
    · obtain ⟨y', hy', hslot'⟩ := h.found z i hz
      exact ⟨y', hfloats ▸ find?_append_of_some hy', hslot'⟩
    · rw [hfloats, find?_append_of_none (h.fresh z hz), if_neg (not_pyEq_of_lookupLit hl hz)]
    · rw [hfloats]
      rcases List.mem_append.1 hw with hw | hw
      · exact hold _ (List.Subset.refl _) w hw
      · obtain rfl := List.mem_singleton.1 hw
        refine ⟨x, hx, hlast, ?_⟩
        rw [slotValue_of_find (find?_append_of_some hy)]
        exact hslot

theorem gatherLeaf {cx : Context} {id : ℕ} (h : Slotted base vs st)
    (hrun : gatherLeaf cx id st = .ok st') :
    Slotted base (vs ++ leafLiterals cx.nt [id]) st' := by
  rw [Fusion.gatherLeaf] at hrun
  rcases hid : cx.nt id with name | v
  · simp only [hid] at hrun
    have hnone : leafLiterals cx.nt [id] = [] := by simp [leafLiterals, hid]
    rw [hnone, List.append_nil]
    obtain ⟨hlits, hds⟩ := gatherColumn_literals hrun
    exact h.keep hlits hds
  · simp only [hid] at hrun
    have hone : leafLiterals cx.nt [id] = [v] := by simp [leafLiterals, hid]
    rw [hone]
    exact h.gatherLiteral hrun

theorem fold {cx : Context} (ids : List ℕ) (h : Slotted base vs st)
    (hrun : ids.foldlM (fun st id => Fusion.gatherLeaf cx id st) st = .ok st') :
    Slotted base (vs ++ leafLiterals cx.nt ids) st' := by
  induction ids generalizing vs st with
  | nil =>
    obtain rfl := Except.ok.inj hrun
    rwa [leafLiterals, List.filterMap_nil, List.append_nil]
  | cons id ids ih =>
    rw [List.foldlM_cons, bind_eq_ok] at hrun
    obtain ⟨mid, hid, hrest⟩ := hrun
    have hall := ih (h.gatherLeaf hid) hrest
    rw [List.append_assoc] at hall
    rwa [leafLiterals, ← List.singleton_append, List.filterMap_append]

end Slotted

/-! The second pass leaves the inputs alone. -/

section SecondPass

variable {cx : Context} {st : Leaves} {scope scope' : FusionScope} {idx : ℕ}

theorem visitLeaf_grows {id : ℕ} (h : visitLeaf cx st id scope = .ok (scope', idx)) :
    Grows scope scope' := by
  have hplain : ∀ {i : ℕ}, (.ok (scope, i) : Except Stop (FusionScope × ℕ)) = .ok (scope', idx) →
      Grows scope scope' := by
    intro i h
    obtain ⟨rfl, -⟩ := Prod.mk.inj (Except.ok.inj h)
    exact Grows.refl _
  rw [visitLeaf] at h
  rcases hid : cx.nt id with name | v
  · rcases hg : isGathered cx name with _ | g
    · simp only [hid, hg] at h
      rcases hl : st.leafIdx.lookup id with _ | i
      · simp only [hl] at h
        cases h
      · simp only [hl] at h
        exact hplain h
    · simp only [hid, hg] at h
      rcases hv : st.valueIdx.lookup name with _ | vi
      · simp only [hv] at h
        cases h
      · rcases hk : st.keyIdx with _ | ki
        · simp only [hv, hk] at h
          cases h
        · simp only [hv, hk] at h
          exact (pushOp_eq_ok h).2.1
  · simp only [hid] at h
    rcases hl : st.leafIdx.lookup id with _ | i
    · simp only [hl] at h
      cases h
    · simp only [hl] at h
      exact hplain h

mutual

theorem visitIrOps_grows (e : IRExpr) {scope scope' : FusionScope} {idx : ℕ}
    (h : visitIrOps cx st e scope = .ok (scope', idx)) : Grows scope scope' := by
  match e with
  | .leaf id => exact visitLeaf_grows h
  | .binary op left right =>
    rw [visitIrOps] at h
    rcases hop : binopMap op with _ | opId
    · simp only [hop] at h
      cases h
    · simp only [hop, bind_eq_ok] at h
      obtain ⟨⟨s₁, l⟩, hl, ⟨s₂, r⟩, hr, h⟩ := h
      exact ((visitIrOps_grows left hl).trans (visitIrOps_grows right hr)).trans (pushOp_eq_ok h).2.1
  | .cast dtype e =>
    rw [visitIrOps] at h
    split_ifs at h
    obtain ⟨⟨s₁, child⟩, hc, h⟩ := bind_eq_ok.1 h
    exact (visitIrOps_grows e hc).trans (pushOp_eq_ok h).2.1
  | .function data input =>
    by_cases hshift : data = .shift
    · subst hshift
      rw [visitIrOps, bind_eq_ok] at h
      obtain ⟨w, -, h⟩ := h
      obtain ⟨⟨s₁, child⟩, hc, h⟩ := bind_eq_ok.1 h
      exact (visitFirst_grows input hc).trans (pushOp_eq_ok h).2.1
    by_cases hlog : data = .log
    · subst hlog
      rw [visitIrOps, bind_eq_ok] at h
      obtain ⟨opId, -, h⟩ := h
      obtain ⟨⟨s₁, child⟩, hc, h⟩ := bind_eq_ok.1 h
      exact (visitFirst_grows input hc).trans (pushOp_eq_ok h).2.1
    by_cases hpow : data = .pow
    · subst hpow
      rw [visitIrOps] at h
      split_ifs at h
      obtain ⟨⟨s₁, children⟩, hc, h⟩ := bind_eq_ok.1 h
      exact (visitAll_grows input hc).trans (pushOp_eq_ok h).2.1
    · rw [visitIrOps_function hshift hlog hpow] at h
      split_ifs at h
      rcases hop : irFunctionMap data with _ | opId
      · simp only [hop] at h
        cases h
      · simp only [hop] at h
        obtain ⟨⟨s₁, children⟩, hc, h⟩ := bind_eq_ok.1 h
        exact (visitAll_grows input hc).trans (pushOp_eq_ok h).2.1
  | .agg name arguments =>
    rw [visitIrOps] at h
    rcases hop : aggMap name with _ | opId
    · simp only [hop] at h
      cases h
    · simp only [hop] at h
      obtain ⟨⟨s₁, child⟩, hc, h⟩ := bind_eq_ok.1 h
      exact (visitFirst_grows arguments hc).trans (pushOp_eq_ok h).2.1
  | .ternary p t f =>
    rw [visitIrOps, bind_eq_ok] at h
    obtain ⟨⟨s₁, c⟩, hp, h⟩ := h
    obtain ⟨⟨s₂, u⟩, ht, h⟩ := bind_eq_ok.1 h
    obtain ⟨⟨s₃, v⟩, hf, h⟩ := bind_eq_ok.1 h
    exact (((visitIrOps_grows p hp).trans (visitIrOps_grows t ht)).trans
      (visitIrOps_grows f hf)).trans (pushOp_eq_ok h).2.1
  | .hidden => cases h

theorem visitFirst_grows (es : List IRExpr) {scope scope' : FusionScope} {idx : ℕ}
    (h : visitFirst cx st es scope = .ok (scope', idx)) : Grows scope scope' := by
  match es with
  | [] => cases h
  | e :: _ => exact visitIrOps_grows e h

theorem visitAll_grows (es : List IRExpr) {scope scope' : FusionScope} {idxs : List ℕ}
    (h : visitAll cx st es scope = .ok (scope', idxs)) : Grows scope scope' := by
  match es with
  | [] =>
    obtain ⟨rfl, -⟩ := Prod.mk.inj (Except.ok.inj h)
    exact Grows.refl _
  | e :: es =>
    rw [visitAll, bind_eq_ok] at h
    obtain ⟨⟨s₁, i⟩, he, h⟩ := h
    obtain ⟨⟨s₂, is⟩, hes, h⟩ := bind_eq_ok.1 h
    obtain ⟨rfl, -⟩ := Prod.mk.inj (Except.ok.inj h)
    exact (visitIrOps_grows e he).trans (visitAll_grows es hes)

end

theorem validityAnd_grows {idxs : List ℕ} {oneIdx : ℕ}
    (h : validityAnd scope idxs oneIdx = .ok (scope', idx)) : Grows scope scope' := by
  rw [validityAnd] at h
  rcases hops : idxs.filter (· ≠ oneIdx) with _ | ⟨acc, rest⟩
  · simp only [hops] at h
    obtain ⟨rfl, -⟩ := Prod.mk.inj (Except.ok.inj h)
    exact Grows.refl _
  · simp only [hops] at h
    exact foldlM_ok_invariant (q := ([] : List ℕ)) (I := fun _ (s : FusionScope × ℕ) => Grows scope s.1)
      (fun _ _ _ _ hI hstep => hI.trans (pushOp_eq_ok hstep).2.1) (Grows.refl _) h

theorem visitValidity_function {data : IRFunction} (hdata : data ≠ .shift) (cx : Context)
    (t : ValidityTables) (input : List IRExpr) (scope : FusionScope) :
    visitValidity cx t (.function data input) scope =
      if isReverseCumulative data then .error .aborted
      else if isCumulative data ∧ t.structuralOnly = false then .error .aborted
      else if data ≠ .log ∧ data ≠ .pow ∧ irFunctionMap data = none then .error .aborted
      else visitValidityAll cx t input scope >>= fun s => validityAnd s.1 s.2 t.oneIdx := by
  cases data <;> first | exact absurd rfl hdata | rfl

variable {t : ValidityTables}

mutual

theorem visitValidity_grows (e : IRExpr) {scope scope' : FusionScope} {idx : ℕ}
    (h : visitValidity cx t e scope = .ok (scope', idx)) : Grows scope scope' := by
  match e with
  | .leaf id =>
    rw [visitValidity] at h
    rcases hid : cx.nt id with name | v
    · simp only [hid] at h
      rcases hv : t.valid.validIdx.lookup name with _ | i
      · simp only [hv] at h
        cases h
      · simp only [hv] at h
        obtain ⟨rfl, -⟩ := Prod.mk.inj (Except.ok.inj h)
        exact Grows.refl _
    · simp only [hid] at h
      obtain ⟨rfl, -⟩ := Prod.mk.inj (Except.ok.inj h)
      exact Grows.refl _
  | .binary op left right =>
    rw [visitValidity] at h
    split at h
    · cases h
    · cases h
    · cases h
    · obtain ⟨⟨s₁, l⟩, hl, h⟩ := bind_eq_ok.1 h
      obtain ⟨⟨s₂, r⟩, hr, h⟩ := bind_eq_ok.1 h
      exact ((visitValidity_grows left hl).trans (visitValidity_grows right hr)).trans
        (validityAnd_grows h)
  | .cast dtype e =>
    rw [visitValidity] at h
    split_ifs at h
    exact visitValidity_grows e h
  | .function data input =>
    by_cases hshift : data = .shift
    · subst hshift
      rw [visitValidity, bind_eq_ok] at h
      obtain ⟨w, -, h⟩ := h
      obtain ⟨⟨s₁, child⟩, hc, h⟩ := bind_eq_ok.1 h
      exact (visitValidityFirst_grows input hc).trans (pushOp_eq_ok h).2.1
    · rw [visitValidity_function hshift] at h
      split_ifs at h
      obtain ⟨⟨s₁, children⟩, hc, h⟩ := bind_eq_ok.1 h
      exact (visitValidityAll_grows input hc).trans (validityAnd_grows h)
  | .ternary p u f =>
    rw [visitValidity, bind_eq_ok] at h
    obtain ⟨⟨s₁, c⟩, hp, h⟩ := h
    obtain ⟨⟨s₂, u'⟩, hu, h⟩ := bind_eq_ok.1 h
    obtain ⟨⟨s₃, v⟩, hf, h⟩ := bind_eq_ok.1 h
    exact (((visitIrOps_grows p hp).trans (visitValidity_grows u hu)).trans
      (visitValidity_grows f hf)).trans (pushOp_eq_ok h).2.1
  | .agg name arguments => cases h
  | .hidden => cases h

theorem visitValidityFirst_grows (es : List IRExpr) {scope scope' : FusionScope} {idx : ℕ}
    (h : visitValidityFirst cx t es scope = .ok (scope', idx)) : Grows scope scope' := by
  match es with
  | [] => cases h
  | e :: _ => exact visitValidity_grows e h

theorem visitValidityAll_grows (es : List IRExpr) {scope scope' : FusionScope} {idxs : List ℕ}
    (h : visitValidityAll cx t es scope = .ok (scope', idxs)) : Grows scope scope' := by
  match es with
  | [] =>
    obtain ⟨rfl, -⟩ := Prod.mk.inj (Except.ok.inj h)
    exact Grows.refl _
  | e :: es =>
    rw [visitValidityAll, bind_eq_ok] at h
    obtain ⟨⟨s₁, i⟩, he, h⟩ := h
    obtain ⟨⟨s₂, is⟩, hes, h⟩ := bind_eq_ok.1 h
    obtain ⟨rfl, -⟩ := Prod.mk.inj (Except.ok.inj h)
    exact (visitValidity_grows e he).trans (visitValidityAll_grows es hes)

end

end SecondPass

/-! The conditions' leaves, and the is-valid inputs before them. -/

mutual

/-- The leaves inside conditions, in the order the validity analysis reads them. -/
def condLeafIds : IRExpr → List ℕ
  | .leaf _ => []
  | .binary _ left right => condLeafIds left ++ condLeafIds right
  | .cast _ e => condLeafIds e
  | .function .shift input => firstCondLeafIds input
  | .function _ input => allCondLeafIds input
  | .ternary p t f => leafIds p ++ (condLeafIds t ++ condLeafIds f)
  | .agg _ _ | .hidden => []

def firstCondLeafIds : List IRExpr → List ℕ
  | [] => []
  | e :: _ => condLeafIds e

def allCondLeafIds : List IRExpr → List ℕ
  | [] => []
  | e :: es => condLeafIds e ++ allCondLeafIds es

end

theorem condLeafIds_function {data : IRFunction} (h : data ≠ .shift) (input : List IRExpr) :
    condLeafIds (.function data input) = allCondLeafIds input := by
  cases data <;> first | exact absurd rfl h | rfl

theorem gatherCondValueLeaves_function {data : IRFunction} (h : data ≠ .shift) (cx : Context)
    (input : List IRExpr) (st : Leaves) :
    gatherCondValueLeaves cx (.function data input) st = gatherCondValueAll cx input st := by
  cases data <;> first | exact absurd rfl h | rfl

section Conditions

variable {cx : Context} {base : List InputRef}

mutual

/-- The conditions' leaves are gathered one after the other. -/
theorem gatherCondValueLeaves_fold (e : IRExpr) {st st' : Leaves}
    (h : gatherCondValueLeaves cx e st = .ok st') :
    (condLeafIds e).foldlM (fun st id => gatherLeaf cx id st) st = .ok st' := by
  match e with
  | .leaf id => exact h
  | .binary op left right =>
    rw [gatherCondValueLeaves, bind_eq_ok] at h
    obtain ⟨mid, hl, hr⟩ := h
    rw [condLeafIds]
    exact foldlM_append_eq_ok (gatherCondValueLeaves_fold left hl) (gatherCondValueLeaves_fold right hr)
  | .cast dtype e => exact gatherCondValueLeaves_fold e h
  | .function data input =>
    by_cases hshift : data = .shift
    · subst hshift
      exact gatherCondValueFirst_fold input h
    · rw [gatherCondValueLeaves_function hshift] at h
      rw [condLeafIds_function hshift]
      exact gatherCondValueAll_fold input h
  | .ternary p t f =>
    rw [gatherCondValueLeaves, bind_eq_ok] at h
    obtain ⟨st₁, hp, h⟩ := h
    obtain ⟨st₂, ht, hf⟩ := bind_eq_ok.1 h
    rw [condLeafIds]
    exact foldlM_append_eq_ok (gatherLeaves_fold cx p hp)
      (foldlM_append_eq_ok (gatherCondValueLeaves_fold t ht) (gatherCondValueLeaves_fold f hf))
  | .agg name arguments => cases h
  | .hidden => cases h

theorem gatherCondValueFirst_fold (es : List IRExpr) {st st' : Leaves}
    (h : gatherCondValueFirst cx es st = .ok st') :
    (firstCondLeafIds es).foldlM (fun st id => gatherLeaf cx id st) st = .ok st' := by
  match es with
  | [] => cases h
  | e :: _ => exact gatherCondValueLeaves_fold e h

theorem gatherCondValueAll_fold (es : List IRExpr) {st st' : Leaves}
    (h : gatherCondValueAll cx es st = .ok st') :
    (allCondLeafIds es).foldlM (fun st id => gatherLeaf cx id st) st = .ok st' := by
  match es with
  | [] => exact h
  | e :: es =>
    rw [gatherCondValueAll, bind_eq_ok] at h
    obtain ⟨mid, he, hes⟩ := h
    rw [allCondLeafIds]
    exact foldlM_append_eq_ok (gatherCondValueLeaves_fold e he) (gatherCondValueAll_fold es hes)

end

theorem Declared.condValueLeaves (e : IRExpr) {ids : List ℕ} {st st' : Leaves}
    (hst : Declared cx base ids st) (h : gatherCondValueLeaves cx e st = .ok st') :
    Declared cx base (ids ++ condLeafIds e) st' :=
  hst.fold (condLeafIds e) (gatherCondValueLeaves_fold e h)

/-- The is-valid inputs: one F32 input a name, after the constant one. -/
def ValidDeclared (st : ValidLeaves) : Prop :=
  ∃ own, st.scope.inputs = ⟨"__lit_1.0", .f32⟩ :: own ∧
    List.Forall₂ (fun (input : InputRef) (_ : String) => input.dtype = .f32) own st.names

theorem ValidDeclared.add {st : ValidLeaves} (h : ValidDeclared st) (name : String) :
    ValidDeclared (st.add name) := by
  rw [ValidLeaves.add]
  rcases st.validIdx.lookup name with _ | i
  · obtain ⟨own, hown, hpaired⟩ := h
    refine ⟨own ++ [⟨"__valid_" ++ name, .f32⟩], ?_, List.rel_append hpaired (.cons rfl .nil)⟩
    simp only [FusionScope.addInput, hown, List.cons_append]
  · exact h

theorem gatherValidLeaves_function {data : IRFunction} (h : data ≠ .shift) (nt : NodeTraverser)
    (input : List IRExpr) (st : ValidLeaves) :
    gatherValidLeaves nt (.function data input) st = gatherValidAll nt input st := by
  cases data <;> first | exact absurd rfl h | rfl

mutual

theorem ValidDeclared.gatherValidLeaves {nt : NodeTraverser} (e : IRExpr) {st st' : ValidLeaves}
    (hst : ValidDeclared st) (h : gatherValidLeaves nt e st = .ok st') : ValidDeclared st' := by
  match e with
  | .leaf id =>
    rw [Fusion.gatherValidLeaves] at h
    rcases hid : nt id with name | v
    · simp only [hid] at h
      obtain rfl := Except.ok.inj h
      exact hst.add name
    · simp only [hid] at h
      obtain rfl := Except.ok.inj h
      exact hst
  | .binary op left right =>
    rw [Fusion.gatherValidLeaves, bind_eq_ok] at h
    obtain ⟨mid, hl, hr⟩ := h
    exact (hst.gatherValidLeaves left hl).gatherValidLeaves right hr
  | .cast dtype e => exact hst.gatherValidLeaves e h
  | .function data input =>
    by_cases hshift : data = .shift
    · subst hshift
      exact hst.gatherValidFirst input h
    · rw [gatherValidLeaves_function hshift] at h
      exact hst.gatherValidAll input h
  | .ternary p t f =>
    rw [Fusion.gatherValidLeaves, bind_eq_ok] at h
    obtain ⟨st₁, hp, h⟩ := h
    obtain ⟨st₂, ht, hf⟩ := bind_eq_ok.1 h
    exact ((hst.gatherValidLeaves p hp).gatherValidLeaves t ht).gatherValidLeaves f hf
  | .agg name arguments => cases h
  | .hidden => cases h

theorem ValidDeclared.gatherValidFirst {nt : NodeTraverser} (es : List IRExpr) {st st' : ValidLeaves}
    (hst : ValidDeclared st) (h : gatherValidFirst nt es st = .ok st') : ValidDeclared st' := by
  match es with
  | [] => cases h
  | e :: _ => exact hst.gatherValidLeaves e h

theorem ValidDeclared.gatherValidAll {nt : NodeTraverser} (es : List IRExpr) {st st' : ValidLeaves}
    (hst : ValidDeclared st) (h : gatherValidAll nt es st = .ok st') : ValidDeclared st' := by
  match es with
  | [] =>
    obtain rfl := Except.ok.inj h
    exact hst
  | e :: es =>
    rw [Fusion.gatherValidAll, bind_eq_ok] at h
    obtain ⟨mid, he, hes⟩ := h
    exact (hst.gatherValidLeaves e he).gatherValidAll es hes

end

end Conditions

end PolarsMetal.Fusion
