import PolarsMetal.Fusion.Analyzer

/-! What an analyzed scope computes: the tree with every node replaced by the op
pushed for it, every column by its bound value and every literal by the value of
the slot it shares. The first pass is a fold over the tree's leaves, the second
keeps every earlier node of the scope in place. -/

namespace PolarsMetal.Fusion
open Fallible StraightLine

/-! The leaves the first pass reads, in its order. -/

mutual

def leafIds : IRExpr → List ℕ
  | .leaf id => [id]
  | .binary _ left right => leafIds left ++ leafIds right
  | .cast _ e => leafIds e
  | .function .shift input => firstLeafIds input
  | .function _ input => allLeafIds input
  | .agg _ arguments => firstLeafIds arguments
  | .ternary p t f => leafIds p ++ (leafIds t ++ leafIds f)
  | .hidden => []

def firstLeafIds : List IRExpr → List ℕ
  | [] => []
  | e :: _ => leafIds e

def allLeafIds : List IRExpr → List ℕ
  | [] => []
  | e :: es => leafIds e ++ allLeafIds es

end

theorem foldlM_append_eq_ok {ε : Type*} {α β : Type} {f : β → α → Except ε β} {xs ys : List α}
    {b b₁ b₂ : β} (h₁ : xs.foldlM f b = .ok b₁) (h₂ : ys.foldlM f b₁ = .ok b₂) :
    (xs ++ ys).foldlM f b = .ok b₂ := by
  rw [List.foldlM_append, h₁]
  exact h₂

theorem leafIds_function {data : IRFunction} (h : data ≠ .shift) (input : List IRExpr) :
    leafIds (.function data input) = allLeafIds input := by
  cases data <;> first | exact absurd rfl h | rfl

theorem gatherLeaves_function {data : IRFunction} (h : data ≠ .shift) (cx : Context)
    (input : List IRExpr) (st : Leaves) :
    gatherLeaves cx (.function data input) st =
      if data ≠ .log ∧ data ≠ .pow ∧ irFunctionMap data = none then .error .aborted
      else if isReverseCumulative data then .error .aborted
      else gatherAll cx input st := by
  cases data <;> first | exact absurd rfl h | rfl

mutual

theorem gatherLeaves_fold (cx : Context) (e : IRExpr) {st st' : Leaves}
    (h : gatherLeaves cx e st = .ok st') :
    (leafIds e).foldlM (fun st id => gatherLeaf cx id st) st = .ok st' := by
  match e with
  | .leaf id =>
    rw [gatherLeaves] at h
    rw [leafIds, List.foldlM_cons, h]
    rfl
  | .binary op left right =>
    rw [gatherLeaves, bind_eq_ok] at h
    obtain ⟨mid, hl, hr⟩ := h
    rw [leafIds]
    exact foldlM_append_eq_ok (gatherLeaves_fold cx left hl) (gatherLeaves_fold cx right hr)
  | .cast dtype e =>
    rw [gatherLeaves] at h
    split_ifs at h
    exact gatherLeaves_fold cx e h
  | .function data input =>
    by_cases hdata : data = .shift
    · subst hdata
      rw [gatherLeaves, bind_eq_ok] at h
      obtain ⟨w, -, h⟩ := h
      exact gatherFirst_fold cx input h
    · rw [gatherLeaves_function hdata] at h
      rw [leafIds_function hdata]
      split_ifs at h
      exact gatherAll_fold cx input h
  | .agg name arguments =>
    rw [gatherLeaves] at h
    split_ifs at h
    exact gatherFirst_fold cx arguments h
  | .ternary p t f =>
    rw [gatherLeaves, bind_eq_ok] at h
    obtain ⟨st₁, hp, h⟩ := h
    rw [bind_eq_ok] at h
    obtain ⟨st₂, ht, hf⟩ := h
    rw [leafIds]
    exact foldlM_append_eq_ok (gatherLeaves_fold cx p hp)
      (foldlM_append_eq_ok (gatherLeaves_fold cx t ht) (gatherLeaves_fold cx f hf))
  | .hidden => cases h

theorem gatherFirst_fold (cx : Context) (es : List IRExpr) {st st' : Leaves}
    (h : gatherFirst cx es st = .ok st') :
    (firstLeafIds es).foldlM (fun st id => gatherLeaf cx id st) st = .ok st' := by
  match es with
  | [] => cases h
  | e :: _ => exact gatherLeaves_fold cx e h

theorem gatherAll_fold (cx : Context) (es : List IRExpr) {st st' : Leaves}
    (h : gatherAll cx es st = .ok st') :
    (allLeafIds es).foldlM (fun st id => gatherLeaf cx id st) st = .ok st' := by
  match es with
  | [] => exact h
  | e :: es =>
    rw [gatherAll, bind_eq_ok] at h
    obtain ⟨mid, he, hes⟩ := h
    rw [allLeafIds]
    exact foldlM_append_eq_ok (gatherLeaves_fold cx e he) (gatherAll_fold cx es hes)

end

/-! The leaf table. -/

/-- The literal values of a list of leaves. -/
def litValues (nt : NodeTraverser) (ids : List ℕ) : List PyFloat :=
  ids.filterMap (fun id =>
    match nt id with
    | .literal v => v.toFloat
    | .column _ => none)

/-- The value of the slot a literal shares: the first equal literal's. -/
def slotValue (lits : List PyFloat) (x : PyFloat) : PyFloat :=
  (lits.find? (fun y => y.pyEq x)).getD x

theorem PyFloat.pyEq_nan (y : PyFloat) : y.pyEq nan = false := by cases y <;> rfl

theorem PyFloat.pyEq_self {x : PyFloat} (h : x ≠ nan) : x.pyEq x = true := by
  cases x with
  | nan => exact absurd rfl h
  | inf negative => simp [pyEq]
  | negZero => rfl
  | finite v => simp [pyEq]

theorem PyFloat.pyEq_comm (x y : PyFloat) : x.pyEq y = y.pyEq x := by
  cases x <;> cases y <;> simp [pyEq, eq_comm]

theorem PyFloat.pyEq_trans {x y z : PyFloat} (hxy : x.pyEq y = true) (hyz : y.pyEq z = true) :
    x.pyEq z = true := by
  cases x <;> cases y <;> cases z <;> simp_all [pyEq]

theorem find?_nan (lits : List PyFloat) : lits.find? (fun y => y.pyEq .nan) = none :=
  List.find?_eq_none.2 (fun y _ => by simp [PyFloat.pyEq_nan])

theorem slotValue_of_find {lits : List PyFloat} {x y : PyFloat}
    (h : lits.find? (fun y => y.pyEq x) = some y) : slotValue lits x = y := by
  rw [slotValue, h]
  rfl

theorem slotValue_append {lits : List PyFloat} {x : PyFloat} (h : x ∈ lits) (more : List PyFloat) :
    slotValue (lits ++ more) x = slotValue lits x := by
  by_cases hx : x = .nan
  · subst hx
    rw [slotValue, slotValue, find?_nan, find?_nan]
  · rcases hfind : lits.find? (fun y => y.pyEq x) with _ | y
    · exact absurd (PyFloat.pyEq_self hx) (List.find?_eq_none.1 hfind x h)
    · rw [slotValue_of_find hfind, slotValue_of_find (by rw [List.find?_append, hfind]; rfl)]

theorem slotValue_new {lits : List PyFloat} {x : PyFloat}
    (h : lits.find? (fun y => y.pyEq x) = none) : slotValue (lits ++ [x]) x = x := by
  rw [slotValue, List.find?_append, h, Option.none_or, List.find?_singleton]
  split_ifs <;> rfl

/-- A literal with a slot and one without are not equal. -/
theorem not_pyEq_of_lookupLit {st : Leaves} {x z : PyFloat} {idx : ℕ} (hx : st.lookupLit x = some idx)
    (hz : st.lookupLit z = none) : ¬x.pyEq z = true := by
  intro hxz
  rw [Leaves.lookupLit, Option.map_eq_some_iff] at hx
  obtain ⟨entry, hentry, -⟩ := hx
  rw [Leaves.lookupLit, Option.map_eq_none_iff, List.find?_eq_none] at hz
  have hentryx : entry.1.pyEq x = true := by simpa using List.find?_some hentry
  exact hz entry (List.mem_of_find?_eq_some hentry) (PyFloat.pyEq_trans hentryx hxz)

theorem find?_none_of_pyEq {lits : List PyFloat} {x z : PyFloat} (hxz : x.pyEq z = true)
    (h : lits.find? (fun y => y.pyEq x) = none) : lits.find? (fun y => y.pyEq z) = none :=
  List.find?_eq_none.2 (fun y hy hyz =>
    List.find?_eq_none.1 h y hy (PyFloat.pyEq_trans hyz (PyFloat.pyEq_comm x z ▸ hxz)))

theorem find?_append_of_some {lits : List PyFloat} {x y z : PyFloat}
    (h : lits.find? (fun y => y.pyEq z) = some y) :
    (lits ++ [x]).find? (fun y => y.pyEq z) = some y := by
  rw [List.find?_append, h]
  rfl

theorem find?_append_of_none {lits : List PyFloat} {x z : PyFloat}
    (h : lits.find? (fun y => y.pyEq z) = none) :
    (lits ++ [x]).find? (fun y => y.pyEq z) = if x.pyEq z then some x else none := by
  rw [List.find?_append, h, Option.none_or, List.find?_singleton]

theorem lookupLit_cons {st : Leaves} {x z : PyFloat} {idx : ℕ} :
    { st with litDedup := (x, idx) :: st.litDedup }.lookupLit z =
      if x.pyEq z then some idx else st.lookupLit z := by
  rw [Leaves.lookupLit, List.find?_cons]
  by_cases hxz : x.pyEq z = true
  · simp [hxz]
  · simp [hxz, Leaves.lookupLit]

/-- The dedup tables point at the slots they name. -/
structure Tables (cx : Context) (lits : List PyFloat) (st : Leaves) : Prop where
  noOps : st.scope.ops = [] ∧ st.scope.outputs = []
  slots : st.descriptors.length = st.scope.inputs.length
  col : ∀ name i, st.colDedup.lookup name = some i → st.descriptors[i]? = some (.col name)
  lit : ∀ x i, st.lookupLit x = some i →
    ∃ y, lits.find? (fun y => y.pyEq x) = some y ∧ st.descriptors[i]? = some (.lit y)
  newLit : ∀ x, st.lookupLit x = none → lits.find? (fun y => y.pyEq x) = none
  key : ∀ i, st.keyIdx = some i → ∃ g, cx.gather = some g ∧
    st.descriptors[i]? = some (.gatherKey g.keyCol)
  value : ∀ name i, st.valueIdx.lookup name = some i →
    st.descriptors[i]? = some (.gatherValue name) ∧ st.keyIdx.isSome

/-- What the second pass finds for a leaf. -/
def LeafReady (cx : Context) (lits : List PyFloat) (st : Leaves) (id : ℕ) : Prop :=
  match cx.nt id with
  | .column name =>
    match isGathered cx name with
    | some g => ∃ vi ki, st.valueIdx.lookup name = some vi ∧ st.keyIdx = some ki ∧
        st.descriptors[vi]? = some (.gatherValue name) ∧
        st.descriptors[ki]? = some (.gatherKey g.keyCol)
    | none => ∃ i, st.leafIdx.lookup id = some i ∧ st.descriptors[i]? = some (.col name)
  | .literal v => ∃ x i, v.toFloat = some x ∧ x ∈ lits ∧ st.leafIdx.lookup id = some i ∧
      st.descriptors[i]? = some (.lit (slotValue lits x))

namespace Tables

variable {cx : Context} {lits : List PyFloat} {st : Leaves}

theorem addDescriptor (ht : Tables cx lits st) (name : String) (dtype : InputDtype) (d : Descriptor) :
    Tables cx lits (st.addDescriptor name dtype d).1 ∧
      (st.addDescriptor name dtype d).1.descriptors[(st.addDescriptor name dtype d).2]? = some d := by
  have hpre : st.descriptors <+: st.descriptors ++ [d] := List.prefix_append _ _
  refine ⟨⟨ht.noOps, ?_, fun n i h => getElem?_of_extends hpre (ht.col n i h), fun x i h => ?_,
    ht.newLit, fun i h => ?_, fun n i h => ?_⟩, ?_⟩
  · simp [Leaves.addDescriptor, FusionScope.addInput, ht.slots]
  · obtain ⟨y, hy, hslot⟩ := ht.lit x i h
    exact ⟨y, hy, getElem?_of_extends hpre hslot⟩
  · obtain ⟨g, hg, hslot⟩ := ht.key i h
    exact ⟨g, hg, getElem?_of_extends hpre hslot⟩
  · obtain ⟨hslot, hkey⟩ := ht.value n i h
    exact ⟨getElem?_of_extends hpre hslot, hkey⟩
  · change (st.descriptors ++ [d])[st.scope.inputs.length]? = some d
    rw [← ht.slots]
    exact List.getElem?_concat_length

theorem setLeaf (ht : Tables cx lits st) (leafIdx : List (ℕ × ℕ)) :
    Tables cx lits { st with leafIdx := leafIdx } :=
  ⟨ht.noOps, ht.slots, ht.col, ht.lit, ht.newLit, ht.key, ht.value⟩

theorem insertCol (ht : Tables cx lits st) {name : String} {idx : ℕ}
    (hslot : st.descriptors[idx]? = some (.col name)) :
    Tables cx lits { st with colDedup := (name, idx) :: st.colDedup } := by
  refine ⟨ht.noOps, ht.slots, fun n i h => ?_, ht.lit, ht.newLit, ht.key, ht.value⟩
  rw [List.lookup_cons] at h
  split at h
  · rename_i heq
    obtain rfl : n = name := by simpa using heq
    obtain rfl := Option.some.inj h
    exact hslot
  · exact ht.col n i h

/-- A literal that shares a slot. -/
theorem shareLit (ht : Tables cx lits st) {x : PyFloat} {idx : ℕ} (hx : st.lookupLit x = some idx) :
    Tables cx (lits ++ [x]) st := by
  refine ⟨ht.noOps, ht.slots, ht.col, fun z i h => ?_, fun z h => ?_, ht.key, ht.value⟩
  · obtain ⟨y, hy, hslot⟩ := ht.lit z i h
    exact ⟨y, find?_append_of_some hy, hslot⟩
  · rw [find?_append_of_none (ht.newLit z h), if_neg (not_pyEq_of_lookupLit hx h)]

/-- A literal that gets a slot of its own. -/
theorem insertLit (ht : Tables cx lits st) {x : PyFloat} {idx : ℕ} (hx : st.lookupLit x = none)
    (hslot : st.descriptors[idx]? = some (.lit x)) :
    Tables cx (lits ++ [x]) { st with litDedup := (x, idx) :: st.litDedup } := by
  have hfind := ht.newLit x hx
  refine ⟨ht.noOps, ht.slots, ht.col, fun z i h => ?_, fun z h => ?_, ht.key, ht.value⟩
  · rw [lookupLit_cons] at h
    split_ifs at h with hxz
    · obtain rfl := Option.some.inj h
      exact ⟨x, by rw [find?_append_of_none (find?_none_of_pyEq hxz hfind), if_pos hxz], hslot⟩
    · obtain ⟨y, hy, hslot'⟩ := ht.lit z i h
      exact ⟨y, find?_append_of_some hy, hslot'⟩
  · rw [lookupLit_cons] at h
    split_ifs at h with hxz
    rw [find?_append_of_none (ht.newLit z h), if_neg hxz]

theorem insertKey (ht : Tables cx lits st) {g : GatherCtx} {idx : ℕ} (hg : cx.gather = some g)
    (hslot : st.descriptors[idx]? = some (.gatherKey g.keyCol)) :
    Tables cx lits { st with keyIdx := some idx } := by
  refine ⟨ht.noOps, ht.slots, ht.col, ht.lit, ht.newLit, fun i h => ?_, fun n i h => ?_⟩
  · obtain rfl := Option.some.inj h
    exact ⟨g, hg, hslot⟩
  · exact ⟨(ht.value n i h).1, rfl⟩

theorem insertValue (ht : Tables cx lits st) {name : String} {idx : ℕ}
    (hslot : st.descriptors[idx]? = some (.gatherValue name)) (hkey : st.keyIdx.isSome) :
    Tables cx lits { st with valueIdx := (name, idx) :: st.valueIdx } := by
  refine ⟨ht.noOps, ht.slots, ht.col, ht.lit, ht.newLit, ht.key, fun n i h => ?_⟩
  rw [List.lookup_cons] at h
  split at h
  · rename_i heq
    obtain rfl : n = name := by simpa using heq
    obtain rfl := Option.some.inj h
    exact ⟨hslot, hkey⟩
  · exact ht.value n i h

end Tables

/-- Later leaves only add: to the slots, and to the key and value tables. -/
structure Extends (st st' : Leaves) : Prop where
  descriptors : st.descriptors <+: st'.descriptors
  key : ∀ i, st.keyIdx = some i → st'.keyIdx = some i
  value : ∀ name i, st.valueIdx.lookup name = some i → st'.valueIdx.lookup name = some i

theorem LeafReady.extend {cx : Context} {lits : List PyFloat} {st st' : Leaves} {id : ℕ}
    (h : LeafReady cx lits st id) (hext : Extends st st')
    (hleaf : st'.leafIdx.lookup id = st.leafIdx.lookup id) (more : List PyFloat) :
    LeafReady cx (lits ++ more) st' id := by
  unfold LeafReady at h ⊢
  rcases hid : cx.nt id with name | v
  · rcases hg : isGathered cx name with _ | g
    · simp only [hid, hg] at h ⊢
      obtain ⟨i, hi, hslot⟩ := h
      exact ⟨i, hleaf ▸ hi, getElem?_of_extends hext.descriptors hslot⟩
    · simp only [hid, hg] at h ⊢
      obtain ⟨vi, ki, hv, hk, hvslot, hkslot⟩ := h
      exact ⟨vi, ki, hext.value name vi hv, hext.key ki hk,
        getElem?_of_extends hext.descriptors hvslot, getElem?_of_extends hext.descriptors hkslot⟩
  · simp only [hid] at h ⊢
    obtain ⟨x, i, hx, hmem, hi, hslot⟩ := h
    refine ⟨x, i, hx, List.mem_append_left _ hmem, hleaf ▸ hi, ?_⟩
    rw [slotValue_append hmem]
    exact getElem?_of_extends hext.descriptors hslot

/-- What gathering a leaf does: its own entry is ready, the rest only grows. -/
structure Gathered (cx : Context) (lits : List PyFloat) (st st' : Leaves) (id : ℕ) : Prop where
  tables : Tables cx lits st'
  ready : LeafReady cx lits st' id
  extend : Extends st st'
  other : ∀ id', id' ≠ id → st'.leafIdx.lookup id' = st.leafIdx.lookup id'

theorem lookup_cons_of_ne {α β : Type} [BEq α] [LawfulBEq α] {a b : α} (h : a ≠ b) (v : β)
    (l : List (α × β)) : ((b, v) :: l).lookup a = l.lookup a := by
  rw [List.lookup_cons, beq_false_of_ne h]

theorem gatherDimValue_spec {cx : Context} {lits : List PyFloat} {st st' : Leaves} {id : ℕ}
    {name : String} {g : GatherCtx} (hid : cx.nt id = .column name)
    (hg : isGathered cx name = some g) (ht : Tables cx lits st)
    (h : gatherDimValue cx g name st = .ok st') : Gathered cx lits st st' id := by
  have hgather : cx.gather = some g := (Option.filter_eq_some_iff.1 hg).1
  rw [gatherDimValue, bind_eq_ok] at h
  obtain ⟨mid, hkey, hvalue⟩ := h
  -- the key slot first
  have hmid : Tables cx lits mid ∧ Extends st mid ∧ mid.leafIdx = st.leafIdx ∧
      ∃ ki, mid.keyIdx = some ki := by
    rw [gatherKeyInput] at hkey
    rcases hk : st.keyIdx with _ | ki
    · simp only [hk] at hkey
      rcases hs : cx.schema g.keyCol with _ | dtype
      · simp only [hs] at hkey
        cases hkey
      · simp only [hs] at hkey
        obtain rfl := Except.ok.inj hkey
        obtain ⟨htab, hslot⟩ := ht.addDescriptor g.keyCol .i32 (.gatherKey g.keyCol)
        exact ⟨htab.insertKey hgather hslot, ⟨List.prefix_append _ _, fun i hi => by simp [hk] at hi,
          fun n i hn => hn⟩, rfl, _, rfl⟩
    · simp only [hk] at hkey
      obtain rfl := Except.ok.inj hkey
      exact ⟨ht, ⟨List.prefix_refl _, fun i hi => hi, fun n i hn => hn⟩, rfl, ki, hk⟩
  obtain ⟨hmtab, hmext, hmleaf, ki, hki⟩ := hmid
  obtain ⟨g', hg', hkslot⟩ := hmtab.key ki hki
  obtain rfl : g = g' := Option.some.inj (hgather.symm.trans hg')
  obtain rfl := Except.ok.inj hvalue
  rw [gatherValueInput]
  rcases hv : mid.valueIdx.lookup name with _ | vi
  · simp only
    obtain ⟨htab, hslot⟩ := hmtab.addDescriptor name .f32 (.gatherValue name)
    refine ⟨htab.insertValue hslot (by simp [Leaves.addDescriptor, hki]), ?_,
      ⟨hmext.descriptors.trans (List.prefix_append _ _), hmext.key, fun n i hn => ?_⟩,
      fun id' _ => by rw [← hmleaf]; rfl⟩
    · unfold LeafReady
      simp only [hid, hg]
      exact ⟨_, ki, List.lookup_cons_self, hki, hslot, getElem?_of_extends (List.prefix_append _ _) hkslot⟩
    · have hne : n ≠ name := by
        rintro rfl
        rw [hmext.value n i hn] at hv
        cases hv
      exact (lookup_cons_of_ne hne _ _).trans (hmext.value n i hn)
  · simp only
    refine ⟨hmtab, ?_, hmext, fun id' _ => by rw [hmleaf]⟩
    unfold LeafReady
    simp only [hid, hg]
    exact ⟨vi, ki, hv, hki, (hmtab.value name vi hv).1, hkslot⟩

theorem gatherColumn_spec {cx : Context} {lits : List PyFloat} {st st' : Leaves} {id : ℕ}
    {name : String} (hid : cx.nt id = .column name) (ht : Tables cx lits st)
    (h : gatherColumn cx id name st = .ok st') : Gathered cx lits st st' id := by
  rw [gatherColumn] at h
  rcases hg : isGathered cx name with _ | g
  · simp only [hg] at h
    rcases hs : cx.schema name with _ | dtype
    · simp only [hs] at h
      cases h
    · simp only [hs] at h
      rcases hc : st.colDedup.lookup name with _ | idx
      · simp only [hc, bind_eq_ok] at h
        obtain ⟨input, -, h⟩ := h
        obtain rfl := Except.ok.inj h
        obtain ⟨htab, hslot⟩ := ht.addDescriptor name input (.col name)
        refine ⟨(htab.insertCol hslot).setLeaf _, ?_, ⟨List.prefix_append _ _, fun _ hi => hi,
          fun _ _ hn => hn⟩, fun id' hne => lookup_cons_of_ne hne _ _⟩
        unfold LeafReady
        simp only [hid, hg]
        exact ⟨_, List.lookup_cons_self, hslot⟩
      · simp only [hc] at h
        obtain rfl := Except.ok.inj h
        refine ⟨ht.setLeaf _, ?_, ⟨List.prefix_refl _, fun _ hi => hi, fun _ _ hn => hn⟩,
          fun id' hne => lookup_cons_of_ne hne _ _⟩
        unfold LeafReady
        simp only [hid, hg]
        exact ⟨idx, List.lookup_cons_self, ht.col name idx hc⟩
  · simp only [hg] at h
    exact gatherDimValue_spec hid hg ht h

theorem gatherLiteral_spec {cx : Context} {lits : List PyFloat} {st st' : Leaves} {id : ℕ}
    {v : LitValue} (hid : cx.nt id = .literal v) (ht : Tables cx lits st)
    (h : gatherLiteral cx id v st = .ok st') :
    ∃ x, v.toFloat = some x ∧ Gathered cx (lits ++ [x]) st st' id := by
  rw [gatherLiteral] at h
  split_ifs at h
  rcases hx : v.toFloat with _ | x
  · simp only [hx] at h
    cases h
  · simp only [hx] at h
    refine ⟨x, rfl, ?_⟩
    rcases hl : st.lookupLit x with _ | idx
    · simp only [hl] at h
      obtain rfl := Except.ok.inj h
      obtain ⟨htab, hslot⟩ := ht.addDescriptor ("__lit_" ++ x.repr) cx.litDtype (.lit x)
      refine ⟨(htab.insertLit hl hslot).setLeaf _, ?_, ⟨List.prefix_append _ _, fun _ hi => hi,
        fun _ _ hn => hn⟩, fun id' hne => lookup_cons_of_ne hne _ _⟩
      unfold LeafReady
      simp only [hid]
      exact ⟨x, _, hx, by simp, List.lookup_cons_self, by rw [slotValue_new (ht.newLit x hl)]; exact hslot⟩
    · simp only [hl] at h
      obtain rfl := Except.ok.inj h
      refine ⟨(ht.shareLit hl).setLeaf _, ?_, ⟨List.prefix_refl _, fun _ hi => hi, fun _ _ hn => hn⟩,
        fun id' hne => lookup_cons_of_ne hne _ _⟩
      obtain ⟨y, hy, hslot⟩ := ht.lit x idx hl
      have hslotValue : slotValue (lits ++ [x]) x = y :=
        slotValue_of_find (by rw [List.find?_append, hy]; rfl)
      unfold LeafReady
      simp only [hid]
      exact ⟨x, idx, hx, by simp, List.lookup_cons_self, by rw [hslotValue]; exact hslot⟩

/-- One leaf: the tables stay right, the leaf becomes ready and ready leaves stay so. -/
theorem gatherLeaf_spec {cx : Context} {lits : List PyFloat} {st st' : Leaves} {id : ℕ}
    (ht : Tables cx lits st) (h : gatherLeaf cx id st = .ok st') :
    Tables cx (lits ++ litValues cx.nt [id]) st' ∧
      LeafReady cx (lits ++ litValues cx.nt [id]) st' id ∧
      ∀ id', LeafReady cx lits st id' → LeafReady cx (lits ++ litValues cx.nt [id]) st' id' := by
  have hgathered : Gathered cx (lits ++ litValues cx.nt [id]) st st' id := by
    rw [gatherLeaf] at h
    rcases hid : cx.nt id with name | v
    · simp only [hid] at h
      have hnil : litValues cx.nt [id] = [] := by simp [litValues, hid]
      rw [hnil, List.append_nil]
      exact gatherColumn_spec hid ht h
    · simp only [hid] at h
      obtain ⟨x, hx, hgath⟩ := gatherLiteral_spec hid ht h
      have hone : litValues cx.nt [id] = [x] := by simp [litValues, hid, hx]
      rw [hone]
      exact hgath
  refine ⟨hgathered.tables, hgathered.ready, fun id' hready => ?_⟩
  by_cases hne : id' = id
  · exact hne ▸ hgathered.ready
  · exact hready.extend hgathered.extend (hgathered.other id' hne) _

/-- The whole first pass. -/
theorem gatherFold_spec {cx : Context} (ids : List ℕ) {lits : List PyFloat} {st st' : Leaves}
    (ht : Tables cx lits st)
    (h : ids.foldlM (fun st id => gatherLeaf cx id st) st = .ok st') :
    Tables cx (lits ++ litValues cx.nt ids) st' ∧
      (∀ id ∈ ids, LeafReady cx (lits ++ litValues cx.nt ids) st' id) ∧
      ∀ id, LeafReady cx lits st id → LeafReady cx (lits ++ litValues cx.nt ids) st' id := by
  induction ids generalizing lits st with
  | nil =>
    obtain rfl := Except.ok.inj h
    simpa [litValues] using ht
  | cons id ids ih =>
    rw [List.foldlM_cons, bind_eq_ok] at h
    obtain ⟨mid, hid, hrest⟩ := h
    obtain ⟨htab, hready, hkeep⟩ := gatherLeaf_spec ht hid
    obtain ⟨htab', hready', hkeep'⟩ := ih htab hrest
    have hlits : lits ++ litValues cx.nt (id :: ids) =
        lits ++ litValues cx.nt [id] ++ litValues cx.nt ids := by
      rw [List.append_assoc]
      exact congrArg (lits ++ ·) (@List.filterMap_append _ _ [id] ids _)
    rw [hlits]
    refine ⟨htab', fun id' hid' => ?_, fun id' h' => hkeep' id' (hkeep id' h')⟩
    rcases List.mem_cons.1 hid' with rfl | hid'
    · exact hkeep' id' hready
    · exact hready' id' hid'

theorem tables_empty (cx : Context) : Tables cx [] .empty := by
  refine ⟨⟨rfl, rfl⟩, rfl, ?_, ?_, fun _ _ => rfl, ?_, ?_⟩
  · rintro _ _ ⟨⟩
  · rintro _ _ ⟨⟩
  · rintro _ ⟨⟩
  · rintro _ _ ⟨⟩

theorem gatherLeaves_spec {cx : Context} {e : IRExpr} {st : Leaves}
    (h : gatherLeaves cx e .empty = .ok st) :
    Tables cx (litValues cx.nt (leafIds e)) st ∧
      ∀ id ∈ leafIds e, LeafReady cx (litValues cx.nt (leafIds e)) st id := by
  obtain ⟨htab, hready, -⟩ := gatherFold_spec (leafIds e) (tables_empty cx) (gatherLeaves_fold cx e h)
  exact ⟨htab, hready⟩

end PolarsMetal.Fusion
