import PolarsMetal.Fusion.AnalyzerSpec

/-! The value of an analyzed scope. The second pass only appends ops, so by
induction on the tree the index it returns holds the tree's op value: each node
replaced by its op, each literal by the value of its slot. -/

namespace PolarsMetal.Fusion
open Fallible StraightLine

/-- The values input slots are bound to. -/
structure Bindings (α : Type) where
  col : String → α
  gatherKey : String → α
  gatherValue : String → α

variable {α : Type}

def bindDescriptor (I : Interp α) (b : Bindings α) : Descriptor → α
  | .col name => b.col name
  | .lit x => I.lit x
  | .gatherKey keyCol => b.gatherKey keyCol
  | .gatherValue name => b.gatherValue name

def opsLeaf (I : Interp α) (b : Bindings α) (cx : Context) (lits : List PyFloat) (id : ℕ) : α :=
  match cx.nt id with
  | .column name =>
    match isGathered cx name with
    | some g => I.op .take none [b.gatherValue name, I.op .castI32 none [b.gatherKey g.keyCol]]
    | none => b.col name
  | .literal v =>
    match v.toFloat with
    | some x => I.lit (slotValue lits x)
    | none => I.object v

mutual

/-- The tree's value through the ops pushed for it. -/
def opsValue (I : Interp α) (b : Bindings α) (cx : Context) (lits : List PyFloat) : IRExpr → α
  | .leaf id => opsLeaf I b cx lits id
  | .binary op left right =>
    match binopMap op with
    | some opId => I.op opId none [opsValue I b cx lits left, opsValue I b cx lits right]
    | none => I.hidden
  | .cast _ e => I.op .castF32 none [opsValue I b cx lits e]
  | .function .shift input =>
    match shiftOffset cx.nt input with
    | .ok w => I.op .shift (some w) [opsFirst I b cx lits input]
    | .error _ => I.hidden
  | .function .log input =>
    match logOp cx.nt input with
    | .ok opId => I.op opId none [opsFirst I b cx lits input]
    | .error _ => I.hidden
  | .function .pow input => I.op .pow none (opsAll I b cx lits input)
  | .function data input =>
    match irFunctionMap data with
    | some opId => I.op opId none (opsAll I b cx lits input)
    | none => I.hidden
  | .agg name arguments =>
    match aggMap name with
    | some opId => I.op opId none [opsFirst I b cx lits arguments]
    | none => I.hidden
  | .ternary p t f =>
    I.op .where none [opsValue I b cx lits p, opsValue I b cx lits t, opsValue I b cx lits f]
  | .hidden => I.hidden

def opsFirst (I : Interp α) (b : Bindings α) (cx : Context) (lits : List PyFloat) : List IRExpr → α
  | [] => I.hidden
  | e :: _ => opsValue I b cx lits e

def opsAll (I : Interp α) (b : Bindings α) (cx : Context) (lits : List PyFloat) :
    List IRExpr → List α
  | [] => []
  | e :: es => opsValue I b cx lits e :: opsAll I b cx lits es

end

/-! Appending ops. -/

structure Grows (scope scope' : FusionScope) : Prop where
  inputs : scope'.inputs = scope.inputs
  outputs : scope'.outputs = scope.outputs
  ops : scope.ops <+: scope'.ops

theorem Grows.refl (scope : FusionScope) : Grows scope scope := ⟨rfl, rfl, List.prefix_refl _⟩

theorem Grows.trans {s₁ s₂ s₃ : FusionScope} (h₁ : Grows s₁ s₂) (h₂ : Grows s₂ s₃) : Grows s₁ s₃ :=
  ⟨h₂.inputs.trans h₁.inputs, h₂.outputs.trans h₁.outputs, h₁.ops.trans h₂.ops⟩

section Visit

variable {I : Interp α} {b : Bindings α} {cx : Context} {lits : List PyFloat} {st : Leaves}
  {inputs : List α}

abbrev ValueAt (I : Interp α) (inputs : List α) (scope : FusionScope) (idx : ℕ) (v : α) : Prop :=
  NodeAt (buildOp I.op) inputs scope.ops idx v

theorem forall₂_getElem? {scope : FusionScope} {args : List ℕ} {vs nodes : List α}
    (hrun : run (buildOp I.op) inputs scope.ops = .ok nodes)
    (h : List.Forall₂ (ValueAt I inputs scope) args vs) :
    List.Forall₂ (fun idx v => nodes[idx]? = some v) args vs := by
  refine h.imp (fun idx v hv => ?_)
  obtain ⟨nodes', hrun', hget⟩ := hv
  obtain rfl : nodes = nodes' := Except.ok.inj (hrun.symm.trans hrun')
  exact hget

theorem pushOp_eq_ok {scope scope' : FusionScope} {op : OpId} {args : List ℕ} {param : Option ℤ}
    {idx : ℕ} (h : pushOp scope op args param = .ok (scope', idx)) :
    args.length = op.nArgs ∧ Grows scope scope' ∧
      scope'.ops = scope.ops ++ [⟨op, args, param⟩] ∧
      idx = scope.inputs.length + scope.ops.length := by
  rw [pushOp] at h
  split_ifs at h with h₁ h₂
  obtain ⟨rfl, rfl⟩ := Prod.mk.inj (Except.ok.inj h)
  exact ⟨not_not.1 h₂, ⟨rfl, rfl, List.prefix_append _ _⟩, rfl, rfl⟩

/-- Pushing an op whose arguments are in place. -/
theorem pushOp_valueAt {scope scope' : FusionScope} {op : OpId} {args : List ℕ} {param : Option ℤ}
    {idx : ℕ} (h : pushOp scope op args param = .ok (scope', idx))
    (hlen : inputs.length = scope.inputs.length) {vs : List α}
    (hruns : Runs (buildOp I.op) inputs scope.ops)
    (hargs : List.Forall₂ (ValueAt I inputs scope) args vs) {v : α}
    (hv : ∀ nodes : List α, List.Forall₂ (fun idx v => nodes[idx]? = some v) args vs →
      args.length = op.nArgs → buildOp I.op ⟨op, args, param⟩ nodes = .ok v) :
    Grows scope scope' ∧ ValueAt I inputs scope' idx v := by
  obtain ⟨hn, hgrows, hops, rfl⟩ := pushOp_eq_ok h
  obtain ⟨nodes, hrun⟩ := hruns
  refine ⟨hgrows, ?_⟩
  rw [ValueAt, hops, ← hlen]
  exact NodeAt.push hrun (hv nodes (forall₂_getElem? hrun hargs) hn)

theorem pushOp_plain {scope scope' : FusionScope} {op : OpId} (hop : op.Plain) {args : List ℕ}
    {idx : ℕ} (h : pushOp scope op args none = .ok (scope', idx))
    (hlen : inputs.length = scope.inputs.length) {vs : List α}
    (hruns : Runs (buildOp I.op) inputs scope.ops)
    (hargs : List.Forall₂ (ValueAt I inputs scope) args vs) :
    Grows scope scope' ∧ ValueAt I inputs scope' idx (I.op op none vs) :=
  pushOp_valueAt h hlen hruns hargs (fun _ hget hn => buildOp_plain I.op hop hn hget)

theorem pushOp_shift {scope scope' : FusionScope} {arg : ℕ} {w : ℤ} {idx : ℕ}
    (h : pushOp scope .shift [arg] (some w) = .ok (scope', idx))
    (hlen : inputs.length = scope.inputs.length) {v : α} (hv : ValueAt I inputs scope arg v) :
    Grows scope scope' ∧ ValueAt I inputs scope' idx (I.op .shift (some w) [v]) :=
  pushOp_valueAt h hlen hv.runs (.cons hv .nil) (fun nodes hget _ => by
    obtain ⟨hhead, -⟩ := List.forall₂_cons.1 hget
    exact buildOp_shift I.op hhead)

theorem pushOp_take {scope scope' : FusionScope} {vi ki : ℕ} {idx : ℕ}
    (h : pushOp scope .take [vi, ki] none = .ok (scope', idx))
    (hlen : inputs.length = scope.inputs.length) {u v : α} (hu : ValueAt I inputs scope vi u)
    (hv : ValueAt I inputs scope ki v) :
    Grows scope scope' ∧
      ValueAt I inputs scope' idx (I.op .take none [u, I.op .castI32 none [v]]) :=
  pushOp_valueAt h hlen hv.runs (.cons hu (.cons hv .nil)) (fun nodes hget _ => by
    obtain ⟨hhead, htail⟩ := List.forall₂_cons.1 hget
    obtain ⟨hsecond, -⟩ := List.forall₂_cons.1 htail
    exact buildOp_take I.op hhead hsecond)

theorem ValueAt.grow {scope scope' : FusionScope} {idx : ℕ} {v : α} (h : ValueAt I inputs scope idx v)
    (hg : Grows scope scope') (hruns : Runs (buildOp I.op) inputs scope'.ops) :
    ValueAt I inputs scope' idx v := NodeAt.extend h hg.ops hruns

/-! The ops of the analyzer's tables take their arguments as they are. -/

theorem binopMap_plain {op : Operator} {opId : OpId} (h : binopMap op = some opId) : opId.Plain := by
  cases op <;> cases h <;> decide

theorem irFunctionMap_plain {data : IRFunction} {opId : OpId} (h : irFunctionMap data = some opId) :
    opId.Plain := by
  cases data with
  | plain f => cases f <;> cases h <;> decide
  | round _ _ => cases h; decide
  | cumulative c _ => cases c <;> cases h <;> decide
  | pow => cases h
  | log => cases h
  | shift => cases h
  | other _ => cases h

theorem aggMap_plain {name : String} {opId : OpId} (h : aggMap name = some opId) : opId.Plain := by
  unfold aggMap at h
  split at h <;> cases h <;> decide

theorem logOpOf_mem {base : LitValue} {opId : OpId} (h : logOpOf base = .ok opId) :
    opId ∈ [OpId.log, .log2, .log10] := by
  unfold logOpOf at h
  split at h
  · cases h
  · cases h
  · split at h
    · cases h
    · simp only at h
      split_ifs at h <;> cases h <;> decide

theorem logOp_plain {nt : NodeTraverser} {input : List IRExpr} {opId : OpId}
    (h : logOp nt input = .ok opId) : opId.Plain ∧ opId.nArgs = 1 := by
  have hmem : opId ∈ [OpId.log, .log2, .log10] := by
    unfold logOp at h
    split at h
    · split at h
      · exact logOpOf_mem h
      · cases h
    · cases h
  simp only [List.mem_cons, List.not_mem_nil, or_false] at hmem
  obtain rfl | rfl | rfl := hmem <;> decide

/-! The second pass. -/

theorem visitIrOps_function {data : IRFunction} (h₁ : data ≠ .shift) (h₂ : data ≠ .log)
    (h₃ : data ≠ .pow) (cx : Context) (st : Leaves) (input : List IRExpr) (scope : FusionScope) :
    visitIrOps cx st (.function data input) scope =
      if isReverseCumulative data then .error .aborted
      else match irFunctionMap data with
        | none => .error .aborted
        | some opId => visitAll cx st input scope >>= fun s => pushOp s.1 opId s.2 none := by
  cases data <;> first | exact absurd rfl h₁ | exact absurd rfl h₂ | exact absurd rfl h₃ | rfl

theorem opsValue_function {data : IRFunction} {opId : OpId} (h : irFunctionMap data = some opId)
    (input : List IRExpr) :
    opsValue I b cx lits (.function data input) = I.op opId none (opsAll I b cx lits input) := by
  cases data <;> cases h <;> rfl

theorem firstLeafIds_subset (es : List IRExpr) : firstLeafIds es ⊆ allLeafIds es := by
  cases es with
  | nil => exact List.Subset.refl _
  | cons e es => exact List.subset_append_left _ _

theorem visitLeaf_spec (hin : inputs = st.descriptors.map (bindDescriptor I b)) {id : ℕ}
    (hready : LeafReady cx lits st id) {scope scope' : FusionScope} {idx : ℕ}
    (hlen : inputs.length = scope.inputs.length) (hruns : Runs (buildOp I.op) inputs scope.ops)
    (h : visitLeaf cx st id scope = .ok (scope', idx)) :
    Grows scope scope' ∧ ValueAt I inputs scope' idx (opsLeaf I b cx lits id) := by
  have hslot : ∀ {i d}, st.descriptors[i]? = some d → ValueAt I inputs scope i (bindDescriptor I b d) :=
    fun hd => NodeAt.input hruns (by rw [hin, List.getElem?_map, hd]; rfl)
  rw [visitLeaf] at h
  rw [opsLeaf]
  unfold LeafReady at hready
  rcases hid : cx.nt id with name | v
  · rcases hg : isGathered cx name with _ | g
    · simp only [hid, hg] at h hready ⊢
      obtain ⟨i, hi, hd⟩ := hready
      rw [hi] at h
      obtain ⟨rfl, rfl⟩ := Prod.mk.inj (Except.ok.inj h)
      exact ⟨Grows.refl _, hslot hd⟩
    · simp only [hid, hg] at h hready ⊢
      obtain ⟨vi, ki, hv, hk, hvd, hkd⟩ := hready
      simp only [hv, hk] at h
      exact pushOp_take h hlen (hslot hvd) (hslot hkd)
  · simp only [hid] at h hready ⊢
    obtain ⟨x, i, hx, -, hi, hd⟩ := hready
    rw [hi] at h
    obtain ⟨rfl, rfl⟩ := Prod.mk.inj (Except.ok.inj h)
    rw [hx]
    exact ⟨Grows.refl _, hslot hd⟩

mutual

theorem visitIrOps_spec (hin : inputs = st.descriptors.map (bindDescriptor I b)) (e : IRExpr)
    (hready : ∀ id ∈ leafIds e, LeafReady cx lits st id) {scope scope' : FusionScope} {idx : ℕ}
    (hlen : inputs.length = scope.inputs.length) (hruns : Runs (buildOp I.op) inputs scope.ops)
    (h : visitIrOps cx st e scope = .ok (scope', idx)) :
    Grows scope scope' ∧ ValueAt I inputs scope' idx (opsValue I b cx lits e) := by
  match e with
  | .leaf id => exact visitLeaf_spec hin (hready id (by simp [leafIds])) hlen hruns h
  | .binary op left right =>
    rw [leafIds] at hready
    rw [visitIrOps] at h
    rcases hop : binopMap op with _ | opId
    · simp only [hop] at h
      cases h
    · simp only [hop, bind_eq_ok] at h
      obtain ⟨⟨s₁, l⟩, hl, ⟨s₂, r⟩, hr, hpush⟩ := h
      obtain ⟨hg₁, hv₁⟩ := visitIrOps_spec hin left
        (fun id hid => hready id (List.mem_append_left _ hid)) hlen hruns hl
      obtain ⟨hg₂, hv₂⟩ := visitIrOps_spec hin right
        (fun id hid => hready id (List.mem_append_right _ hid)) (hg₁.inputs ▸ hlen) hv₁.runs hr
      obtain ⟨hg, hv⟩ := pushOp_plain (binopMap_plain hop) hpush
        ((hg₁.trans hg₂).inputs ▸ hlen) hv₂.runs (.cons (hv₁.grow hg₂ hv₂.runs) (.cons hv₂ .nil))
      refine ⟨(hg₁.trans hg₂).trans hg, ?_⟩
      rw [opsValue, hop]
      exact hv
  | .cast dtype e =>
    rw [leafIds] at hready
    rw [visitIrOps] at h
    split_ifs at h
    obtain ⟨⟨s₁, child⟩, hc, hpush⟩ := bind_eq_ok.1 h
    obtain ⟨hg₁, hv₁⟩ := visitIrOps_spec hin e hready hlen hruns hc
    obtain ⟨hg, hv⟩ := pushOp_plain (by decide) hpush (hg₁.inputs ▸ hlen) hv₁.runs (.cons hv₁ .nil)
    exact ⟨hg₁.trans hg, hv⟩
  | .function data input =>
    by_cases hshift : data = .shift
    · subst hshift
      rw [visitIrOps, bind_eq_ok] at h
      obtain ⟨w, hw, h⟩ := h
      obtain ⟨⟨s₁, child⟩, hc, hpush⟩ := bind_eq_ok.1 h
      obtain ⟨hg₁, hv₁⟩ := visitFirst_spec hin input hready hlen hruns hc
      obtain ⟨hg, hv⟩ := pushOp_shift hpush (hg₁.inputs ▸ hlen) hv₁
      refine ⟨hg₁.trans hg, ?_⟩
      rw [opsValue, hw]
      exact hv
    rw [leafIds_function hshift] at hready
    by_cases hlog : data = .log
    · subst hlog
      rw [visitIrOps, bind_eq_ok] at h
      obtain ⟨opId, hop, h⟩ := h
      obtain ⟨⟨s₁, child⟩, hc, hpush⟩ := bind_eq_ok.1 h
      obtain ⟨hg₁, hv₁⟩ := visitFirst_spec hin input
        (fun id hid => hready id (firstLeafIds_subset input hid)) hlen hruns hc
      obtain ⟨hg, hv⟩ := pushOp_plain (logOp_plain hop).1 hpush (hg₁.inputs ▸ hlen) hv₁.runs
        (.cons hv₁ .nil)
      refine ⟨hg₁.trans hg, ?_⟩
      rw [opsValue, hop]
      exact hv
    by_cases hpow : data = .pow
    · subst hpow
      rw [visitIrOps] at h
      split_ifs at h
      obtain ⟨⟨s₁, children⟩, hc, hpush⟩ := bind_eq_ok.1 h
      obtain ⟨hg₁, hruns₁, hv₁⟩ := visitAll_spec hin input hready hlen hruns hc
      obtain ⟨hg, hv⟩ := pushOp_plain (by decide) hpush (hg₁.inputs ▸ hlen) hruns₁ hv₁
      exact ⟨hg₁.trans hg, hv⟩
    · rw [visitIrOps_function hshift hlog hpow] at h
      split_ifs at h
      rcases hop : irFunctionMap data with _ | opId
      · simp only [hop] at h
        cases h
      · simp only [hop] at h
        obtain ⟨⟨s₁, children⟩, hc, hpush⟩ := bind_eq_ok.1 h
        obtain ⟨hg₁, hruns₁, hv₁⟩ := visitAll_spec hin input hready hlen hruns hc
        obtain ⟨hg, hv⟩ := pushOp_plain (irFunctionMap_plain hop) hpush (hg₁.inputs ▸ hlen) hruns₁ hv₁
        refine ⟨hg₁.trans hg, ?_⟩
        rw [opsValue_function hop]
        exact hv
  | .agg name arguments =>
    rw [leafIds] at hready
    rw [visitIrOps] at h
    rcases hop : aggMap name with _ | opId
    · simp only [hop] at h
      cases h
    · simp only [hop] at h
      obtain ⟨⟨s₁, child⟩, hc, hpush⟩ := bind_eq_ok.1 h
      obtain ⟨hg₁, hv₁⟩ := visitFirst_spec hin arguments hready hlen hruns hc
      obtain ⟨hg, hv⟩ := pushOp_plain (aggMap_plain hop) hpush (hg₁.inputs ▸ hlen) hv₁.runs
        (.cons hv₁ .nil)
      refine ⟨hg₁.trans hg, ?_⟩
      rw [opsValue, hop]
      exact hv
  | .ternary p t f =>
    rw [leafIds] at hready
    rw [visitIrOps, bind_eq_ok] at h
    obtain ⟨⟨s₁, c⟩, hp, h⟩ := h
    obtain ⟨⟨s₂, u⟩, ht, h⟩ := bind_eq_ok.1 h
    obtain ⟨⟨s₃, v⟩, hf, hpush⟩ := bind_eq_ok.1 h
    obtain ⟨hg₁, hv₁⟩ := visitIrOps_spec hin p
      (fun id hid => hready id (List.mem_append_left _ hid)) hlen hruns hp
    obtain ⟨hg₂, hv₂⟩ := visitIrOps_spec hin t
      (fun id hid => hready id (List.mem_append_right _ (List.mem_append_left _ hid)))
      (hg₁.inputs ▸ hlen) hv₁.runs ht
    obtain ⟨hg₃, hv₃⟩ := visitIrOps_spec hin f
      (fun id hid => hready id (List.mem_append_right _ (List.mem_append_right _ hid)))
      ((hg₁.trans hg₂).inputs ▸ hlen) hv₂.runs hf
    obtain ⟨hg, hv⟩ := pushOp_plain (by decide) hpush (((hg₁.trans hg₂).trans hg₃).inputs ▸ hlen)
      hv₃.runs (.cons (hv₁.grow (hg₂.trans hg₃) hv₃.runs) (.cons (hv₂.grow hg₃ hv₃.runs) (.cons hv₃ .nil)))
    exact ⟨((hg₁.trans hg₂).trans hg₃).trans hg, hv⟩
  | .hidden => cases h

theorem visitFirst_spec (hin : inputs = st.descriptors.map (bindDescriptor I b)) (es : List IRExpr)
    (hready : ∀ id ∈ firstLeafIds es, LeafReady cx lits st id) {scope scope' : FusionScope} {idx : ℕ}
    (hlen : inputs.length = scope.inputs.length) (hruns : Runs (buildOp I.op) inputs scope.ops)
    (h : visitFirst cx st es scope = .ok (scope', idx)) :
    Grows scope scope' ∧ ValueAt I inputs scope' idx (opsFirst I b cx lits es) := by
  match es with
  | [] => cases h
  | e :: _ => exact visitIrOps_spec hin e hready hlen hruns h

theorem visitAll_spec (hin : inputs = st.descriptors.map (bindDescriptor I b)) (es : List IRExpr)
    (hready : ∀ id ∈ allLeafIds es, LeafReady cx lits st id) {scope scope' : FusionScope}
    {idxs : List ℕ} (hlen : inputs.length = scope.inputs.length)
    (hruns : Runs (buildOp I.op) inputs scope.ops)
    (h : visitAll cx st es scope = .ok (scope', idxs)) :
    Grows scope scope' ∧ Runs (buildOp I.op) inputs scope'.ops ∧
      List.Forall₂ (ValueAt I inputs scope') idxs (opsAll I b cx lits es) := by
  match es with
  | [] =>
    obtain ⟨rfl, rfl⟩ := Prod.mk.inj (Except.ok.inj h)
    exact ⟨Grows.refl _, hruns, .nil⟩
  | e :: es =>
    rw [allLeafIds] at hready
    rw [visitAll, bind_eq_ok] at h
    obtain ⟨⟨s₁, i⟩, he, h⟩ := h
    obtain ⟨⟨s₂, is⟩, hes, h⟩ := bind_eq_ok.1 h
    obtain ⟨rfl, rfl⟩ := Prod.mk.inj (Except.ok.inj h)
    obtain ⟨hg₁, hv₁⟩ := visitIrOps_spec hin e
      (fun id hid => hready id (List.mem_append_left _ hid)) hlen hruns he
    obtain ⟨hg₂, hruns₂, hv₂⟩ := visitAll_spec hin es
      (fun id hid => hready id (List.mem_append_right _ hid)) (hg₁.inputs ▸ hlen) hv₁.runs hes
    exact ⟨hg₁.trans hg₂, hruns₂, .cons (hv₁.grow hg₂ hruns₂) hv₂⟩

end

end Visit

/-- An analyzed scope evaluates to the tree's op value. -/
theorem evalScope_analyzeWith (I : Interp α) (b : Bindings α) {cx : Context} {e : IRExpr}
    {scope : FusionScope} {descriptors : List Descriptor}
    (h : analyzeWith cx e = .ok (scope, descriptors)) :
    evalScope I.op (descriptors.map (bindDescriptor I b)) scope =
      .ok [opsValue I b cx (litValues cx.nt (leafIds e)) e] := by
  rw [analyzeWith, bind_eq_ok] at h
  obtain ⟨st, hst, h⟩ := h
  obtain ⟨⟨s, idx⟩, hvisit, h⟩ := bind_eq_ok.1 h
  obtain ⟨rfl, rfl⟩ := Prod.mk.inj (Except.ok.inj h)
  obtain ⟨htab, hready⟩ := gatherLeaves_spec hst
  have hlen : (st.descriptors.map (bindDescriptor I b)).length = st.scope.inputs.length := by
    rw [List.length_map, htab.slots]
  obtain ⟨hg, nodes, hrun, hget⟩ := visitIrOps_spec (I := I) (b := b) rfl e hready hlen
    ⟨_, by rw [htab.noOps.1]; rfl⟩ hvisit
  rw [evalScope]
  refine guard_eq_ok.2 ⟨?_, bind_eq_ok.2 ⟨nodes, hrun, ?_⟩⟩
  · rw [not_not]
    exact hlen.trans (congrArg List.length hg.inputs).symm
  · change List.mapM (getHandle nodes) (s.outputs ++ [idx]) = _
    rw [hg.outputs, htab.noOps.2, List.nil_append, List.mapM_cons, getHandle_eq_ok.2 hget]
    rfl

end PolarsMetal.Fusion
