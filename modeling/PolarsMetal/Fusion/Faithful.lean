import PolarsMetal.Fusion.ScopeValue

/-! When an analyzed scope computes its tree. The meanings of nodes and ops are
related only where an op is the node's function at the parameters the op stands
for; the trees on which every such interpretation agrees are described by a
condition on their parameters and literals, and the interpretation by terms shows
that nothing weaker will do. -/

namespace PolarsMetal.Fusion
open Fallible

variable {α : Type}

/-- The bases whose logarithms are ops of their own. -/
def exactLogOp (base : PyFloat) : Option OpId :=
  if base = .finite eulerConst then some .log
  else if base = .finite 2 then some .log2
  else if base = .finite 10 then some .log10
  else none

/-! The pairs of a node and an op of one meaning. -/

def binaryMeanings : List (Operator × OpId) :=
  [(.plus, .add), (.minus, .sub), (.multiply, .mul), (.divide, .div), (.trueDivide, .div),
    (.modulus, .mod), (.eq, .eq), (.notEq, .ne), (.lt, .lt), (.ltEq, .le), (.gt, .gt), (.gtEq, .ge),
    (.and, .logicalAnd), (.or, .logicalOr)]

def plainMeanings : List (PlainFunction × OpId) :=
  [(.sin, .sin), (.cos, .cos), (.tan, .tan), (.sinh, .sinh), (.cosh, .cosh), (.tanh, .tanh),
    (.arcsin, .asin), (.arccos, .acos), (.arctan, .atan), (.arctan2, .atan2), (.exp, .exp),
    (.sqrt, .sqrt), (.cbrt, .cbrt), (.abs, .abs), (.negate, .neg), (.floor, .floor), (.ceil, .ceil)]

def cumulativeMeanings : List (Cumulative × OpId) :=
  [(.cumSum, .cumSum), (.cumProd, .cumProd), (.cumMax, .cumMax), (.cumMin, .cumMin)]

/-- The analyzer's tables are the pairs. -/
theorem mem_binaryMeanings {op : Operator} {opId : OpId} :
    (op, opId) ∈ binaryMeanings ↔ binopMap op = some opId := by
  cases op <;> simp [binaryMeanings, binopMap, eq_comm]

theorem mem_plainMeanings {f : PlainFunction} {opId : OpId} :
    (f, opId) ∈ plainMeanings ↔ plainMap f = opId := by
  cases f <;> simp [plainMeanings, plainMap, eq_comm]

theorem mem_cumulativeMeanings {c : Cumulative} {opId : OpId} :
    (c, opId) ∈ cumulativeMeanings ↔ cumulativeMap c = opId := by
  cases c <;> simp [cumulativeMeanings, cumulativeMap, eq_comm]

/-- Each op means the node it stands for, at the parameters it stands for. An aggregate node has no
law: the traverser's names for it are lower case, and the analyzer's table has none of them. -/
structure Interp.Coherent (I : Interp α) : Prop where
  binary : ∀ p ∈ binaryMeanings, ∀ a b, I.binary p.1 a b = I.op p.2 none [a, b]
  castF32 : ∀ a, I.cast .float32 a = I.op .castF32 none [a]
  plain : ∀ p ∈ plainMeanings, ∀ args, I.function (.plain p.1) args = I.op p.2 none args
  round : ∀ args, I.function (.round 0 .halfToEven) args = I.op .round none args
  cumulative : ∀ p ∈ cumulativeMeanings, ∀ args,
    I.function (.cumulative p.1 false) args = I.op p.2 none args
  pow : ∀ args, I.function .pow args = I.op .pow none args
  log : ∀ a base opId, exactLogOp base = some opId →
    I.function .log [a, I.lit base] = I.op opId none [a]
  shift : ∀ a (w : ℕ), I.function .shift [a, I.lit (.finite w)] = I.op .shift (some w) [a]
  ternary : ∀ p t f, I.ternary p t f = I.op .where none [p, t, f]

/-! The condition. -/

/-- `float` keeps the literal's value, and no zero of the other sign comes before it. -/
def ExactLiteral (lits : List PyFloat) (v : LitValue) : Prop :=
  ∃ x, v.exact = some x ∧ v.toFloat = some x ∧
    (x.isZero = true → lits.find? PyFloat.isZero = some x)

/-- The base of a logarithm is exactly e, 2 or 10. -/
def ExactBase (nt : NodeTraverser) : List IRExpr → Prop
  | [_, .leaf id] => ∃ v x, nt id = .literal v ∧ v.exact = some x ∧ (exactLogOp x).isSome
  | _ => False

mutual

def Faithful (nt : NodeTraverser) (lits : List PyFloat) : IRExpr → Prop
  | .leaf id =>
    match nt id with
    | .column _ => True
    | .literal v => ExactLiteral lits v
  | .binary _ left right => Faithful nt lits left ∧ Faithful nt lits right
  | .cast _ e => Faithful nt lits e
  | .function .shift input => FaithfulFirst nt lits input
  | .function .log input => ExactBase nt input ∧ FaithfulFirst nt lits input
  | .function (.round decimals mode) input =>
    (decimals = 0 ∧ mode = .halfToEven) ∧ FaithfulAll nt lits input
  | .function _ input => FaithfulAll nt lits input
  | .agg _ _ => False
  | .ternary p t f => Faithful nt lits p ∧ Faithful nt lits t ∧ Faithful nt lits f
  | .hidden => False

def FaithfulFirst (nt : NodeTraverser) (lits : List PyFloat) : List IRExpr → Prop
  | [] => False
  | e :: _ => Faithful nt lits e

def FaithfulAll (nt : NodeTraverser) (lits : List PyFloat) : List IRExpr → Prop
  | [] => True
  | e :: es => Faithful nt lits e ∧ FaithfulAll nt lits es

end

/-! What a successful second pass has checked. -/

mutual

def Admitted (nt : NodeTraverser) : IRExpr → Prop
  | .leaf _ => True
  | .binary op left right => (binopMap op).isSome ∧ Admitted nt left ∧ Admitted nt right
  | .cast dtype e => dtype = .float32 ∧ Admitted nt e
  | .function .shift input => (∃ w, shiftOffset nt input = .ok w) ∧ AdmittedFirst nt input
  | .function .log input => (∃ opId, logOp nt input = .ok opId) ∧ AdmittedFirst nt input
  | .function .pow input => AdmittedAll nt input
  | .function data input =>
    ((irFunctionMap data).isSome ∧ isReverseCumulative data = false) ∧ AdmittedAll nt input
  | .agg name arguments => (aggMap name).isSome ∧ AdmittedFirst nt arguments
  | .ternary p t f => Admitted nt p ∧ Admitted nt t ∧ Admitted nt f
  | .hidden => False

def AdmittedFirst (nt : NodeTraverser) : List IRExpr → Prop
  | [] => False
  | e :: _ => Admitted nt e

def AdmittedAll (nt : NodeTraverser) : List IRExpr → Prop
  | [] => True
  | e :: es => Admitted nt e ∧ AdmittedAll nt es

end

theorem admitted_function {data : IRFunction} (h₁ : data ≠ .shift) (h₂ : data ≠ .log)
    (h₃ : data ≠ .pow) {nt : NodeTraverser} {input : List IRExpr} :
    Admitted nt (.function data input) ↔
      ((irFunctionMap data).isSome ∧ isReverseCumulative data = false) ∧ AdmittedAll nt input := by
  cases data <;> first
    | exact absurd rfl h₁
    | exact absurd rfl h₂
    | exact absurd rfl h₃
    | exact Iff.rfl

mutual

theorem visitIrOps_admitted {cx : Context} {st : Leaves} (e : IRExpr) {scope scope' : FusionScope}
    {idx : ℕ} (h : visitIrOps cx st e scope = .ok (scope', idx)) : Admitted cx.nt e := by
  match e with
  | .leaf id => exact trivial
  | .binary op left right =>
    rw [visitIrOps] at h
    rcases hop : binopMap op with _ | opId
    · simp only [hop] at h
      cases h
    · simp only [hop, bind_eq_ok] at h
      obtain ⟨⟨s₁, l⟩, hl, ⟨s₂, r⟩, hr, -⟩ := h
      exact ⟨by rw [hop]; rfl, visitIrOps_admitted left hl, visitIrOps_admitted right hr⟩
  | .cast dtype e =>
    rw [visitIrOps] at h
    split_ifs at h with hd
    obtain ⟨⟨s₁, child⟩, hc, -⟩ := bind_eq_ok.1 h
    exact ⟨not_not.1 hd, visitIrOps_admitted e hc⟩
  | .function data input =>
    by_cases hshift : data = .shift
    · subst hshift
      rw [visitIrOps, bind_eq_ok] at h
      obtain ⟨w, hw, h⟩ := h
      obtain ⟨⟨s₁, child⟩, hc, -⟩ := bind_eq_ok.1 h
      exact ⟨⟨w, hw⟩, visitFirst_admitted input hc⟩
    by_cases hlog : data = .log
    · subst hlog
      rw [visitIrOps, bind_eq_ok] at h
      obtain ⟨opId, hop, h⟩ := h
      obtain ⟨⟨s₁, child⟩, hc, -⟩ := bind_eq_ok.1 h
      exact ⟨⟨opId, hop⟩, visitFirst_admitted input hc⟩
    by_cases hpow : data = .pow
    · subst hpow
      rw [visitIrOps] at h
      split_ifs at h
      obtain ⟨⟨s₁, children⟩, hc, -⟩ := bind_eq_ok.1 h
      exact visitAll_admitted input hc
    · rw [visitIrOps_function hshift hlog hpow] at h
      split_ifs at h with hrev
      rw [admitted_function hshift hlog hpow]
      rcases hop : irFunctionMap data with _ | opId
      · simp only [hop] at h
        cases h
      · simp only [hop] at h
        obtain ⟨⟨s₁, children⟩, hc, -⟩ := bind_eq_ok.1 h
        exact ⟨⟨rfl, Bool.not_eq_true _ ▸ hrev⟩, visitAll_admitted input hc⟩
  | .agg name arguments =>
    rw [visitIrOps] at h
    rcases hop : aggMap name with _ | opId
    · simp only [hop] at h
      cases h
    · simp only [hop] at h
      obtain ⟨⟨s₁, child⟩, hc, -⟩ := bind_eq_ok.1 h
      exact ⟨by rw [hop]; rfl, visitFirst_admitted arguments hc⟩
  | .ternary p t f =>
    rw [visitIrOps, bind_eq_ok] at h
    obtain ⟨⟨s₁, c⟩, hp, h⟩ := h
    obtain ⟨⟨s₂, u⟩, ht, h⟩ := bind_eq_ok.1 h
    obtain ⟨⟨s₃, v⟩, hf, -⟩ := bind_eq_ok.1 h
    exact ⟨visitIrOps_admitted p hp, visitIrOps_admitted t ht, visitIrOps_admitted f hf⟩
  | .hidden => cases h

theorem visitFirst_admitted {cx : Context} {st : Leaves} (es : List IRExpr)
    {scope scope' : FusionScope} {idx : ℕ} (h : visitFirst cx st es scope = .ok (scope', idx)) :
    AdmittedFirst cx.nt es := by
  match es with
  | [] => cases h
  | e :: _ => exact visitIrOps_admitted e h

theorem visitAll_admitted {cx : Context} {st : Leaves} (es : List IRExpr)
    {scope scope' : FusionScope} {idxs : List ℕ}
    (h : visitAll cx st es scope = .ok (scope', idxs)) : AdmittedAll cx.nt es := by
  match es with
  | [] => exact trivial
  | e :: es =>
    rw [visitAll, bind_eq_ok] at h
    obtain ⟨⟨s₁, i⟩, he, h⟩ := h
    obtain ⟨⟨s₂, is⟩, hes, -⟩ := bind_eq_ok.1 h
    exact ⟨visitIrOps_admitted e he, visitAll_admitted es hes⟩

end

/-! Literals. -/

theorem PyFloat.eq_of_pyEq {x y : PyFloat} (h : x.pyEq y = true) (hx : y.isZero = false) : x = y := by
  cases x <;> cases y <;> simp_all [pyEq, isZero]

theorem PyFloat.pyEq_zero {x : PyFloat} (hx : x.isZero = true) (y : PyFloat) :
    y.pyEq x = y.isZero := by
  rw [Bool.eq_iff_iff]
  exact ⟨fun h => PyFloat.pyEq_trans h hx,
    fun h => PyFloat.pyEq_trans h (PyFloat.pyEq_comm x _ ▸ hx)⟩

/-- A slot holds a literal's value exactly when the literal is exact. -/
theorem exactLiteral_iff {lits : List PyFloat} {v : LitValue} {x : PyFloat}
    (hx : v.toFloat = some x) (hmem : x ∈ lits) :
    ExactLiteral lits v ↔ v.exact = some (slotValue lits x) := by
  -- the slot holds the first literal that compares equal
  have hslot : slotValue lits x = x ∨ (slotValue lits x).pyEq x = true := by
    rcases hfind : lits.find? (fun y => y.pyEq x) with _ | y
    · left
      rw [slotValue, hfind]
      rfl
    · right
      rw [slotValue_of_find hfind]
      simpa using List.find?_some hfind
  have hzero : x.isZero = true → (slotValue lits x = x ↔ lits.find? PyFloat.isZero = some x) := by
    intro hz
    have hpred : (fun y : PyFloat => y.pyEq x) = PyFloat.isZero :=
      funext (PyFloat.pyEq_zero hz)
    rw [slotValue, hpred]
    rcases hfind : lits.find? PyFloat.isZero with _ | y
    · exact absurd hz (List.find?_eq_none.1 hfind x hmem)
    · simp
  have hsame : x.isZero = false → slotValue lits x = x := fun hz =>
    hslot.elim id (fun h => PyFloat.eq_of_pyEq h hz)
  refine ⟨?_, fun h => ?_⟩
  · rintro ⟨y, hexact, hfloat, hy⟩
    obtain rfl : x = y := Option.some.inj (hx.symm.trans hfloat)
    rw [hexact]
    rcases hz : x.isZero with _ | _
    · rw [hsame hz]
    · rw [(hzero hz).2 (hy hz)]
  · have hxs : slotValue lits x = x := by
      cases v with
      | none => cases h
      | object _ _ => cases h
      | float y => exact (Option.some.inj h).symm.trans (Option.some.inj hx)
      | bool b => exact (Option.some.inj h).symm.trans (Option.some.inj hx)
      | int n =>
        rw [LitValue.toFloat] at hx
        split_ifs at hx
        obtain rfl := Option.some.inj hx
        rw [← Option.some.inj h] at hslot ⊢
        rcases hslot with hslot | hslot
        · exact hslot
        · simpa [PyFloat.pyEq] using hslot
    exact ⟨x, by rw [h, hxs], hx, fun hz => (hzero hz).1 hxs⟩

/-- The literals of the leaves have been read. -/
def LitsRead (nt : NodeTraverser) (lits : List PyFloat) (ids : List ℕ) : Prop :=
  ∀ id ∈ ids, ∀ v, nt id = .literal v → ∃ x, v.toFloat = some x ∧ x ∈ lits

theorem eulerConst_ne_intCast (n : ℤ) : (n : ℚ) ≠ eulerConst := by
  intro h
  have hden := congrArg Rat.den h
  rw [Rat.den_intCast] at hden
  exact absurd hden (by decide +kernel)

/-- On an exact base the analyzer picks the base's own logarithm. -/
theorem logOpOf_exact {v : LitValue} {x : PyFloat} {opId : OpId} (hx : v.exact = some x)
    (h : exactLogOp x = some opId) : logOpOf v = .ok opId := by
  rw [exactLogOp] at h
  have hbase : (x = .finite eulerConst ∧ opId = .log) ∨ (x = .finite 2 ∧ opId = .log2) ∨
      (x = .finite 10 ∧ opId = .log10) := by
    split_ifs at h with h₁ h₂ h₃
    · exact .inl ⟨h₁, (Option.some.inj h).symm⟩
    · exact .inr (.inl ⟨h₂, (Option.some.inj h).symm⟩)
    · exact .inr (.inr ⟨h₃, (Option.some.inj h).symm⟩)
  cases v with
  | none => cases hx
  | object _ _ => cases hx
  | float y =>
    obtain rfl : y = x := Option.some.inj hx
    obtain ⟨rfl, rfl⟩ | ⟨rfl, rfl⟩ | ⟨rfl, rfl⟩ := hbase <;> decide +kernel
  | bool b =>
    obtain rfl := Option.some.inj hx
    obtain ⟨hn, -⟩ | ⟨hn, -⟩ | ⟨hn, -⟩ := hbase <;> cases b <;> exact absurd hn (by decide +kernel)
  | int n =>
    obtain rfl := Option.some.inj hx
    obtain ⟨hn, rfl⟩ | ⟨hn, rfl⟩ | ⟨hn, rfl⟩ := hbase
    · exact absurd (PyFloat.finite.inj hn) (eulerConst_ne_intCast n)
    · obtain rfl : n = 2 := by exact_mod_cast PyFloat.finite.inj hn
      decide +kernel
    · obtain rfl : n = 10 := by exact_mod_cast PyFloat.finite.inj hn
      decide +kernel

theorem exists_of_shiftOffset {nt : NodeTraverser} {input : List IRExpr} {w : ℕ}
    (h : shiftOffset nt input = .ok w) :
    ∃ e id, input = [e, .leaf id] ∧ nt id = .literal (.int w) := by
  unfold shiftOffset at h
  split at h
  · rename_i e id
    split at h
    · rename_i n hid
      split_ifs at h with hn
      refine ⟨e, id, rfl, ?_⟩
      rw [hid, ← Except.ok.inj h, Int.toNat_of_nonneg (by omega)]
    · cases h
  · cases h

theorem exists_of_logOp {nt : NodeTraverser} {input : List IRExpr} {opId : OpId}
    (h : logOp nt input = .ok opId) :
    ∃ e id v, input = [e, .leaf id] ∧ nt id = .literal v ∧ logOpOf v = .ok opId := by
  unfold logOp at h
  split at h
  · rename_i e id
    split at h
    · rename_i v hid
      exact ⟨e, id, v, rfl, hid, h⟩
    · cases h
  · cases h

/-! A faithful tree is computed by its scope, under every coherent interpretation. -/

section Sufficient

variable {I : Interp α} {b : Bindings α} {cx : Context} {lits : List PyFloat}

theorem isGathered_none (hgather : cx.gather = none) (name : String) : isGathered cx name = none := by
  rw [isGathered, hgather]
  rfl

theorem opsLeaf_eq (hgather : cx.gather = none) {id : ℕ} (hread : LitsRead cx.nt lits [id])
    (h : Faithful cx.nt lits (.leaf id)) :
    opsLeaf I b cx lits id = evalLeaf I b.col (cx.nt id) := by
  rw [Faithful] at h
  rw [opsLeaf]
  rcases hid : cx.nt id with name | v
  · simp only [isGathered_none hgather]
    rfl
  · simp only [hid] at h
    obtain ⟨x, hx, hmem⟩ := hread id (by simp) v hid
    simp only [hx]
    rw [evalLeaf, Interp.literal, (exactLiteral_iff hx hmem).1 h]

mutual

theorem opsValue_eq (hI : I.Coherent) (hgather : cx.gather = none) (e : IRExpr)
    (ha : Admitted cx.nt e) (hread : LitsRead cx.nt lits (leafIds e)) (h : Faithful cx.nt lits e) : opsValue I b cx lits e = evalTree I b.col cx.nt e := by
  match e with
  | .leaf id => exact opsLeaf_eq hgather hread h
  | .binary op left right =>
    obtain ⟨hop, hl, hr⟩ := ha
    obtain ⟨opId, hop⟩ := Option.isSome_iff_exists.1 hop
    rw [leafIds] at hread
    rw [opsValue, hop, evalTree, hI.binary (op, opId) (mem_binaryMeanings.2 hop),
      ← opsValue_eq hI hgather left hl (fun id hid => hread id (List.mem_append_left _ hid)) h.1,
      ← opsValue_eq hI hgather right hr (fun id hid => hread id (List.mem_append_right _ hid)) h.2]
  | .cast dtype e =>
    obtain ⟨rfl, he⟩ := ha
    rw [opsValue, evalTree, hI.castF32, ← opsValue_eq hI hgather e he hread h]
  | .function data input =>
    by_cases hshift : data = .shift
    · subst hshift
      obtain ⟨⟨w, hw⟩, ha⟩ := ha
      have hfirst := opsFirst_eq hI hgather input ha hread h
      obtain ⟨e, id, rfl, hid⟩ := exists_of_shiftOffset hw
      rw [opsValue, hw, evalTree, evalTrees, evalTrees, evalTrees, evalTree, hid]
      have hlit : I.literal (.int w) = I.lit (.finite (w : ℕ)) := by
        simp [Interp.literal, LitValue.exact]
      rw [Option.some.inj hfirst, evalLeaf, hlit, hI.shift]
    rw [leafIds_function hshift] at hread
    by_cases hlog : data = .log
    · subst hlog
      obtain ⟨⟨opId, hop⟩, ha⟩ := ha
      have hfirst := opsFirst_eq hI hgather input ha
        (fun id hid => hread id (firstLeafIds_subset input hid)) h.2
      obtain ⟨e, id, v, rfl, hid, hbase⟩ := exists_of_logOp hop
      obtain ⟨v', x, hv', hx, hsome⟩ := h.1
      obtain rfl : v = v' := LeafNode.literal.inj (hid.symm.trans hv')
      obtain ⟨opId', hop'⟩ := Option.isSome_iff_exists.1 hsome
      obtain rfl : opId = opId' := Except.ok.inj (hbase.symm.trans (logOpOf_exact hx hop'))
      rw [opsValue, hop, evalTree, evalTrees, evalTrees, evalTrees, evalTree, hid]
      rw [Option.some.inj hfirst, evalLeaf, Interp.literal, hx]
      exact (hI.log _ _ _ hop').symm
    by_cases hpow : data = .pow
    · subst hpow
      rw [opsValue, evalTree, hI.pow, opsAll_eq hI hgather input ha hread h]
    · rw [admitted_function hshift hlog hpow] at ha
      obtain ⟨⟨hop, hrev⟩, ha⟩ := ha
      obtain ⟨opId, hop⟩ := Option.isSome_iff_exists.1 hop
      rw [opsValue_function hop, evalTree]
      cases data with
      | plain f =>
        obtain rfl := Option.some.inj hop
        rw [hI.plain (f, plainMap f) (mem_plainMeanings.2 rfl), opsAll_eq hI hgather input ha hread h]
      | round decimals mode =>
        obtain ⟨⟨rfl, rfl⟩, h⟩ := h
        obtain rfl := Option.some.inj hop
        rw [hI.round, opsAll_eq hI hgather input ha hread h]
      | cumulative c reverse =>
        obtain rfl : reverse = false := hrev
        obtain rfl := Option.some.inj hop
        rw [hI.cumulative (c, cumulativeMap c) (mem_cumulativeMeanings.2 rfl), opsAll_eq hI hgather input ha hread h]
      | pow => exact absurd rfl hpow
      | log => exact absurd rfl hlog
      | shift => exact absurd rfl hshift
      | other _ => cases hop
  | .agg name arguments => exact h.elim
  | .ternary p t f =>
    obtain ⟨hp, ht, hf⟩ := ha
    rw [leafIds] at hread
    rw [opsValue, evalTree, hI.ternary,
      ← opsValue_eq hI hgather p hp (fun id hid => hread id (List.mem_append_left _ hid)) h.1,
      ← opsValue_eq hI hgather t ht (fun id hid =>
        hread id (List.mem_append_right _ (List.mem_append_left _ hid))) h.2.1,
      ← opsValue_eq hI hgather f hf (fun id hid =>
        hread id (List.mem_append_right _ (List.mem_append_right _ hid))) h.2.2]
  | .hidden => exact h.elim

theorem opsFirst_eq (hI : I.Coherent) (hgather : cx.gather = none) (es : List IRExpr)
    (ha : AdmittedFirst cx.nt es)
    (hread : LitsRead cx.nt lits (firstLeafIds es)) (h : FaithfulFirst cx.nt lits es) :
    (evalTrees I b.col cx.nt es).head? = some (opsFirst I b cx lits es) := by
  match es with
  | [] => exact h.elim
  | e :: _ =>
    rw [opsFirst, opsValue_eq hI hgather e ha hread h]
    rfl

theorem opsAll_eq (hI : I.Coherent) (hgather : cx.gather = none) (es : List IRExpr)
    (ha : AdmittedAll cx.nt es) (hread : LitsRead cx.nt lits (allLeafIds es)) (h : FaithfulAll cx.nt lits es) :
    opsAll I b cx lits es = evalTrees I b.col cx.nt es := by
  match es with
  | [] => rfl
  | e :: es =>
    rw [allLeafIds] at hread
    rw [opsAll, evalTrees,
      opsValue_eq hI hgather e ha.1 (fun id hid => hread id (List.mem_append_left _ hid)) h.1,
      opsAll_eq hI hgather es ha.2 (fun id hid => hread id (List.mem_append_right _ hid)) h.2]

end

end Sufficient

/-! The interpretation by terms: nothing is equal that coherence does not make equal. -/

inductive Term where
  | col (name : String)
  | lit (x : PyFloat)
  | object (v : LitValue)
  | op (o : OpId) (param : Option ℤ) (args : List Term)
  | binary (op : Operator) (l r : Term)
  | cast (dtype : PolarsDtype) (t : Term)
  | function (data : IRFunction) (args : List Term)
  | agg (name : String) (args : List Term)
  | hidden

def termLog (args : List Term) : Term :=
  match args with
  | [a, .lit base] =>
    match exactLogOp base with
    | some opId => .op opId none [a]
    | none => .function .log args
  | _ => .function .log args

def termShift (args : List Term) : Term :=
  match args with
  | [a, .lit (.finite w)] => .op .shift (some w.num) [a]
  | _ => .function .shift args

def termFunction (data : IRFunction) (args : List Term) : Term :=
  match data with
  | .plain f => .op (plainMap f) none args
  | .round decimals mode =>
    if decimals = 0 ∧ mode = .halfToEven then .op .round none args
    else .function (.round decimals mode) args
  | .cumulative c reverse =>
    if reverse then .function (.cumulative c reverse) args else .op (cumulativeMap c) none args
  | .pow => .op .pow none args
  | .log => termLog args
  | .shift => termShift args
  | .other name => .function (.other name) args

def termInterp : Interp Term where
  op := Term.op
  lit := Term.lit
  object := Term.object
  binary op l r :=
    match binopMap op with
    | some opId => .op opId none [l, r]
    | none => .binary op l r
  cast dtype t := if dtype = .float32 then .op .castF32 none [t] else .cast dtype t
  function := termFunction
  agg := Term.agg
  ternary p t f := .op .where none [p, t, f]
  hidden := Term.hidden

theorem termInterp_coherent : termInterp.Coherent where
  binary p h a b := by simp only [termInterp, mem_binaryMeanings.1 h]
  castF32 a := rfl
  plain p h args := by
    rw [← mem_plainMeanings.1 h]
    rfl
  round args := rfl
  cumulative p h args := by
    rw [← mem_cumulativeMeanings.1 h]
    rfl
  pow args := rfl
  log a base opId h := by
    change termLog [a, .lit base] = _
    simp only [termLog, h]
    rfl
  shift a w := rfl
  ternary p t f := rfl

section Necessary

variable {b : Bindings Term} {cx : Context} {lits : List PyFloat}

mutual

theorem faithful_of_term (hgather : cx.gather = none) (e : IRExpr) (ha : Admitted cx.nt e)
    (hread : LitsRead cx.nt lits (leafIds e))
    (h : opsValue termInterp b cx lits e = evalTree termInterp b.col cx.nt e) :
    Faithful cx.nt lits e := by
  match e with
  | .leaf id =>
    rw [opsValue, evalTree, opsLeaf] at h
    rw [Faithful]
    rcases hid : cx.nt id with name | v
    · exact trivial
    · simp only [hid] at h ⊢
      obtain ⟨x, hx, hmem⟩ := hread id (by simp [leafIds]) v hid
      refine (exactLiteral_iff hx hmem).2 ?_
      simp only [hx, evalLeaf, Interp.literal] at h
      rcases hexact : v.exact with _ | y
      · simp only [hexact] at h
        cases h
      · simp only [hexact] at h
        exact congrArg some (Term.lit.inj h).symm
  | .binary op left right =>
    obtain ⟨hop, hl, hr⟩ := ha
    obtain ⟨opId, hop⟩ := Option.isSome_iff_exists.1 hop
    rw [leafIds] at hread
    rw [opsValue, hop, evalTree, termInterp_coherent.binary (op, opId) (mem_binaryMeanings.2 hop)] at h
    obtain ⟨-, -, hargs⟩ := Term.op.inj h
    obtain ⟨hleft, hargs⟩ := List.cons.inj hargs
    obtain ⟨hright, -⟩ := List.cons.inj hargs
    exact ⟨faithful_of_term hgather left hl (fun id hid => hread id (List.mem_append_left _ hid)) hleft,
      faithful_of_term hgather right hr (fun id hid => hread id (List.mem_append_right _ hid)) hright⟩
  | .cast dtype e =>
    obtain ⟨rfl, he⟩ := ha
    rw [opsValue, evalTree, termInterp_coherent.castF32] at h
    obtain ⟨-, -, hargs⟩ := Term.op.inj h
    exact faithful_of_term hgather e he hread (List.cons.inj hargs).1
  | .function data input =>
    by_cases hshift : data = .shift
    · subst hshift
      obtain ⟨⟨w, hw⟩, ha⟩ := ha
      refine faithfulFirst_of_term hgather input ha hread ?_
      obtain ⟨e, id, rfl, hid⟩ := exists_of_shiftOffset hw
      rw [opsValue, hw, evalTree, evalTrees, evalTrees, evalTrees, evalTree, hid] at h
      obtain ⟨-, -, hargs⟩ := Term.op.inj h
      rw [evalTrees, (List.cons.inj hargs).1]
      rfl
    rw [leafIds_function hshift] at hread
    by_cases hlog : data = .log
    · subst hlog
      obtain ⟨⟨opId, hop⟩, ha⟩ := ha
      have hfirst := faithfulFirst_of_term hgather input ha
        (fun id hid => hread id (firstLeafIds_subset input hid))
      obtain ⟨e, id, v, rfl, hid, -⟩ := exists_of_logOp hop
      rw [opsValue, hop, evalTree, evalTrees, evalTrees, evalTrees, evalTree, hid, evalLeaf,
        Interp.literal] at h
      change Term.op opId none _ = termLog _ at h
      -- only an exact base makes the tree's logarithm an op
      rcases hexact : v.exact with _ | y
      · simp only [hexact] at h
        cases h
      · simp only [hexact] at h
        rcases hy : exactLogOp y with _ | opId'
        · simp only [termInterp, termLog, hy] at h
          cases h
        · simp only [termInterp, termLog, hy] at h
          obtain ⟨-, -, hargs⟩ := Term.op.inj h
          refine ⟨⟨v, y, hid, hexact, by rw [hy]; rfl⟩, hfirst ?_⟩
          exact congrArg some (List.cons.inj hargs).1.symm
    by_cases hpow : data = .pow
    · subst hpow
      rw [opsValue, evalTree, termInterp_coherent.pow] at h
      obtain ⟨-, -, hargs⟩ := Term.op.inj h
      exact faithfulAll_of_term hgather input ha hread hargs
    · rw [admitted_function hshift hlog hpow] at ha
      obtain ⟨⟨hop, hrev⟩, ha⟩ := ha
      obtain ⟨opId, hop⟩ := Option.isSome_iff_exists.1 hop
      rw [opsValue_function hop, evalTree] at h
      cases data with
      | plain f =>
        rw [termInterp_coherent.plain (f, plainMap f) (mem_plainMeanings.2 rfl)] at h
        exact faithfulAll_of_term hgather input ha hread (Term.op.inj h).2.2
      | round decimals mode =>
        by_cases hround : decimals = 0 ∧ mode = .halfToEven
        · obtain ⟨rfl, rfl⟩ := hround
          rw [termInterp_coherent.round] at h
          exact ⟨⟨rfl, rfl⟩, faithfulAll_of_term hgather input ha hread (Term.op.inj h).2.2⟩
        · change Term.op _ _ _ = termFunction (.round decimals mode) _ at h
          rw [termFunction, if_neg hround] at h
          cases h
      | cumulative c reverse =>
        obtain rfl : reverse = false := hrev
        rw [termInterp_coherent.cumulative (c, cumulativeMap c) (mem_cumulativeMeanings.2 rfl)] at h
        exact faithfulAll_of_term hgather input ha hread (Term.op.inj h).2.2
      | pow => exact absurd rfl hpow
      | log => exact absurd rfl hlog
      | shift => exact absurd rfl hshift
      | other _ => cases hop
  | .agg name arguments =>
    obtain ⟨hop, -⟩ := ha
    obtain ⟨opId, hop⟩ := Option.isSome_iff_exists.1 hop
    rw [opsValue, hop, evalTree] at h
    cases h
  | .ternary p t f =>
    obtain ⟨hp, ht, hf⟩ := ha
    rw [leafIds] at hread
    rw [opsValue, evalTree, termInterp_coherent.ternary] at h
    obtain ⟨-, -, hargs⟩ := Term.op.inj h
    obtain ⟨h₁, hargs⟩ := List.cons.inj hargs
    obtain ⟨h₂, hargs⟩ := List.cons.inj hargs
    obtain ⟨h₃, -⟩ := List.cons.inj hargs
    exact ⟨faithful_of_term hgather p hp (fun id hid => hread id (List.mem_append_left _ hid)) h₁,
      faithful_of_term hgather t ht (fun id hid =>
        hread id (List.mem_append_right _ (List.mem_append_left _ hid))) h₂,
      faithful_of_term hgather f hf (fun id hid =>
        hread id (List.mem_append_right _ (List.mem_append_right _ hid))) h₃⟩
  | .hidden => exact ha.elim

theorem faithfulFirst_of_term (hgather : cx.gather = none) (es : List IRExpr)
    (ha : AdmittedFirst cx.nt es) (hread : LitsRead cx.nt lits (firstLeafIds es))
    (h : (evalTrees termInterp b.col cx.nt es).head? = some (opsFirst termInterp b cx lits es)) :
    FaithfulFirst cx.nt lits es := by
  match es with
  | [] => exact ha.elim
  | e :: _ => exact faithful_of_term hgather e ha hread (Option.some.inj h).symm

theorem faithfulAll_of_term (hgather : cx.gather = none) (es : List IRExpr)
    (ha : AdmittedAll cx.nt es) (hread : LitsRead cx.nt lits (allLeafIds es))
    (h : opsAll termInterp b cx lits es = evalTrees termInterp b.col cx.nt es) :
    FaithfulAll cx.nt lits es := by
  match es with
  | [] => exact trivial
  | e :: es =>
    rw [allLeafIds] at hread
    rw [opsAll, evalTrees] at h
    obtain ⟨he, hes⟩ := List.cons.inj h
    exact ⟨faithful_of_term hgather e ha.1 (fun id hid => hread id (List.mem_append_left _ hid)) he,
      faithfulAll_of_term hgather es ha.2 (fun id hid => hread id (List.mem_append_right _ hid)) hes⟩

end

end Necessary

/-! The scope of an analyzed expression. -/

def Bindings.ofColumns (env : String → α) : Bindings α := ⟨env, env, env⟩

theorem litsRead_of_analyze {cx : Context} {e : IRExpr} {scope : FusionScope}
    {descriptors : List Descriptor} (h : analyzeWith cx e = .ok (scope, descriptors)) :
    Admitted cx.nt e ∧ LitsRead cx.nt (litValues cx.nt (leafIds e)) (leafIds e) := by
  rw [analyzeWith, bind_eq_ok] at h
  obtain ⟨st, hst, h⟩ := h
  obtain ⟨⟨s, idx⟩, hvisit, -⟩ := bind_eq_ok.1 h
  refine ⟨visitIrOps_admitted e hvisit, fun id hid v hv => ?_⟩
  have hready := (gatherLeaves_spec hst).2 id hid
  unfold LeafReady at hready
  simp only [hv] at hready
  obtain ⟨x, i, hx, hmem, -⟩ := hready
  exact ⟨x, hx, hmem⟩

/-- The scope computes its tree under every coherent interpretation exactly when every parameter
the ops do not carry is at its default and every literal is exact. -/
theorem scope_evaluates_tree_iff {nt : NodeTraverser} {schema : Schema} {e : IRExpr}
    {scope : FusionScope} {descriptors : List Descriptor} {dtype : InputDtype}
    (h : analyzeIrWithColumns nt schema e = .ok (scope, descriptors, dtype)) :
    (∀ (α : Type) (I : Interp α) (env : String → α), I.Coherent →
      evalScope I.op (descriptors.map (bindDescriptor I (.ofColumns env))) scope =
        .ok [evalTree I env nt e]) ↔ Faithful nt (litValues nt (leafIds e)) e := by
  rw [analyzeIrWithColumns, bind_eq_ok] at h
  obtain ⟨⟨s, ds⟩, hanalyze, h⟩ := h
  obtain ⟨rfl, hrest⟩ := Prod.mk.inj (Except.ok.inj h)
  obtain ⟨rfl, rfl⟩ := Prod.mk.inj hrest
  obtain ⟨ha, hread⟩ := litsRead_of_analyze hanalyze
  refine ⟨fun hall => ?_, fun hf α I env hI => ?_⟩
  · have hterm := hall Term termInterp Term.col termInterp_coherent
    rw [evalScope_analyzeWith termInterp (.ofColumns Term.col) hanalyze] at hterm
    exact faithful_of_term rfl e ha hread (List.cons.inj (Except.ok.inj hterm)).1
  · rw [evalScope_analyzeWith I (.ofColumns env) hanalyze,
      opsValue_eq hI (b := .ofColumns env) rfl e ha hread hf]
    rfl

/-- The leaves of `x.shift(3).log(2)`. -/
def logShiftLeaves : NodeTraverser
  | 0 => .column "x"
  | 1 => .literal (.int 3)
  | _ => .literal (.int 2)

def logShift : IRExpr := .function .log [.function .shift [.leaf 0, .leaf 1], .leaf 2]

theorem scope_evaluates_tree_iff_sample :
    (∀ (α : Type) (I : Interp α) (env : String → α), I.Coherent →
      evalScope I.op ([Descriptor.col "x", .lit (.finite 2)].map (bindDescriptor I (.ofColumns env)))
        ⟨[⟨"x", .f32⟩, ⟨"__lit_2.0", .f32⟩], [⟨.shift, [0], some 3⟩, ⟨.log2, [2], none⟩], [3]⟩ =
        .ok [evalTree I env logShiftLeaves logShift]) ↔
      Faithful logShiftLeaves (litValues logShiftLeaves (leafIds logShift)) logShift := by
  have h : analyzeIrWithColumns logShiftLeaves (fun _ => some .float32) logShift =
      .ok (⟨[⟨"x", .f32⟩, ⟨"__lit_2.0", .f32⟩], [⟨.shift, [0], some 3⟩, ⟨.log2, [2], none⟩], [3]⟩,
        [.col "x", .lit (.finite 2)], .f32) := by
    decide +kernel
  exact scope_evaluates_tree_iff h

/-- The leaf and the tree of `x.round(1)`. -/
def roundLeaves : NodeTraverser := fun _ => .column "x"

def roundToTenths : IRExpr := .function (.round 1 .halfToEven) [.leaf 0]

/-- Rounding to the nearest multiple over the rationals; every other node reads as its first input. -/
def decimalInterp : Interp ℚ where
  op o _ args := if o = .round then round (args.headD 0) else args.headD 0
  lit _ := 0
  object _ := 0
  binary _ l _ := l
  cast _ x := x
  function data args :=
    match data with
    | .round decimals _ => round (args.headD 0 * 10 ^ decimals) / 10 ^ decimals
    | _ => args.headD 0
  agg _ args := args.headD 0
  ternary p _ _ := p
  hidden := 0

theorem decimalInterp_coherent : decimalInterp.Coherent := by
  refine ⟨?_, ?_, ?_, ?_, ?_, ?_, ?_, ?_, ?_⟩
  · rintro ⟨op, opId⟩ h a b
    have hop := mem_binaryMeanings.1 h
    cases op <;> cases hop <;> rfl
  · intro a
    rfl
  · rintro ⟨f, opId⟩ h args
    obtain rfl := mem_plainMeanings.1 h
    cases f <;> rfl
  · intro args
    simp [decimalInterp]
  · rintro ⟨c, opId⟩ h args
    obtain rfl := mem_cumulativeMeanings.1 h
    cases c <;> rfl
  · intro args
    rfl
  · intro a base opId h
    have hmem : opId ≠ .round := by
      rw [exactLogOp] at h
      split_ifs at h <;> cases h <;> decide
    exact (if_neg hmem).symm
  · intro a w
    rfl
  · intro p t f
    rfl

/-- `x.round(1)` is analyzed, and its scope rounds to an integer. -/
theorem round_drops_decimals :
    ¬ ∀ (nt : NodeTraverser) (schema : Schema) (e : IRExpr) (scope : FusionScope)
      (descriptors : List Descriptor) (dtype : InputDtype),
      analyzeIrWithColumns nt schema e = .ok (scope, descriptors, dtype) →
      ∀ (α : Type) (I : Interp α) (env : String → α), I.Coherent →
        evalScope I.op (descriptors.map (bindDescriptor I (.ofColumns env))) scope =
          .ok [evalTree I env nt e] := by
  intro hall
  have h : analyzeIrWithColumns roundLeaves (fun _ => some .float32) roundToTenths =
      .ok (⟨[⟨"x", .f32⟩], [⟨.round, [0], none⟩], [1]⟩, [.col "x"], .f32) := by decide +kernel
  have heval := hall _ _ _ _ _ _ h ℚ decimalInterp (fun _ => 13 / 10) decimalInterp_coherent
  exact absurd heval (by decide +kernel)

end PolarsMetal.Fusion
