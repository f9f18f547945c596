import PolarsMetal.Router.LiftingPlan

/-! When the two walks record the same decisions. Each group-by has to be decided alike: the
dict walk looks neither at its keys nor at its aggregates, and it counts the scan's rows
where the typed walk counts none, under another group-by. -/

namespace PolarsMetal.Router

open GroupBy (MetalDtype AggSpec)

namespace MetalPlanNode

/-- The rows of the scan at the bottom. -/
def scanRows : MetalPlanNode → ℕ
  | scan nRows _ => nRows
  | project input _ => input.scanRows
  | filter input => input.scanRows
  | groupBy input _ _ => input.scanRows

def hasGroupBy : MetalPlanNode → Prop
  | scan _ _ => False
  | project input _ => input.hasGroupBy
  | filter input => input.hasGroupBy
  | groupBy _ _ _ => True

/-- Every group-by has narrow expression columns and keys within 128 bits, and none lies
over another group-by when the scan is large enough to lift. -/
def RoutesAlike : MetalPlanNode → Prop
  | scan _ _ => True
  | project input _ => input.RoutesAlike
  | filter input => input.RoutesAlike
  | groupBy input keys aggs =>
    input.RoutesAlike ∧ expressionFallsBack (inputSchemaLookup input) aggs = false ∧
      totalKeyBits keys ≤ 128 ∧ (input.hasGroupBy → input.scanRows ≤ groupbyGpuMinRows)

end MetalPlanNode

/-! The wire names. -/

theorem hash_notMem_repr (n : ℕ) : '#' ∉ n.repr.toList := by
  intro h
  rw [Nat.toList_repr] at h
  exact absurd (Nat.isDigit_of_mem_toDigits (by omega) (by omega) h) (by decide)

theorem repr_toList_injective {m n : ℕ} (h : m.repr.toList = n.repr.toList) : m = n := by
  rw [Nat.toList_repr, Nat.toList_repr] at h
  have := congrArg (fun digits => Nat.ofDigitChars 10 digits 0) h
  simpa only [Nat.ofDigitChars_toDigits (by omega : 1 < 10) le_rfl] using this

theorem NodeId.toWire_injective : Function.Injective NodeId.toWire := by
  rintro ⟨kind, seq⟩ ⟨kind', seq'⟩ h
  have hlist := congrArg (fun s => s.toList.reverse) h
  simp only [NodeId.toWire, String.toList_append, List.reverse_append] at hlist
  -- read backwards, the digits end at the first '#'
  have hidx : ∀ n : ℕ, ∀ rest : List Char,
      (n.repr.toList.reverse ++ ("#".toList.reverse ++ rest)).idxOf '#' =
        n.repr.toList.reverse.length := by
    intro n rest
    rw [List.idxOf_append_of_notMem (by simpa using hash_notMem_repr n)]
    simp
  have hlen := congrArg (List.idxOf '#') hlist
  rw [hidx, hidx] at hlen
  obtain ⟨hseq, htail⟩ := List.append_inj hlist hlen
  rw [List.reverse_inj] at hseq
  have hkind := List.reverse_inj.1 (List.append_cancel_left htail)
  rw [String.toList_injective hkind, repr_toList_injective hseq]

theorem NodeDecision.toWire_injective : Function.Injective NodeDecision.toWire := by
  have hfallback : ∀ (r : String) (c : Char) (s : String), s.toList.head? = some c → c ≠ 'f' →
      s ≠ "fallback:" ++ r := by
    rintro r c s hs hc rfl
    rw [String.toList_append] at hs
    exact hc (Option.some.inj hs).symm
  intro d d' h
  cases d with
  | gpuLift =>
    cases d' with
    | gpuLift => rfl
    | cpuLeave => exact absurd h (by decide)
    | fallback r => exact absurd h (hfallback r 'g' _ rfl (by decide))
  | cpuLeave =>
    cases d' with
    | gpuLift => exact absurd h (by decide)
    | cpuLeave => rfl
    | fallback r => exact absurd h (hfallback r 'c' _ rfl (by decide))
  | fallback r =>
    cases d' with
    | gpuLift => exact absurd h.symm (hfallback r 'g' _ rfl (by decide))
    | cpuLeave => exact absurd h.symm (hfallback r 'c' _ rfl (by decide))
    | fallback r' =>
      have := congrArg String.toList h
      simp only [toWire, String.toList_append, List.append_cancel_left_eq] at this
      rw [String.toList_injective this]

theorem lookup_foldl_insert (l : List (Sigma fun _ : NodeId => NodeDecision)) (hl : l.NodupKeys)
    (out : WirePlan) (id : NodeId) :
    (l.foldl (fun out entry => out.insert entry.1.toWire entry.2.toWire) out).lookup id.toWire =
      ((l.dlookup id).map NodeDecision.toWire).or (out.lookup id.toWire) := by
  induction l generalizing out with
  | nil => simp
  | cons entry l ih =>
    obtain ⟨i, d⟩ := entry
    rw [List.nodupKeys_cons] at hl
    rw [List.foldl_cons, ih hl.2]
    by_cases h : id = i
    · subst h
      rw [List.dlookup_eq_none.2 hl.1, List.dlookup_cons_eq]
      simp
    · rw [List.dlookup_cons_ne l ⟨i, d⟩ h,
        AList.lookup_insert_ne (fun he => h (NodeId.toWire_injective he))]

theorem lookup_foldl_insert_other (l : List (Sigma fun _ : NodeId => NodeDecision))
    (out : WirePlan) (key : String) (hkey : ∀ id : NodeId, key ≠ id.toWire) :
    (l.foldl (fun out entry => out.insert entry.1.toWire entry.2.toWire) out).lookup key =
      out.lookup key := by
  induction l generalizing out with
  | nil => rfl
  | cons entry l ih => rw [List.foldl_cons, ih, AList.lookup_insert_ne (hkey entry.1)]

theorem lookup_toWirePlan (lifting : LiftingPlan) (id : NodeId) :
    (toWirePlan lifting).lookup id.toWire = (lifting.lookup id).map NodeDecision.toWire := by
  rw [toWirePlan, lookup_foldl_insert _ lifting.nodupKeys]
  simp [AList.lookup]

/-- The same decision, or none, for every id. -/
def Alike (wire typed : LiftingPlan) : Prop := ∀ id, wire.lookup id = typed.lookup id

/-- Two plans record the same decisions exactly when Python is handed the same dict. -/
theorem alike_iff_toWirePlan (wire typed : LiftingPlan) :
    (∀ key, (toWirePlan wire).lookup key = (toWirePlan typed).lookup key) ↔ Alike wire typed := by
  refine ⟨fun h id => ?_, fun h key => ?_⟩
  · have := h id.toWire
    rw [lookup_toWirePlan, lookup_toWirePlan] at this
    exact Option.map_injective NodeDecision.toWire_injective this
  · by_cases hkey : ∃ id : NodeId, key = id.toWire
    · obtain ⟨id, rfl⟩ := hkey
      rw [lookup_toWirePlan, lookup_toWirePlan, h id]
    · push Not at hkey
      rw [toWirePlan, toWirePlan, lookup_foldl_insert_other _ _ _ hkey,
        lookup_foldl_insert_other _ _ _ hkey]

/-! One recorded node. -/

/-- Ids from `nextSeq` on are still free. -/
def Unused (plan : LiftingPlan) (nextSeq : ℕ) : Prop :=
  ∀ id : NodeId, nextSeq ≤ id.seq → plan.lookup id = none

theorem Unused.record {plan : LiftingPlan} {nextSeq : ℕ} (h : Unused plan nextSeq) (kind : String)
    (decision : NodeDecision) :
    Unused (record kind decision plan nextSeq).2.1 (record kind decision plan nextSeq).2.2 := by
  intro id hid
  simp only [Router.record] at hid ⊢
  have hne : id ≠ ⟨kind, nextSeq⟩ := by rintro rfl; simp at hid
  rw [AList.lookup_insert_ne hne]
  exact h id (by omega)

theorem alike_record {wire typed : LiftingPlan} {nextSeq : ℕ} (hw : Unused wire nextSeq)
    (ht : Unused typed nextSeq) (kind : String) (d' d : NodeDecision) :
    Alike (record kind d' wire nextSeq).2.1 (record kind d typed nextSeq).2.1 ↔
      Alike wire typed ∧ d' = d := by
  simp only [Alike, record]
  refine ⟨fun h => ⟨fun id => ?_, ?_⟩, fun ⟨h, hd⟩ id => ?_⟩
  · by_cases hid : id = ⟨kind, nextSeq⟩
    · subst hid
      rw [hw _ le_rfl, ht _ le_rfl]
    · simpa only [AList.lookup_insert_ne hid] using h id
  · simpa using h ⟨kind, nextSeq⟩
  · by_cases hid : id = ⟨kind, nextSeq⟩
    · subst hid; simp [hd]
    · simpa only [AList.lookup_insert_ne hid] using h id

/-! The decision at a group-by. -/

theorem peekInputRowCount_toDict (node : MetalPlanNode) :
    peekInputRowCount node.toDict = .ok node.scanRows := by
  induction node with
  | scan nRows columns => rfl
  | project input columns ih => exact ih
  | filter input ih => exact ih
  | groupBy input keys aggs ih => exact ih

theorem inputRowCount_of_hasGroupBy {node : MetalPlanNode} (h : node.hasGroupBy) :
    inputRowCount node = 0 := by
  induction node with
  | scan nRows columns => exact h.elim
  | project input columns ih => exact ih h
  | filter input ih => exact ih h
  | groupBy input keys aggs ih => rfl

theorem inputRowCount_of_not_hasGroupBy {node : MetalPlanNode} (h : ¬node.hasGroupBy) :
    inputRowCount node = node.scanRows := by
  induction node with
  | scan nRows columns => rfl
  | project input columns ih => exact ih h
  | filter input ih => exact ih h
  | groupBy input keys aggs ih => exact absurd trivial h

theorem decideGroupby_ne_fallback (n : ℕ) (reason : String) :
    decideGroupby n ≠ .fallback reason := by
  unfold decideGroupby
  split_ifs <;> simp

theorem decideGroupby_inputRowCount_iff (input : MetalPlanNode) :
    decideGroupby input.scanRows = decideGroupby (inputRowCount input) ↔
      (input.hasGroupBy → input.scanRows ≤ groupbyGpuMinRows) := by
  by_cases h : input.hasGroupBy
  · rw [inputRowCount_of_hasGroupBy h]
    simp only [h, true_implies, decideGroupby, groupbyGpuMinRows]
    split_ifs <;> simp_all
  · simp [inputRowCount_of_not_hasGroupBy h, h]

theorem groupBy_decisions_iff (input : MetalPlanNode) (keys : List (String × MetalDtype))
    (aggs : List AggSpec) :
    (decideGroupby input.scanRows =
      if expressionFallsBack (inputSchemaLookup input) aggs then .fallback expressionFallbackReason
      else decideGroupbyWithKeys (inputRowCount input) keys aggs) ↔
    expressionFallsBack (inputSchemaLookup input) aggs = false ∧ totalKeyBits keys ≤ 128 ∧
      (input.hasGroupBy → input.scanRows ≤ groupbyGpuMinRows) := by
  cases hexpr : expressionFallsBack (inputSchemaLookup input) aggs with
  | true => simp [decideGroupby_ne_fallback]
  | false =>
    by_cases hbits : totalKeyBits keys > 128
    · simp [decideGroupbyWithKeys, hbits, decideGroupby_ne_fallback]
    · simp [decideGroupbyWithKeys, hbits, decideGroupby_inputRowCount_iff, Nat.le_of_not_gt hbits]

/-! The two walks together. -/

theorem Alike.childDecision {wire typed : LiftingPlan} (h : Alike wire typed) (child : NodeId) :
    childDecision wire child = childDecision typed child := by
  simp only [Router.childDecision, h child]

/-- The dict walk of `node` beside the typed one, from any two plans that leave the coming
ids free. -/
structure SideBySide (node : MetalPlanNode) (typed wire : LiftingPlan) (nextSeq : ℕ)
    (wire' : LiftingPlan) : Prop where
  run : parseAndRoute node.toDict wire nextSeq =
    .ok ((walk node typed nextSeq).1, wire', (walk node typed nextSeq).2.2)
  unusedTyped : Unused (walk node typed nextSeq).2.1 (walk node typed nextSeq).2.2
  unusedWire : Unused wire' (walk node typed nextSeq).2.2
  alike : Alike wire' (walk node typed nextSeq).2.1 ↔ Alike wire typed ∧ node.RoutesAlike

theorem exists_sideBySide (node : MetalPlanNode) {typed wire : LiftingPlan} {nextSeq : ℕ}
    (ht : Unused typed nextSeq) (hw : Unused wire nextSeq) :
    ∃ wire', SideBySide node typed wire nextSeq wire' := by
  induction node with
  | scan nRows columns =>
    refine ⟨(record "Scan" decideScanInitial wire nextSeq).2.1, rfl, ht.record _ _,
      hw.record _ _, ?_⟩
    rw [walk, alike_record hw ht]
    simp [MetalPlanNode.RoutesAlike]
  | project input columns ih =>
    obtain ⟨wire', h⟩ := ih
    refine ⟨(record "Project" (decideProject (childDecision wire' (walk input typed nextSeq).1))
      wire' (walk input typed nextSeq).2.2).2.1, ?_, h.unusedTyped.record _ _, h.unusedWire.record _ _, ?_⟩
    · simp only [MetalPlanNode.toDict, parseAndRoute, PlanEntries.ofKind, PlanEntries.getKind,
        h.run]
      rfl
    · rw [walk, alike_record h.unusedWire h.unusedTyped, MetalPlanNode.RoutesAlike, ← h.alike]
      exact ⟨fun hd => hd.1, fun hd => ⟨hd, by rw [hd.childDecision]⟩⟩
  | filter input ih =>
    obtain ⟨wire', h⟩ := ih
    refine ⟨(record "Filter" (decideFilter 0) wire' (walk input typed nextSeq).2.2).2.1, ?_, h.unusedTyped.record _ _, h.unusedWire.record _ _, ?_⟩
    · simp only [MetalPlanNode.toDict, parseAndRoute, PlanEntries.ofKind, PlanEntries.getKind,
        h.run]
      rfl
    · rw [walk, alike_record h.unusedWire h.unusedTyped, MetalPlanNode.RoutesAlike, ← h.alike]
      simp
  | groupBy input keys aggs ih =>
    obtain ⟨wire', h⟩ := ih
    refine ⟨(record "GroupBy" (decideGroupby input.scanRows) wire'
      (walk input typed nextSeq).2.2).2.1, ?_, h.unusedTyped.record _ _, h.unusedWire.record _ _, ?_⟩
    · simp only [MetalPlanNode.toDict, parseAndRoute, PlanEntries.ofKind, PlanEntries.getKind,
        peekInputRowCount_toDict, h.run]
      rfl
    · rw [walk, alike_record h.unusedWire h.unusedTyped, groupBy_decisions_iff,
        MetalPlanNode.RoutesAlike, h.alike, and_assoc]

/-- The dict walk never fails on a typed plan's dict, and hands Python the typed walk's
decisions exactly when every group-by is one the two decide alike. -/
theorem routing_agrees_iff (root : MetalPlanNode) :
    ∃ out, computeLiftingPlanPy root.toDict = .ok out ∧
      ((∀ key, out.lookup key = (toWirePlan (computeLiftingPlan root)).lookup key) ↔
        root.RoutesAlike) := by
  have hfree : Unused ∅ 0 := fun id _ => AList.lookup_empty id
  obtain ⟨wire, h⟩ := exists_sideBySide root hfree hfree
  refine ⟨toWirePlan wire, ?_, ?_⟩
  · rw [computeLiftingPlanPy, h.run]
    rfl
  · rw [alike_iff_toWirePlan, computeLiftingPlan, h.alike]
    exact ⟨fun hr => hr.2, fun hr => ⟨fun _ => rfl, hr⟩⟩

/-- Two 64-bit keys: 130 bits, left to the CPU by the typed walk and lifted by the other. -/
theorem wide_keys_routed_apart :
    let plan := MetalPlanNode.groupBy (.scan 100001 [("a", .i64), ("b", .i64), ("v", .f32)])
      [("a", .i64), ("b", .i64)] [.simple "v" .sum "s"]
    (computeLiftingPlanPy plan.toDict).toOption.bind (·.lookup "GroupBy#1") = some "gpu_lift" ∧
      (toWirePlan (computeLiftingPlan plan)).lookup "GroupBy#1" =
        some "fallback:composite key total 130 bits; M2 supports ≤ 128" := by
  decide +kernel

end PolarsMetal.Router
