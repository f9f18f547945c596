import PolarsMetal.GroupBy.AggPaths

/-! Agreement of the fused and the per-aggregate path on 32-bit integer columns,
for every grid, every order of the fused atomics and every thread order of the
per-aggregate kernels. -/

namespace PolarsMetal.GroupBy
open Bitmap Fallible Reads Reduce

inductive AggValue where
  | i64 (v : BitVec 64) | f64 (bits : BitVec 64) | u64 (v : ℕ) | i32 (v : Word) | f32 (bits : Word)
deriving DecidableEq

/-- A group's value; `none` past the end of the output. -/
def AggOutput.value (g : ℕ) : AggOutput → Option AggValue
  | .i64 values _ => values[g]?.map .i64
  | .f64 values _ => values[g]?.map .f64
  | .u64 values => values[g]?.map .u64
  | .i32 values _ => values[g]?.map .i32
  | .f32 values _ => values[g]?.map .f32

/-- A group's validity; counts are never null. -/
def AggOutput.validity (g : ℕ) : AggOutput → Option Bool
  | .i64 _ valid | .f64 _ valid | .i32 _ valid | .f32 _ valid => valid[g]?
  | .u64 values => values[g]?.map (fun _ => true)

def GroupByResult.valuesAgree (a b : GroupByResult) : Prop :=
  a.nGroups = b.nGroups ∧ a.aggOutputs.length = b.aggOutputs.length ∧
    ∀ g < a.nGroups, a.aggOutputs.map (AggOutput.value g) = b.aggOutputs.map (AggOutput.value g)

def GroupByResult.validityAgrees (a b : GroupByResult) : Prop :=
  ∀ g < a.nGroups, a.aggOutputs.map (AggOutput.validity g) = b.aggOutputs.map (AggOutput.validity g)

/-- One run of each path over the same assignment of rows to groups. -/
structure PathRuns (fl : F32Ops) (specs : List AggSpec) (byName : ValueColumns) (nRows : ℕ)
    (build : BuildOutput) (grid : Grid) (order : FlushOrder) (threads : ℕ → List ℕ) : Prop where
  intSpecs : ∀ spec ∈ specs, IntSpec byName nRows spec
  assignment : Assignment nRows build
  rowCount : nRows < 2 ^ 32
  partition : (gridRows grid).Perm (List.range nRows)
  flushes : ∀ colDtypes sig inp, fusedPrepare specs byName nRows build = .ok (colDtypes, sig, inp) →
    ∀ a j, (order a j).Perm (fusedFlushes fl specs sig inp grid a j)
  threadOrder : ∀ a, (threads a).Perm (List.range nRows)

/-- Every group has a valid row in every column that a minimum or maximum reads. -/
def ExtremesPresent (specs : List AggSpec) (byName : ValueColumns) (nRows : ℕ)
    (build : BuildOutput) : Prop :=
  ∀ col op name data valid, .simple col op name ∈ specs → op = .min ∨ op = .max →
    byName.lookup col = some (.i32 data valid) → ∀ g < build.nGroups,
      ∃ row < nRows, build.rowToGroup.getD row 0 = g ∧ bitAt valid row ≠ 0

theorem mapM_zipIdx_eq_ok {ε : Type*} {α β : Type} {f : α × ℕ → Except ε β} {g : α → β} {xs : List α}
    (h : ∀ x a, xs[a]? = some x → f (x, a) = .ok (g x)) : xs.zipIdx.mapM f = .ok (xs.map g) := by
  have hg : xs.map g = xs.zipIdx.map (fun entry => g entry.1) := by
    calc xs.map g = (xs.zipIdx.map Prod.fst).map g := by rw [List.zipIdx_map_fst]
      _ = xs.zipIdx.map (fun entry => g entry.1) := List.map_map
  rw [hg]
  exact mapM_eq_ok (fun entry hentry => h entry.1 entry.2 (List.mem_zipIdx_iff_getElem?.1 hentry))

/-- A spec's request where it has one. -/
def requestOr (byName : ValueColumns) (spec : AggSpec) : AggKind × ValueColumn :=
  match requestOf byName spec with
  | .ok req => req
  | .error _ => (.len, .i64 [] [])

theorem requestOr_eq {byName : ValueColumns} {spec : AggSpec} {req : AggKind × ValueColumn}
    (h : requestOf byName spec = .ok req) : requestOr byName spec = req := by rw [requestOr, h]

theorem mapM_requestOf {byName : ValueColumns} {nRows : ℕ} {specs : List AggSpec}
    (h : ∀ spec ∈ specs, IntSpec byName nRows spec) :
    specs.mapM (requestOf byName) = .ok (specs.map (requestOr byName)) := by
  refine mapM_eq_ok (fun spec hspec => ?_)
  obtain ⟨req, hreq⟩ := requestOf_intSpec (h spec hspec)
  rw [requestOr_eq hreq, hreq]

section Runs

variable {fl : F32Ops} {specs : List AggSpec} {byName : ValueColumns} {nRows : ℕ}
  {build : BuildOutput} {grid : Grid} {order : FlushOrder} {threads : ℕ → List ℕ}

theorem dispatchGroupbyFused_eq (h : PathRuns fl specs byName nRows build grid order threads)
    (hpos : 0 < nRows) :
    dispatchGroupbyFused fl specs byName nRows build order =
      .ok ⟨specs.map (aggregateOutput byName nRows build (fun _ _ => true)), build.nGroups⟩ := by
  obtain ⟨colDtypes, sig, inp, hprep, hb⟩ := fusedPrepare_bound h.intSpecs h.assignment.cap h.rowCount
  have haggs : specs.zipIdx.mapM (runFusedAgg fl inp sig colDtypes order) =
      .ok (specs.map (aggregateOutput byName nRows build (fun _ _ => true))) :=
    mapM_zipIdx_eq_ok (fun spec a ha => runFusedAgg_eq hb h.intSpecs h.assignment.cap h.rowCount h.partition
      (h.flushes colDtypes sig inp hprep) ha)
  rw [dispatchGroupbyFused, if_neg (by omega)]
  exact bind_eq_ok.2 ⟨_, hprep, bind_eq_ok.2 ⟨_, haggs, rfl⟩⟩

theorem executePeragg_eq (h : PathRuns fl specs byName nRows build grid order threads)
    (hpos : 0 < nRows) :
    executePeragg fl specs byName nRows build threads =
      .ok ⟨specs.map (aggregateOutput byName nRows build (rowPresent build nRows)), build.nGroups⟩ := by
  have hreq : ∀ spec a, specs[a]? = some spec → ∃ req, requestOf byName spec = .ok req ∧
      runOneAgg fl req.1 req.2 build.rowToGroup build.nGroups (threads a) =
        .ok (aggregateOutput byName nRows build (rowPresent build nRows) spec) :=
    fun spec a ha => runOneAgg_eq h.assignment hpos h.rowCount (h.threadOrder a)
      (h.intSpecs spec (List.mem_of_getElem? ha))
  have haggs : (specs.map (requestOr byName)).zipIdx.mapM (fun p =>
      runOneAgg fl p.1.1 p.1.2 build.rowToGroup build.nGroups (threads p.2)) =
      .ok (specs.map (aggregateOutput byName nRows build (rowPresent build nRows))) := by
    rw [List.zipIdx_map, List.mapM_map]
    refine mapM_zipIdx_eq_ok (fun spec a ha => ?_)
    obtain ⟨req, hreq, hrun⟩ := hreq spec a ha
    simpa [requestOr_eq hreq] using hrun
  rw [executePeragg]
  refine bind_eq_ok.2 ⟨_, mapM_requestOf h.intSpecs, ?_⟩
  rw [if_neg (by omega)]
  exact bind_eq_ok.2 ⟨_, haggs, rfl⟩

theorem value_aggregateOutput (p q : List UInt8 → ℕ → Bool) (spec : AggSpec) (g : ℕ) :
    (aggregateOutput byName nRows build p spec).value g =
      (aggregateOutput byName nRows build q spec).value g := by
  cases spec with
  | simple col op name =>
    rw [aggregateOutput, aggregateOutput]
    rcases byName.lookup col with _ | ⟨data, valid⟩ | ⟨data, valid⟩ | ⟨data, valid⟩ | ⟨data, valid⟩
    · rfl
    · rfl
    · rfl
    · cases op <;> rfl
    · rfl
  | expression e op name => rfl
  | length name => rfl

/-- Only the validity of minima and maxima depends on the path. -/
theorem validity_aggregateOutput_iff {spec : AggSpec} (hspec : IntSpec byName nRows spec) {g : ℕ}
    (hg : g < build.nGroups) :
    (aggregateOutput byName nRows build (fun _ _ => true) spec).validity g =
        (aggregateOutput byName nRows build (rowPresent build nRows) spec).validity g ↔
      ∀ col op name data valid, spec = .simple col op name → op = .min ∨ op = .max →
        byName.lookup col = some (.i32 data valid) → rowPresent build nRows valid g = true := by
  cases spec with
  | simple col op name =>
    obtain ⟨hop, data, valid, hcolumn⟩ := hspec
    have hcell : ∀ p : ℕ → Bool, ((List.range build.nGroups).map p)[g]? = some (p g) := by
      intro p
      rw [List.getElem?_map, List.getElem?_range hg]
      rfl
    have hcond : (∀ c o n d v, AggSpec.simple col op name = .simple c o n → o = .min ∨ o = .max →
        byName.lookup c = some (.i32 d v) → rowPresent build nRows v g = true) ↔
        (op = .min ∨ op = .max → rowPresent build nRows valid g = true) := by
      refine ⟨fun h ho => h col op name data valid rfl ho hcolumn.lookup, ?_⟩
      rintro h c o n d v ⟨⟩ ho hlookup
      rw [hcolumn.lookup] at hlookup
      cases hlookup
      exact h ho
    rw [hcond, aggregateOutput, aggregateOutput, hcolumn.lookup]
    simp only [List.mem_cons, List.not_mem_nil, or_false] at hop
    obtain rfl | rfl | rfl | rfl := hop
    · simp
    · simp only [AggOutput.validity, hcell, Option.some.injEq]
      exact ⟨fun h _ => h.symm, fun h => (h (.inl trivial)).symm⟩
    · simp only [AggOutput.validity, hcell, Option.some.injEq]
      exact ⟨fun h _ => h.symm, fun h => (h (.inr trivial)).symm⟩
    · simp
  | expression e op name => exact hspec.elim
  | length name => simp [aggregateOutput]

end Runs

/-- The paths always agree on the values; on the validity exactly when no minimum or maximum
has a group without a valid row. -/
theorem fused_agrees_iff_extremes_present {fl : F32Ops} {specs : List AggSpec}
    {byName : ValueColumns} {nRows : ℕ} {build : BuildOutput} {grid : Grid} {order : FlushOrder}
    {threads : ℕ → List ℕ} (h : PathRuns fl specs byName nRows build grid order threads) :
    ∃ fused peragg, dispatchGroupbyFused fl specs byName nRows build order = .ok fused ∧
      executePeragg fl specs byName nRows build threads = .ok peragg ∧
      fused.valuesAgree peragg ∧
      (fused.validityAgrees peragg ↔ nRows = 0 ∨ ExtremesPresent specs byName nRows build) := by
  rcases Nat.eq_zero_or_pos nRows with rfl | hpos
  · refine ⟨⟨specs.map emptyOutputForKagg, 0⟩,
      ⟨(specs.map (requestOr byName)).map (fun req => emptyOutputFor req.1), 0⟩, ?_, ?_,
      ⟨rfl, by simp, fun g hg => absurd hg (Nat.not_lt_zero g)⟩, ?_⟩
    · rw [dispatchGroupbyFused, if_pos rfl]
      rfl
    · rw [executePeragg]
      exact bind_eq_ok.2 ⟨_, mapM_requestOf h.intSpecs, by rw [if_pos rfl]; rfl⟩
    · exact ⟨fun _ => .inl rfl, fun _ g hg => absurd hg (Nat.not_lt_zero g)⟩
  · refine ⟨_, _, dispatchGroupbyFused_eq h hpos, executePeragg_eq h hpos, ⟨rfl, by simp, ?_⟩, ?_⟩
    · intro g _
      simp only [List.map_map]
      exact List.map_congr_left (fun spec _ => value_aggregateOutput _ _ spec g)
    · rw [or_iff_right (by omega)]
      simp only [GroupByResult.validityAgrees, List.map_map, List.map_inj_left, Function.comp_apply]
      refine ⟨fun hagree col op name data valid hspec hop hlookup g hg => ?_, fun hpresent g hg spec hspec => ?_⟩
      · exact rowPresent_iff.1 ((validity_aggregateOutput_iff (h.intSpecs _ hspec) hg).1
          (hagree g hg _ hspec) col op name data valid rfl hop hlookup)
      · refine (validity_aggregateOutput_iff (h.intSpecs spec hspec) hg).2 ?_
        rintro col op name data valid rfl hop hlookup
        exact rowPresent_iff.2 (hpresent col op name data valid hspec hop hlookup g hg)

theorem fused_agrees_iff_extremes_present_sample :
    ∃ fused peragg,
      dispatchGroupbyFused default [.simple "v" .min "m", .length "n"] [("v", .i32 [7, 9] [2])] 2
        ⟨[0, 0], [0], 1⟩ (fun a _ => if a = 0 then [(0, 9)] else if a = 1 then [(0, 2)] else []) = .ok fused ∧
      executePeragg default [.simple "v" .min "m", .length "n"] [("v", .i32 [7, 9] [2])] 2
        ⟨[0, 0], [0], 1⟩ (fun _ => [1, 0]) = .ok peragg ∧
      fused.valuesAgree peragg ∧
      (fused.validityAgrees peragg ↔ 2 = 0 ∨ ExtremesPresent [.simple "v" .min "m", .length "n"]
        [("v", .i32 [7, 9] [2])] 2 ⟨[0, 0], [0], 1⟩) := by
  refine fused_agrees_iff_extremes_present (⟨?_, ⟨rfl, by decide, by decide⟩, by decide, by decide,
    ?_, fun _ => by decide⟩ : PathRuns default [.simple "v" .min "m", .length "n"]
      [("v", .i32 [7, 9] [2])] 2 ⟨[0, 0], [0], 1⟩ [[[[1], [0]]]] _ (fun _ => [1, 0]))
  · intro spec hspec
    simp only [List.mem_cons, List.not_mem_nil, or_false] at hspec
    obtain rfl | rfl := hspec
    · exact ⟨by decide, [7, 9], [2], rfl, by decide, by decide⟩
    · exact trivial
  · intro colDtypes sig inp hprep a j
    have hval : fusedPrepare [.simple "v" .min "m", .length "n"] [("v", .i32 [7, 9] [2])] 2
        ⟨[0, 0], [0], 1⟩ = .ok ([("v", .i32)], ⟨["v"], [.i32], [.simple 0 .min .i32, .length]⟩,
          ⟨[0, 0], 2, 1, ["v"], [.i32], [[7, 9]], [[2]]⟩) := rfl
    rw [hval] at hprep
    cases hprep
    rcases a with _ | _ | a
    · rcases j with _ | j <;> exact List.Perm.of_eq rfl
    · rcases j with _ | j <;> exact List.Perm.of_eq rfl
    · exact List.Perm.of_eq rfl

/-- A group whose only row is null: the fused path reports its minimum as valid. -/
theorem fused_min_of_null_group :
    ¬ ∀ (fl : F32Ops) (specs : List AggSpec) (byName : ValueColumns) (nRows : ℕ)
      (build : BuildOutput) (grid : Grid) (order : FlushOrder) (threads : ℕ → List ℕ),
      PathRuns fl specs byName nRows build grid order threads →
      ∃ fused peragg, dispatchGroupbyFused fl specs byName nRows build order = .ok fused ∧
        executePeragg fl specs byName nRows build threads = .ok peragg ∧
        fused.valuesAgree peragg ∧ fused.validityAgrees peragg := by
  intro h
  have hruns : PathRuns default [.simple "v" .min "m"] [("v", .i32 [7] [0])] 1 ⟨[0], [0], 1⟩
      [[[[0]]]] (fun _ _ => []) (fun _ => [0]) := by
    refine ⟨?_, ⟨rfl, by decide, by decide⟩, by decide, by decide, ?_, fun _ => by decide⟩
    · intro spec hspec
      rw [List.mem_singleton.1 hspec]
      exact ⟨by decide, [7], [0], rfl, by decide, by decide⟩
    · intro colDtypes sig inp hprep a j
      have hval : fusedPrepare [.simple "v" .min "m"] [("v", .i32 [7] [0])] 1 ⟨[0], [0], 1⟩ =
          .ok ([("v", .i32)], ⟨["v"], [.i32], [.simple 0 .min .i32]⟩,
            ⟨[0], 1, 1, ["v"], [.i32], [[7]], [[0]]⟩) := rfl
      rw [hval] at hprep
      cases hprep
      rcases a with _ | a
      · rcases j with _ | j <;> exact List.Perm.of_eq rfl
      · exact List.Perm.of_eq rfl
  obtain ⟨fused, peragg, hfused, hperagg, -, hvalidity⟩ := h _ _ _ _ _ _ _ _ hruns
  have hf : fused = ⟨[.i32 [i32Max] [true]], 1⟩ := (Except.ok.inj hfused).symm
  have hp : peragg = ⟨[.i32 [i32Max] [false]], 1⟩ := (Except.ok.inj hperagg).symm
  have := hvalidity 0 (by rw [hf]; decide)
  rw [hf, hp] at this
  exact absurd this (by decide)

end PolarsMetal.GroupBy
