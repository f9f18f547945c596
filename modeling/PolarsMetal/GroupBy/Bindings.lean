import PolarsMetal.GroupBy.Emitter
import PolarsMetal.GroupBy.SignatureSpec

/-! The buffers the fused dispatcher binds, against the parameters the emitted kernel declares.
Both number their slots on their own: the emitter while it prints, the dispatcher by the order
in which it pushes. -/

namespace PolarsMetal.GroupBy
open Fallible

/-! The dispatcher's buffers. -/

/-- What the host takes a buffer's elements for. -/
inductive BufferElem where
  | u8 | u32 | i32 | f32 | i64 | f64 | f32Bits
deriving DecidableEq, Repr

inductive BufferCells where
  | words (cells : List Word)
  | bytes (cells : List UInt8)
deriving DecidableEq

structure HostBuffer where
  elem : BufferElem
  cells : BufferCells
deriving DecidableEq

structure OutputBuf where
  primary : HostBuffer
  count : Option HostBuffer
  primaryKind : PrimaryKind
deriving DecidableEq

def PrimaryKind.elem : PrimaryKind → BufferElem
  | u32 => .u32
  | i32 => .i32
  | f32Bits => .f32Bits

def allocateAggOutput (colDtypes : ColDtypes) (nGroups : ℕ) (agg : AggSpec) :
    Except FusedDispatchError OutputBuf := do
  let (op, dt) ← allocationOf colDtypes agg
  let kind := primaryKindFor op dt
  return {
    primary := ⟨kind.elem, .words (List.replicate nGroups (primarySeed op kind))⟩
    count := if op = .mean then some ⟨.u32, .words (List.replicate nGroups 0)⟩ else none
    primaryKind := kind }

def ValueColumn.elem : ValueColumn → BufferElem
  | i32 _ _ => .i32
  | f32 _ _ => .f32
  | i64 _ _ => .i64
  | f64 _ _ => .f64

/-- The staged words of a column, typed as the caller's slice is. -/
def valueBuffer (byName : ValueColumns) (name : String) (data : List Word) : HostBuffer :=
  ⟨((byName.lookup name).map ValueColumn.elem).getD .u8, .words data⟩

/-- Metal rejects empty buffers: at least four bytes. -/
def padValidity (valid : List UInt8) : List UInt8 :=
  if valid.length < 4 then valid ++ List.replicate (4 - valid.length) 0 else valid

def OutputBuf.buffers (ob : OutputBuf) : List HostBuffer := ob.primary :: ob.count.toList

/-- The bindings in push order, each beside the variable it is pushed from. -/
def fusedBindings (byName : ValueColumns) (inp : KernelInput) (outputs : List OutputBuf) :
    List (ParamRole × HostBuffer) :=
  [(.rowToGroup, ⟨.u32, .words (inp.rowToGroup.map (BitVec.ofNat 32))⟩),
    (.nRows, ⟨.u32, .words [BitVec.ofNat 32 inp.nRows]⟩),
    (.nGroups, ⟨.u32, .words [BitVec.ofNat 32 inp.nGroups]⟩)] ++
    (inp.columnOrder.zip inp.values).zipIdx.map (fun ((name, data), i) =>
      (.value i, valueBuffer byName name data)) ++
    inp.validities.zipIdx.map (fun (valid, i) =>
      (.validity i, ⟨.u8, .bytes (padValidity valid)⟩)) ++
    outputs.zipIdx.flatMap (fun (ob, a) => ob.buffers.zipIdx.map (fun (buf, j) =>
      (.output a j, buf)))

/-! What the kernel expects at a parameter. -/

/-- A kernel pointer type a host element may be read through; a float accumulator is an
`atomic_uint` of its bits. -/
def BufferElem.readAs : BufferElem → MslType → Bool
  | .u32, .uint | .i32, .int | .f32, .float | .u8, .uchar => true
  | .u32, .atomicUint | .f32Bits, .atomicUint | .i32, .atomicInt => true
  | _, _ => false

/-- The scalar an accumulator's cells stand for. -/
def BufferElem.cppScalar : BufferElem → String
  | .u32 => "uint"
  | .i32 => "int"
  | .f32 | .f32Bits => "float"
  | .f64 => "double"
  | .i64 => "long"
  | .u8 => "uchar"

/-- An accumulator of a reduction slot: its scalar, and in each group the reduction's identity,
which the kernel's registers are printed to start from. -/
structure SeededFor (nGroups : ℕ) (kind : ReduceKind) (buf : HostBuffer) : Prop where
  cells : buf.cells = .words (List.replicate nGroups kind.identity)
  printed : ReduceKind.constantWord kind.identityText = some kind.identity
  scalar : buf.elem.cppScalar = kind.cppScalar
  pointer : buf.elem.readAs kind.atomicPtr

def ValueColumn.words : ValueColumn → List Word
  | i32 data _ | f32 data _ => data
  | i64 _ _ | f64 _ _ => []

def ValueColumn.validity : ValueColumn → List UInt8
  | i32 _ valid | f32 _ valid | i64 _ valid | f64 _ valid => valid

/-- The contents a parameter of each role stands for. -/
def Carries (specs : List AggSpec) (sig : AggSignature) (byName : ValueColumns) (nRows : ℕ)
    (build : BuildOutput) (buf : HostBuffer) : ParamRole → Prop
  | .rowToGroup => buf.cells = .words (build.rowToGroup.map (BitVec.ofNat 32))
  | .nRows => buf.cells = .words [BitVec.ofNat 32 nRows]
  | .nGroups => buf.cells = .words [BitVec.ofNat 32 build.nGroups]
  | .value i => ∃ name col, sig.columnOrder[i]? = some name ∧ byName.lookup name = some col ∧
      buf.elem = col.elem ∧ buf.cells = .words col.words
  | .validity i => ∃ name col, sig.columnOrder[i]? = some name ∧ byName.lookup name = some col ∧
      buf.cells = .bytes (padValidity (col.validity.take ((nRows + 7) / 8)))
  | .output a j => ∃ slots kind, (buildAggSlots specs sig)[a]? = some slots ∧
      slots[j]? = some kind ∧ SeededFor build.nGroups kind buf

/-- A parameter and the buffer bound at its index. -/
structure BoundAt (specs : List AggSpec) (sig : AggSignature) (byName : ValueColumns) (nRows : ℕ)
    (build : BuildOutput) (param : KernelParam) (binding : (ParamRole × HostBuffer) × ℕ) : Prop where
  index : param.buffer = binding.2
  printed : ∃ declaration, param.text = declaration ++ ("[[buffer(" ++ binding.2.repr ++ ")]],\n")
  role : binding.1.1 = param.role
  elem : binding.1.2.elem.readAs param.elem
  carries : Carries specs sig byName nRows build binding.1.2 param.role

/-! Accumulators. -/

theorem columnDtypeFor_eq {colDtypes : ColDtypes} {specs : List AggSpec} {sig : AggSignature}
    (hsig : SignatureOf colDtypes specs sig) {name : String} (hname : name ∈ sig.columnOrder) :
    columnDtypeFor sig name = colDtypes.lookup name := by
  rw [columnDtypeFor, if_pos hname, hsig.interned.dtype name hname]

theorem exists_dtype {colDtypes : ColDtypes} {specs : List AggSpec} {sig : AggSignature}
    (hsig : SignatureOf colDtypes specs sig) {name : String} (hname : name ∈ sig.columnOrder) :
    ∃ dt, colDtypes.lookup name = some dt := by
  have hlt : sig.columnOrder.idxOf name < sig.columnDtypes.length := by
    rw [show sig.columnDtypes.length = sig.columnOrder.length from hsig.interned.length]
    exact List.idxOf_lt_length_iff.2 hname
  exact ⟨_, (hsig.interned.dtype name hname).trans (List.getElem?_eq_getElem hlt)⟩

/-- The reductions of an op over a dtype, as the emitter assigns them. -/
def slotKinds (op : AggOp) (dt : MetalDtype) : List ReduceKind :=
  match op with
  | .count | .len => [.counter]
  | .sum => [sumKindFor dt]
  | .min => [minKindFor dt]
  | .max => [maxKindFor dt]
  | .mean => [sumKindFor dt, .counter]

theorem seededFor_primary (nGroups : ℕ) (op : AggOp) (dt : MetalDtype) :
    ∃ kind rest, slotKinds op dt = kind :: rest ∧ SeededFor nGroups kind
      ⟨(primaryKindFor op dt).elem,
        .words (List.replicate nGroups (primarySeed op (primaryKindFor op dt)))⟩ := by
  cases op <;> cases dt <;>
    exact ⟨_, _, rfl, rfl, ReduceKind.constantWord_identityText _, rfl, rfl⟩

theorem slotKinds_tail (op : AggOp) (dt : MetalDtype) :
    (slotKinds op dt).tail = if op = .mean then [.counter] else [] := by
  cases op <;> rfl

theorem aggSlots_eq_slotKinds {colDtypes : ColDtypes} {specs : List AggSpec} {sig : AggSignature}
    (hsig : SignatureOf colDtypes specs sig) {spec : AggSpec} (hspec : spec ∈ specs) :
    ∃ op dt, allocationOf colDtypes spec = .ok (op, dt) ∧ aggSlots sig spec = slotKinds op dt ∧
      isMean spec = (op == .mean) := by
  cases spec with
  | simple col op name =>
    have hcol := hsig.used _ hspec col (by simp [AggSpec.referencedColumns])
    obtain ⟨dt, hdt⟩ := exists_dtype hsig hcol
    refine ⟨op, dt, by simp only [allocationOf, hdt], ?_, rfl⟩
    cases op <;> simp only [aggSlots, columnDtypeFor_eq hsig hcol, hdt, Option.getD_some, slotKinds]
  | expression e op name => exact ⟨op, .f32, rfl, by cases op <;> rfl, rfl⟩
  | length name => exact ⟨.len, .u32, rfl, rfl, rfl⟩

/-- The accumulators allocated for a spec are one for each of its reduction slots. -/
theorem allocateAggOutput_spec {colDtypes : ColDtypes} {specs : List AggSpec} {sig : AggSignature}
    (hsig : SignatureOf colDtypes specs sig) (nGroups : ℕ) {spec : AggSpec} (hspec : spec ∈ specs) :
    ∃ ob, allocateAggOutput colDtypes nGroups spec = .ok ob ∧
      List.Forall₂ (SeededFor nGroups) (aggSlots sig spec) ob.buffers := by
  obtain ⟨op, dt, halloc, hslots, -⟩ := aggSlots_eq_slotKinds hsig hspec
  obtain ⟨kind, rest, hkinds, hprimary⟩ := seededFor_primary nGroups op dt
  have htail := slotKinds_tail op dt
  rw [hkinds, List.tail_cons] at htail
  refine ⟨_, by rw [allocateAggOutput, halloc]; rfl, ?_⟩
  rw [hslots, hkinds, htail]
  refine .cons hprimary ?_
  by_cases hmean : op = .mean
  · rw [if_pos hmean, if_pos hmean]
    exact .cons ⟨rfl, rfl, rfl, rfl⟩ .nil
  · rw [if_neg hmean, if_neg hmean]
    exact .nil

/-! Positions. -/

section Positions

variable {specs : List AggSpec} {sig : AggSignature} {byName : ValueColumns} {nRows : ℕ}
  {build : BuildOutput} {colDtypes : ColDtypes}

theorem outs_eq_range (hsig : SignatureOf colDtypes specs sig) {spec : AggSpec}
    (hspec : spec ∈ specs) (slot : ℕ) :
    (if isMean spec then [slot, slot + 1] else [slot]) =
      List.range' slot (aggSlots sig spec).length := by
  obtain ⟨op, dt, -, hslots, hmean⟩ := aggSlots_eq_slotKinds hsig hspec
  rw [hslots, hmean]
  cases op <;> rfl

/-- The parameters of one spec, against the accumulators pushed for it. -/
theorem boundAt_spec {spec : AggSpec} {a : ℕ} (ha : specs[a]? = some spec) {ob : OutputBuf}
    (hob : List.Forall₂ (SeededFor build.nGroups) (aggSlots sig spec) ob.buffers) (slot : ℕ) :
    List.Forall₂ (BoundAt specs sig byName nRows build)
      ((List.range' slot (aggSlots sig spec).length).zipIdx.map (fun (slot, j) =>
        ⟨.output a j, (((buildAggSlots specs sig).getD a []).getD j .counter).atomicPtr, slot⟩))
      ((ob.buffers.zipIdx.map (fun (buf, j) => (ParamRole.output a j, buf))).zipIdx slot) := by
  have hslots : (buildAggSlots specs sig)[a]? = some (aggSlots sig spec) := by
    rw [buildAggSlots, List.getElem?_map, ha, Option.map_some]
  have hlen := hob.length_eq
  refine List.forall₂_of_length_eq_of_get (by simp [hlen]) fun i h₁ h₂ => ?_
  have hi : i < (aggSlots sig spec).length := by simpa using h₁
  have hi' : i < ob.buffers.length := hlen ▸ hi
  have hseeded : SeededFor build.nGroups (aggSlots sig spec)[i] ob.buffers[i] := hob.get hi hi'
  have hkind : (aggSlots sig spec)[i]? = some (aggSlots sig spec)[i] :=
    List.getElem?_eq_getElem hi
  simp only [List.get_eq_getElem, List.getElem_map, List.getElem_zipIdx, List.getElem_range',
    Nat.zero_add, Nat.one_mul]
  refine ⟨rfl, KernelParam.text_slot _, rfl, ?_, _, _, hslots, hkind, hseeded⟩
  simpa only [List.getD_eq_getElem?_getD, hslots, hkind, Option.getD_some] using hseeded.pointer

theorem boundAt_outputs (hsig : SignatureOf colDtypes specs sig) {before rest : List AggSpec}
    (hspecs : specs = before ++ rest) {outputs : List OutputBuf}
    (h : List.Forall₂ (fun spec (ob : OutputBuf) =>
      List.Forall₂ (SeededFor build.nGroups) (aggSlots sig spec) ob.buffers) rest outputs)
    (slot : ℕ) :
    List.Forall₂ (BoundAt specs sig byName nRows build)
      (((outputSlots slot rest).zipIdx before.length).flatMap (fun (outs, a) =>
        outs.zipIdx.map (fun (slot, j) => ⟨.output a j,
          (((buildAggSlots specs sig).getD a []).getD j .counter).atomicPtr, slot⟩)))
      (((outputs.zipIdx before.length).flatMap (fun (ob, a) =>
        ob.buffers.zipIdx.map (fun (buf, j) => (ParamRole.output a j, buf)))).zipIdx slot) := by
  induction h generalizing before slot with
  | nil => exact .nil
  | @cons spec ob rest outputs hob hrest ih =>
    have hspec : spec ∈ specs := by rw [hspecs]; simp
    have ha : specs[before.length]? = some spec := by rw [hspecs]; simp
    have hspecs' : specs = before ++ [spec] ++ rest := by rw [hspecs, List.append_cons]
    have hnext := ih hspecs' (slot + (aggSlots sig spec).length)
    rw [List.length_append, List.length_singleton] at hnext
    simp only [outputSlots, outs_eq_range hsig hspec, List.length_range', List.zipIdx_cons,
      List.flatMap_cons, List.zipIdx_append, List.length_map, List.length_zipIdx]
    rw [← hob.length_eq]
    exact List.rel_append (boundAt_spec ha hob slot) hnext

/-- A staged column is the caller's, of a type the parameter's pointer reads. -/
theorem slotBuffers_inv {name : String} {dt : MetalDtype} {slot : ℕ} {data : List Word}
    {valid : List UInt8} (h : slotBuffers byName nRows ((name, dt), slot) = .ok (data, valid)) :
    ∃ col, byName.lookup name = some col ∧ data = col.words ∧
      valid = col.validity.take ((nRows + 7) / 8) ∧ col.elem.readAs (mslValueLoadType dt) := by
  simp only [slotBuffers] at h
  cases hcol : byName.lookup name with
  | none => simp only [hcol] at h; cases h
  | some col =>
    simp only [hcol] at h
    obtain ⟨⟨words, bytes⟩, hbytes, h⟩ := bind_eq_ok.1 h
    obtain ⟨-, h⟩ := guard_eq_ok.1 h
    obtain ⟨rfl, rfl⟩ := Prod.mk.inj (pure_eq_ok.1 h)
    cases col <;> cases dt <;> cases hbytes <;> exact ⟨_, rfl, rfl, rfl, rfl⟩

theorem fusedPrepare_inv {inp : KernelInput}
    (h : fusedPrepare specs byName nRows build = .ok (colDtypes, sig, inp)) :
    SignatureOf colDtypes specs sig ∧ ∃ buffers, inp = kernelInput sig buffers nRows build ∧
      List.Forall₂ (fun entry buffer => slotBuffers byName nRows entry = .ok buffer)
        (sig.columnOrder.zip sig.columnDtypes).zipIdx buffers := by
  rw [fusedPrepare] at h
  obtain ⟨colDtypes', -, h⟩ := bind_eq_ok.1 h
  obtain ⟨sig', hsig, h⟩ := bind_eq_ok.1 h
  obtain ⟨-, h⟩ := guard_eq_ok.1 h
  obtain ⟨-, h⟩ := guard_eq_ok.1 h
  obtain ⟨buffers, hbuffers, h⟩ := bind_eq_ok.1 h
  obtain ⟨-, h⟩ := guard_eq_ok.1 h
  obtain ⟨rfl, rfl, rfl⟩ : colDtypes' = colDtypes ∧ sig' = sig ∧
      kernelInput sig' buffers nRows build = inp := by
    simpa only [pure_eq_ok, Prod.mk.injEq] using h
  refine ⟨?_, buffers, rfl, forall₂_of_mapM hbuffers⟩
  cases hrun : AggSignature.fromSpecs specs colDtypes' with
  | ok sig =>
    rw [hrun] at hsig
    obtain rfl := Except.ok.inj hsig
    exact signatureOf_fromSpecs hrun
  | error e => rw [hrun] at hsig; cases hsig

/-- The buffer staged for slot `i`. -/
theorem staged_column {buffers : List (List Word × List UInt8)}
    (h : List.Forall₂ (fun entry buffer => slotBuffers byName nRows entry = .ok buffer)
      (sig.columnOrder.zip sig.columnDtypes).zipIdx buffers) {i : ℕ} {name : String}
    {dt : MetalDtype} {buffer : List Word × List UInt8} (hname : sig.columnOrder[i]? = some name)
    (hdt : sig.columnDtypes[i]? = some dt) (hbuffer : buffers[i]? = some buffer) :
    ∃ col, byName.lookup name = some col ∧ buffer.1 = col.words ∧
      buffer.2 = col.validity.take ((nRows + 7) / 8) ∧
      col.elem.readAs (mslValueLoadType dt) := by
  obtain ⟨hi, rfl⟩ := List.getElem?_eq_some_iff.1 hbuffer
  have hzip : (sig.columnOrder.zip sig.columnDtypes).zipIdx[i]? = some ((name, dt), i) := by
    have hpair : (sig.columnOrder.zip sig.columnDtypes)[i]? = some (name, dt) :=
      List.getElem?_zip_eq_some.2 ⟨hname, hdt⟩
    rw [List.getElem?_zipIdx, hpair, Option.map_some, Nat.zero_add]
  obtain ⟨hi', hentry⟩ := List.getElem?_eq_some_iff.1 hzip
  have hrun := h.get (i := i) hi' hi
  simp only [List.get_eq_getElem, hentry] at hrun
  exact slotBuffers_inv hrun

theorem boundAt_values {buffers : List (List Word × List UInt8)}
    (hlen : sig.columnDtypes.length = sig.columnOrder.length)
    (h : List.Forall₂ (fun entry buffer => slotBuffers byName nRows entry = .ok buffer)
      (sig.columnOrder.zip sig.columnDtypes).zipIdx buffers) (slot : ℕ) :
    List.Forall₂ (BoundAt specs sig byName nRows build)
      (sig.columnDtypes.zipIdx.map (fun (dt, i) => ⟨.value i, mslValueLoadType dt, slot + i⟩))
      (((sig.columnOrder.zip (buffers.map Prod.fst)).zipIdx.map (fun ((name, data), i) =>
        (ParamRole.value i, valueBuffer byName name data))).zipIdx slot) := by
  have hbuf := h.length_eq
  simp only [List.length_zipIdx, List.length_zip] at hbuf
  refine List.forall₂_of_length_eq_of_get (by simp; omega) fun i h₁ h₂ => ?_
  have hi : i < sig.columnDtypes.length := by simpa using h₁
  have hname := List.getElem?_eq_getElem (show i < sig.columnOrder.length by omega)
  have hbuffer := List.getElem?_eq_getElem (show i < buffers.length by omega)
  obtain ⟨col, hcol, hwords, -, helem⟩ :=
    staged_column h hname (List.getElem?_eq_getElem hi) hbuffer
  have hbufelem : (valueBuffer byName sig.columnOrder[i] buffers[i].1).elem = col.elem := by
    rw [valueBuffer, hcol]
    rfl
  simp only [List.get_eq_getElem, List.getElem_map, List.getElem_zipIdx, List.getElem_zip,
    Nat.zero_add]
  exact ⟨rfl, KernelParam.text_slot _, rfl, hbufelem.symm ▸ helem, _, col, hname, hcol, hbufelem,
    congrArg BufferCells.words hwords⟩

theorem boundAt_validities {buffers : List (List Word × List UInt8)}
    (hlen : sig.columnDtypes.length = sig.columnOrder.length)
    (h : List.Forall₂ (fun entry buffer => slotBuffers byName nRows entry = .ok buffer)
      (sig.columnOrder.zip sig.columnDtypes).zipIdx buffers) (slot : ℕ) :
    List.Forall₂ (BoundAt specs sig byName nRows build)
      ((List.range sig.columnDtypes.length).map (fun i => ⟨.validity i, .uchar, slot + i⟩))
      (((buffers.map Prod.snd).zipIdx.map (fun (valid, i) =>
        (ParamRole.validity i, ⟨.u8, .bytes (padValidity valid)⟩))).zipIdx slot) := by
  have hbuf := h.length_eq
  simp only [List.length_zipIdx, List.length_zip] at hbuf
  refine List.forall₂_of_length_eq_of_get (by simp; omega) fun i h₁ h₂ => ?_
  have hi : i < sig.columnDtypes.length := by simpa using h₁
  have hname := List.getElem?_eq_getElem (show i < sig.columnOrder.length by omega)
  have hbuffer := List.getElem?_eq_getElem (show i < buffers.length by omega)
  obtain ⟨col, hcol, -, hvalid, -⟩ :=
    staged_column h hname (List.getElem?_eq_getElem hi) hbuffer
  simp only [List.get_eq_getElem, List.getElem_map, List.getElem_zipIdx, List.getElem_range,
    Nat.zero_add]
  exact ⟨rfl, KernelParam.text_slot _, rfl, rfl, _, col, hname, hcol,
    congrArg (fun bytes => BufferCells.bytes (padValidity bytes)) hvalid⟩

end Positions

/-- Buffer for buffer, what the dispatcher binds is what the kernel's parameter at that index
declares, and every accumulator starts from the identity of the reduction flushed into it; the
printed kernel's parameter list is those parameters. -/
theorem fused_bindings_line_up {specs : List AggSpec} {byName : ValueColumns} {nRows : ℕ}
    {build : BuildOutput} {colDtypes : ColDtypes} {sig : AggSignature} {inp : KernelInput}
    (h : fusedPrepare specs byName nRows build = .ok (colDtypes, sig, inp)) :
    ∃ outputs, specs.mapM (allocateAggOutput colDtypes build.nGroups) = .ok outputs ∧
      (fusedBindings byName inp outputs).length = (kernelParams sig specs).length ∧
      List.Forall₂ (BoundAt specs sig byName nRows build) (kernelParams sig specs)
        (fusedBindings byName inp outputs).zipIdx ∧
      ∀ fmtF64 : BitVec 64 → String, ∃ body, emitMsl fmtF64 sig specs =
        kernelHeader ++ String.join ((kernelParams sig specs).map KernelParam.text) ++ body := by
  obtain ⟨hsig, buffers, rfl, hbuffers⟩ := fusedPrepare_inv h
  obtain ⟨outputs, houtputs, hseeded⟩ := mapM_of_forall
    (fun spec hspec => allocateAggOutput_spec hsig build.nGroups hspec)
  have hlen : sig.columnDtypes.length = sig.columnOrder.length := hsig.interned.length
  have hcols : buffers.length = sig.columnOrder.length := by
    have hbuf := hbuffers.length_eq
    simp only [List.length_zipIdx, List.length_zip] at hbuf
    omega
  have hoffset : sig.columnOrder.length + 1 + 1 + 1 = 3 + sig.columnOrder.length := by omega
  have hoffset' : sig.columnOrder.length + sig.columnOrder.length + 1 + 1 + 1 =
      3 + sig.columnOrder.length + sig.columnOrder.length := by omega
  have hbound : List.Forall₂ (BoundAt specs sig byName nRows build) (kernelParams sig specs)
      (fusedBindings byName (kernelInput sig buffers nRows build) outputs).zipIdx := by
    rw [kernelParams, fusedBindings, List.zipIdx_append, List.zipIdx_append, List.zipIdx_append]
    refine List.rel_append (List.rel_append (List.rel_append ?_ ?_) ?_) ?_
    · have hlead : ∀ role : ParamRole, ∀ buf : HostBuffer, ∀ i : ℕ, buf.elem.readAs .uint →
          Carries specs sig byName nRows build buf role →
          BoundAt specs sig byName nRows build ⟨role, .uint, i⟩ ((role, buf), i) :=
        fun role buf i helem hcarries => ⟨rfl, KernelParam.text_slot _, rfl, helem, hcarries⟩
      exact .cons (hlead _ _ 0 rfl rfl) (.cons (hlead _ _ 1 rfl rfl) (.cons (hlead _ _ 2 rfl rfl) .nil))
    · exact boundAt_values hlen hbuffers 3
    · have hvalidities := @boundAt_validities specs sig byName nRows build buffers hlen hbuffers
        (3 + sig.columnDtypes.length)
      simpa [kernelInput, hcols, hlen, hoffset] using hvalidities
    · have houts := @boundAt_outputs specs sig byName nRows build colDtypes hsig [] specs rfl outputs
        hseeded (3 + sig.columnDtypes.length + sig.columnDtypes.length)
      simpa [kernelInput, outputParams, hcols, hlen, hoffset'] using houts
  exact ⟨outputs, houtputs, by simpa using hbound.length_eq.symm, hbound, fun fmtF64 => ⟨_, rfl⟩⟩

theorem fused_bindings_line_up_sample :
    let specs := [.simple "v" .mean "m", .expression (.binary .mul (.column "v") (.column "w")) .min "x",
      .simple "w" .max "y", .length "n"]
    let byName := [("v", .i32 [7, 9] [3]), ("w", .f32 [0x3F800000, 0] [1])]
    let build : BuildOutput := ⟨[0, 1], [0, 1], 2⟩
    let sig : AggSignature := ⟨["v", "w"], [.i32, .f32], [.simple 0 .mean .i32,
      .expression (.binary .mul (.column 0) (.column 1)) .min .i32, .simple 1 .max .f32, .length]⟩
    let inp : KernelInput := ⟨[0, 1], 2, 2, ["v", "w"], [.i32, .f32], [[7, 9], [0x3F800000, 0]],
      [[3], [1]]⟩
    ∃ outputs, specs.mapM (allocateAggOutput [("v", .i32), ("w", .f32)] 2) = .ok outputs ∧
      (fusedBindings byName inp outputs).length = (kernelParams sig specs).length ∧
      List.Forall₂ (BoundAt specs sig byName 2 build) (kernelParams sig specs)
        (fusedBindings byName inp outputs).zipIdx ∧
      ∀ fmtF64 : BitVec 64 → String, ∃ body, emitMsl fmtF64 sig specs =
        kernelHeader ++ String.join ((kernelParams sig specs).map KernelParam.text) ++ body := by
  intro specs byName build sig inp
  have hprep : fusedPrepare specs byName 2 build = .ok ([("v", .i32), ("w", .f32)], sig, inp) := rfl
  exact fused_bindings_line_up hprep

end PolarsMetal.GroupBy
