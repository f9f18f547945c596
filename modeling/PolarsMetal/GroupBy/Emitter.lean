import PolarsMetal.GroupBy.FusedKernel

/-! The text of the fused kernel: its parameters, one buffer slot each, and its body. Printing
a `double` literal is a parameter, a function of the literal's bits. -/

namespace PolarsMetal.GroupBy

/-! Reduction slots as text. -/

namespace ReduceKind

def cppScalar : ReduceKind → String
  | f32Sum | f32Min | f32Max => "float"
  | i32Sum | i32Min | i32Max => "int"
  | u32Sum | u32Min | u32Max | counter => "uint"

def identityText : ReduceKind → String
  | f32Sum => "0.0f"
  | f32Min => "INFINITY"
  | f32Max => "-INFINITY"
  | i32Sum | u32Sum | counter => "0"
  | i32Min => "INT_MAX"
  | i32Max => "INT_MIN"
  | u32Min => "UINT_MAX"
  | u32Max => "0u"

/-- The words of the constants the kernel starts its registers from. -/
def constantWord : String → Option Word
  | "0" | "0u" | "0.0f" => some 0
  | "INFINITY" => some f32Infinity
  | "-INFINITY" => some f32NegInfinity
  | "INT_MAX" => some GroupBy.i32Max
  | "INT_MIN" => some GroupBy.i32Min
  | "UINT_MAX" => some u32MaxWord
  | _ => none

theorem constantWord_identityText (kind : ReduceKind) :
    constantWord kind.identityText = some kind.identity := by
  cases kind <;> rfl

def simdReduceCall (kind : ReduceKind) (expr : String) : String :=
  match kind with
  | f32Sum | i32Sum | u32Sum | counter => "simd_sum(" ++ expr ++ ")"
  | f32Min | i32Min | u32Min => "simd_min(" ++ expr ++ ")"
  | f32Max | i32Max | u32Max => "simd_max(" ++ expr ++ ")"

end ReduceKind

/-! Parameters. -/

inductive MslType where
  | uint | int | float | uchar | atomicUint | atomicInt
deriving DecidableEq, Repr

def MslType.text : MslType → String
  | uint => "uint"
  | int => "int"
  | float => "float"
  | uchar => "uchar"
  | atomicUint => "atomic_uint"
  | atomicInt => "atomic_int"

def ReduceKind.atomicPtr : ReduceKind → MslType
  | f32Sum | f32Min | f32Max | u32Sum | u32Min | u32Max | counter => .atomicUint
  | i32Sum | i32Min | i32Max => .atomicInt

def mslValueLoadType : MetalDtype → MslType
  | .f32 | .f64 => .float
  | .i32 | .i16 | .i8 | .i64 => .int
  | .u32 | .u16 | .u8 => .uint
  | .bool => .uchar
  | .u64 | .utf8 => .uint

/-- What a parameter is for: columns by slot, outputs by spec and output number. -/
inductive ParamRole where
  | rowToGroup
  | nRows
  | nGroups
  | value (slot : ℕ)
  | validity (slot : ℕ)
  | output (a j : ℕ)
deriving DecidableEq, Repr

structure KernelParam where
  role : ParamRole
  elem : MslType
  buffer : ℕ
deriving DecidableEq, Repr

def KernelParam.text (p : KernelParam) : String :=
  let binding := "[[buffer(" ++ p.buffer.repr ++ ")]],\n"
  match p.role with
  | .rowToGroup => "  device const " ++ p.elem.text ++ "*  row_to_group " ++ binding
  | .nRows => "  device const " ++ p.elem.text ++ "*  n_rows       " ++ binding
  | .nGroups => "  device const " ++ p.elem.text ++ "*  n_groups     " ++ binding
  | .value i => "  device const " ++ p.elem.text ++ "*  value_" ++ i.repr ++ "    " ++ binding
  | .validity i => "  device const " ++ p.elem.text ++ "* validity_" ++ i.repr ++ " " ++ binding
  | .output a j =>
    "  device " ++ p.elem.text ++ "*  out_" ++ a.repr ++ "_" ++ j.repr ++ "     " ++ binding

/-- A parameter is printed with its own buffer slot. -/
theorem KernelParam.text_slot (p : KernelParam) :
    ∃ declaration, p.text = declaration ++ ("[[buffer(" ++ p.buffer.repr ++ ")]],\n") := by
  obtain ⟨role, elem, buffer⟩ := p
  cases role <;> exact ⟨_, rfl⟩

def isMean : AggSpec → Bool
  | .simple _ op _ | .expression _ op _ => op == .mean
  | .length _ => false

/-- The output slots of each spec from `slot` on: two for a mean, else one. -/
def outputSlots (slot : ℕ) : List AggSpec → List (List ℕ)
  | [] => []
  | spec :: specs =>
    let outs := if isMean spec then [slot, slot + 1] else [slot]
    outs :: outputSlots (slot + outs.length) specs

def outputParams (kinds : List (List ReduceKind)) (slots : List (List ℕ)) : List KernelParam :=
  slots.zipIdx.flatMap (fun (outs, a) => outs.zipIdx.map (fun (slot, j) =>
    ⟨.output a j, ((kinds.getD a []).getD j .counter).atomicPtr, slot⟩))

def kernelParams (sig : AggSignature) (specs : List AggSpec) : List KernelParam :=
  let nCols := sig.columnDtypes.length
  [⟨.rowToGroup, .uint, 0⟩, ⟨.nRows, .uint, 1⟩, ⟨.nGroups, .uint, 2⟩] ++
    sig.columnDtypes.zipIdx.map (fun (dt, i) => ⟨.value i, mslValueLoadType dt, 3 + i⟩) ++
    (List.range nCols).map (fun i => ⟨.validity i, .uchar, 3 + nCols + i⟩) ++
    outputParams (buildAggSlots specs sig) (outputSlots (3 + nCols + nCols) specs)

/-! Expressions. -/

def f64IsNan (bits : BitVec 64) : Bool :=
  bits.extractLsb' 52 11 == 0x7FF && bits.extractLsb' 0 52 != 0

def f64IsInfinite (bits : BitVec 64) : Bool :=
  bits.extractLsb' 52 11 == 0x7FF && bits.extractLsb' 0 52 == 0

def BinaryOp.text : BinaryOp → String
  | .add => "+"
  | .sub => "-"
  | .mul => "*"
  | .div => "/"

def literalF64Text (fmtF64 : BitVec 64 → String) (bits : BitVec 64) : String :=
  if f64IsNan bits then "(float)NAN"
  else if f64IsInfinite bits then
    if bits.msb then "-(float)INFINITY" else "(float)INFINITY"
  else fmtF64 bits ++ "f"

/-- A column's position, or slot 0. -/
def colSlot (colOrder : List String) (name : String) : ℕ :=
  if name ∈ colOrder then colOrder.idxOf name else 0

def emitExprMsl (fmtF64 : BitVec 64 → String) (colOrder : List String) : AggExpr → String
  | .column name => "(float)val_" ++ (colSlot colOrder name).repr
  | .literalF64 bits => literalF64Text fmtF64 bits
  | .literalI64 v => "(float)" ++ toString v.toInt
  | .binary op lhs rhs =>
    "(" ++ emitExprMsl fmtF64 colOrder lhs ++ " " ++ op.text ++ " " ++
      emitExprMsl fmtF64 colOrder rhs ++ ")"

def validityText (slots : List ℕ) : String :=
  if slots.isEmpty then "1u"
  else String.intercalate " & " (slots.map (fun slot => "val_" ++ slot.repr ++ "_valid"))

def emitExprValidityCheck (expr : AggExpr) (colOrder : List String) : String :=
  validityText (expr.referencedColumns.map (colSlot colOrder))

/-! Row updates. -/

def castText : MetalDtype → String
  | .f32 | .f64 => "(float)"
  | .i32 | .i16 | .i8 | .i64 => "(int)"
  | _ => "(uint)"

/-- `acc_<a>_<j>[g]` -/
def accText (a j : ℕ) : String := "acc_" ++ a.repr ++ "_" ++ j.repr ++ "[g]"

def simpleRowUpdate (colIdx : ℕ) (dt : MetalDtype) (op : AggOp) (a : ℕ) : String :=
  let c := colIdx.repr
  let guard := "    if (val_" ++ c ++ "_valid) "
  let value := castText dt ++ "val_" ++ c
  match op with
  | .count => guard ++ accText a 0 ++ " += 1u;\n"
  | .len => "    " ++ accText a 0 ++ " += 1u;\n"
  | .sum => guard ++ accText a 0 ++ " += " ++ value ++ ";\n"
  | .min => guard ++ accText a 0 ++ " = min(" ++ accText a 0 ++ ", " ++ value ++ ");\n"
  | .max => guard ++ accText a 0 ++ " = max(" ++ accText a 0 ++ ", " ++ value ++ ");\n"
  | .mean =>
    guard ++ "\x7b\n" ++ "      " ++ accText a 0 ++ " += " ++ value ++ ";\n" ++
      "      " ++ accText a 1 ++ " += 1u;\n" ++ "    \x7d\n"

def expressionRowUpdate (guard value : String) (op : AggOp) (a : ℕ) : String :=
  let body := fun (text : String) =>
    "    if (" ++ guard ++ ") \x7b float ex = (float)(" ++ value ++ "); " ++ text ++ " \x7d\n"
  match op with
  | .count => "    if (" ++ guard ++ ") " ++ accText a 0 ++ " += 1u;\n"
  | .len => "    " ++ accText a 0 ++ " += 1u;\n"
  | .sum => body (accText a 0 ++ " += ex;")
  | .min => body (accText a 0 ++ " = min(" ++ accText a 0 ++ ", ex);")
  | .max => body (accText a 0 ++ " = max(" ++ accText a 0 ++ ", ex);")
  | .mean => body (accText a 0 ++ " += ex; " ++ accText a 1 ++ " += 1u;")

def emitAggRowUpdate (fmtF64 : BitVec 64 → String) (sig : AggSignature) (spec : AggSpec) (a : ℕ) :
    String :=
  match spec with
  | .simple inputCol op _ =>
    if inputCol ∈ sig.columnOrder then
      let colIdx := sig.columnOrder.idxOf inputCol
      simpleRowUpdate colIdx (sig.columnDtypes.getD colIdx .f32) op a
    else ""
  | .expression expr op _ =>
    expressionRowUpdate (emitExprValidityCheck expr sig.columnOrder)
      (emitExprMsl fmtF64 sig.columnOrder expr) op a
  | .length _ => ""

def lengthRowUpdate (spec : AggSpec) (a : ℕ) : String :=
  match spec with
  | .length _ => "    " ++ accText a 0 ++ " += 1u;\n"
  | _ => ""

/-! The flush. -/

/-- The compare-exchange loop of a float slot; `stop` leaves it early. -/
def casLoop (out skip stop next : String) : String :=
  "      if (" ++ skip ++ ") \x7b\n" ++
  "        uint old_bits = atomic_load_explicit(&" ++ out ++ ", memory_order_relaxed);\n" ++
  "        while (true) \x7b\n" ++
  "          float cur = as_type<float>(old_bits);\n" ++ stop ++
  "          uint next_bits = as_type<uint>(" ++ next ++ ");\n" ++
  "          if (atomic_compare_exchange_weak_explicit(&" ++ out ++ ", &old_bits, next_bits, " ++
  "memory_order_relaxed, memory_order_relaxed)) break;\n" ++
  "        \x7d\n" ++ "      \x7d\n"

def fetchUpdate (out total operation identity : String) : String :=
  "      if (" ++ total ++ " != " ++ identity ++ ") \x7b\n" ++
  "        " ++ operation ++ "(&" ++ out ++ ", " ++ total ++ ", memory_order_relaxed);\n" ++
  "      \x7d\n"

def emitFinalFlush (a j : ℕ) (kind : ReduceKind) : String :=
  let aj := a.repr ++ "_" ++ j.repr
  let total := "total_" ++ aj
  let part := "tg_part_" ++ aj ++ "[s * MAX_GROUPS + gi]"
  let out := "out_" ++ aj ++ "[gi]"
  let combine := match kind with
    | .f32Sum | .i32Sum | .u32Sum | .counter => "        " ++ total ++ " += " ++ part ++ ";\n"
    | .f32Min | .i32Min | .u32Min =>
      "        " ++ total ++ " = min(" ++ total ++ ", " ++ part ++ ");\n"
    | .f32Max | .i32Max | .u32Max =>
      "        " ++ total ++ " = max(" ++ total ++ ", " ++ part ++ ");\n"
  let flush := match kind with
    | .f32Sum => casLoop out (total ++ " != 0.0f") "" ("cur + " ++ total)
    | .f32Min =>
      casLoop out ("!(isinf(" ++ total ++ ") && " ++ total ++ " > 0.0f)")
        ("          if (!(" ++ total ++ " < cur)) break;\n") total
    | .f32Max =>
      casLoop out ("!(isinf(" ++ total ++ ") && " ++ total ++ " < 0.0f)")
        ("          if (!(" ++ total ++ " > cur)) break;\n") total
    | .i32Sum | .u32Sum | .counter => fetchUpdate out total "atomic_fetch_add_explicit" "0"
    | .i32Min => fetchUpdate out total "atomic_fetch_min_explicit" "INT_MAX"
    | .i32Max => fetchUpdate out total "atomic_fetch_max_explicit" "INT_MIN"
    | .u32Min => fetchUpdate out total "atomic_fetch_min_explicit" "UINT_MAX"
    | .u32Max => fetchUpdate out total "atomic_fetch_max_explicit" "0u"
  "      " ++ kind.cppScalar ++ " " ++ total ++ " = " ++ kind.identityText ++ ";\n" ++
  "      for (uint s = 0u; s < n_simdgroups; ++s) \x7b\n" ++ combine ++ "      \x7d\n" ++ flush

/-! The kernel. -/

/-- The loop over the reduction slots, by spec and output number. -/
def forSlots (kinds : List (List ReduceKind)) (text : ℕ → ℕ → ReduceKind → String) : String :=
  String.join (kinds.zipIdx.flatMap (fun (slots, a) =>
    slots.zipIdx.map (fun (kind, j) => text a j kind)))

def forSpecs (specs : List AggSpec) (text : AggSpec → ℕ → String) : String :=
  String.join (specs.zipIdx.map (fun (spec, a) => text spec a))

def accDeclaration (a j : ℕ) (kind : ReduceKind) : String :=
  let acc := "acc_" ++ a.repr ++ "_" ++ j.repr
  "  " ++ kind.cppScalar ++ " " ++ acc ++ "[MAX_GROUPS];\n" ++
  "  for (uint i = 0u; i < MAX_GROUPS; ++i) \x7b " ++ acc ++ "[i] = " ++ kind.identityText ++
    "; \x7d\n"

def columnLoad (col : ℕ) : String :=
  let c := col.repr
  "    uchar val_" ++ c ++ "_valid = (validity_" ++ c ++ "[row >> 3] >> (row & 7)) & 1u;\n" ++
  "    auto val_" ++ c ++ " = value_" ++ c ++ "[row];\n"

def partDeclaration (a j : ℕ) (kind : ReduceKind) : String :=
  "  threadgroup " ++ kind.cppScalar ++ " tg_part_" ++ a.repr ++ "_" ++ j.repr ++
    "[MAX_SIMDS_PER_TG * MAX_GROUPS];\n"

def simdStage (a j : ℕ) (kind : ReduceKind) : String :=
  let aj := a.repr ++ "_" ++ j.repr
  "    " ++ kind.cppScalar ++ " sgv_" ++ aj ++ " = " ++
    kind.simdReduceCall ("acc_" ++ aj ++ "[gi]") ++ ";\n" ++
  "    if (lane == 0u) tg_part_" ++ aj ++ "[sg_index * MAX_GROUPS + gi] = sgv_" ++ aj ++ ";\n"

def kernelHeader : String :=
  "#include <metal_stdlib>\n" ++
  "#include <metal_atomic>\n" ++
  "#include <metal_simdgroup>\n" ++
  "using namespace metal;\n\n" ++
  "#define MAX_GROUPS " ++ maxGroups.repr ++ "u\n" ++
  "#define MAX_SIMDS_PER_TG 8u\n\n" ++
  "kernel void aggregate_fused(\n"

/-- The thread attributes and the body, around the column loads and row updates. -/
def kernelBody (kinds : List (List ReduceKind)) (nCols : ℕ) (rowUpdates lengthUpdates : String) :
    String :=
  "  uint gid              [[thread_position_in_grid]],\n" ++
  "  uint grid_size        [[threads_per_grid]],\n" ++
  "  uint tid_in_tg        [[thread_index_in_threadgroup]],\n" ++
  "  uint sg_index         [[simdgroup_index_in_threadgroup]],\n" ++
  "  uint lane             [[thread_index_in_simdgroup]],\n" ++
  "  uint n_simdgroups     [[simdgroups_per_threadgroup]])\n\x7b\n" ++
  "  uint nr = n_rows[0];\n" ++
  "  uint ng = n_groups[0];\n\n" ++
  forSlots kinds accDeclaration ++ "\n" ++
  "  for (uint row = gid; row < nr; row += grid_size) \x7b\n" ++
  "    uint g = row_to_group[row];\n" ++
  "    if (g >= ng) continue;\n\n" ++
  String.join ((List.range nCols).map columnLoad) ++ "\n" ++
  rowUpdates ++ lengthUpdates ++
  "  \x7d\n\n" ++ "\n" ++
  forSlots kinds partDeclaration ++ "\n" ++
  "  for (uint gi = 0u; gi < MAX_GROUPS; ++gi) \x7b\n" ++
  "    if (gi >= ng) break;\n" ++
  forSlots kinds simdStage ++
  "  \x7d\n" ++
  "  threadgroup_barrier(mem_flags::mem_threadgroup);\n\n" ++
  "  if (tid_in_tg == 0u) \x7b\n" ++
  "    for (uint gi = 0u; gi < MAX_GROUPS; ++gi) \x7b\n" ++
  "      if (gi >= ng) break;\n" ++
  forSlots kinds emitFinalFlush ++
  "    \x7d\n" ++ "  \x7d\n" ++ "\x7d\n"

def emitMsl (fmtF64 : BitVec 64 → String) (sig : AggSignature) (specs : List AggSpec) : String :=
  kernelHeader ++ String.join ((kernelParams sig specs).map KernelParam.text) ++
    kernelBody (buildAggSlots specs sig) sig.columnOrder.length
      (forSpecs specs (emitAggRowUpdate fmtF64 sig)) (forSpecs specs lengthRowUpdate)

end PolarsMetal.GroupBy
