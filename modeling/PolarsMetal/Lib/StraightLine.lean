import PolarsMetal.Lib.Fallible

/-! Straight-line programs: a list of instructions run over a growing list of
nodes. An instruction reads earlier nodes by position and appends one node, so
a node keeps its position and its value under every extension of the program. -/

namespace StraightLine
open Fallible

universe u

variable {ε : Type*} {α : Type u} {ι : Type*}

def step (exec : ι → List α → Except ε α) (nodes : List α) (instr : ι) : Except ε (List α) := do
  let v ← exec instr nodes
  return nodes ++ [v]

def run (exec : ι → List α → Except ε α) (inputs : List α) (prog : List ι) : Except ε (List α) :=
  prog.foldlM (step exec) inputs

variable {exec : ι → List α → Except ε α} {inputs : List α}

@[simp] theorem run_nil : run exec inputs [] = .ok inputs := rfl

theorem run_append (p q : List ι) :
    run exec inputs (p ++ q) = run exec inputs p >>= fun nodes => run exec nodes q := by
  rw [run, List.foldlM_append]
  rfl

theorem step_eq_ok {nodes nodes' : List α} {instr : ι} :
    step exec nodes instr = .ok nodes' ↔ ∃ v, exec instr nodes = .ok v ∧ nodes ++ [v] = nodes' := by
  rw [step, bind_eq_ok]
  simp only [pure_eq_ok]

theorem run_eq_ok_append {p q : List ι} {nodes : List α} :
    run exec inputs (p ++ q) = .ok nodes ↔
      ∃ mid, run exec inputs p = .ok mid ∧ run exec mid q = .ok nodes := by
  rw [run_append, bind_eq_ok]

/-- A run only appends, one node an instruction. -/
theorem run_extends {prog : List ι} {nodes : List α} (h : run exec inputs prog = .ok nodes) :
    inputs <+: nodes ∧ nodes.length = inputs.length + prog.length := by
  induction prog using List.reverseRecOn generalizing nodes with
  | nil =>
    obtain rfl : inputs = nodes := Except.ok.inj h
    exact ⟨List.prefix_refl _, rfl⟩
  | append_singleton p instr ih =>
    obtain ⟨mid, hmid, hlast⟩ := run_eq_ok_append.1 h
    obtain ⟨hpre, hlen⟩ := ih hmid
    rw [run, List.foldlM_cons, bind_eq_ok] at hlast
    obtain ⟨nodes', hstep, hnil⟩ := hlast
    obtain rfl : nodes' = nodes := Except.ok.inj hnil
    obtain ⟨v, -, rfl⟩ := step_eq_ok.1 hstep
    refine ⟨hpre.trans (List.prefix_append _ _), ?_⟩
    rw [List.length_append, List.length_append, hlen, List.length_singleton, List.length_singleton,
      Nat.add_assoc]

theorem getElem?_of_extends {xs ys : List α} (h : xs <+: ys) {i : ℕ} {v : α} (hx : xs[i]? = some v) :
    ys[i]? = some v := by
  obtain ⟨rest, rfl⟩ := h
  rw [List.getElem?_append_left (List.getElem?_eq_some_iff.1 hx).1, hx]

/-- The program runs through, and the node at `idx` holds `v`. -/
def NodeAt (exec : ι → List α → Except ε α) (inputs : List α) (prog : List ι) (idx : ℕ) (v : α) :
    Prop :=
  ∃ nodes, run exec inputs prog = .ok nodes ∧ nodes[idx]? = some v

def Runs (exec : ι → List α → Except ε α) (inputs : List α) (prog : List ι) : Prop :=
  ∃ nodes, run exec inputs prog = .ok nodes

theorem NodeAt.runs {prog : List ι} {idx : ℕ} {v : α} (h : NodeAt exec inputs prog idx v) :
    Runs exec inputs prog := by
  obtain ⟨nodes, hrun, -⟩ := h
  exact ⟨nodes, hrun⟩

theorem NodeAt.input {prog : List ι} (hruns : Runs exec inputs prog) {idx : ℕ} {v : α}
    (h : inputs[idx]? = some v) : NodeAt exec inputs prog idx v := by
  obtain ⟨nodes, hrun⟩ := hruns
  exact ⟨nodes, hrun, getElem?_of_extends (run_extends hrun).1 h⟩

theorem NodeAt.extend {p q : List ι} {idx : ℕ} {v : α} (h : NodeAt exec inputs p idx v)
    (hpq : p <+: q) (hruns : Runs exec inputs q) : NodeAt exec inputs q idx v := by
  obtain ⟨mid, hmid, hv⟩ := h
  obtain ⟨rest, rfl⟩ := hpq
  obtain ⟨nodes, hrun⟩ := hruns
  obtain ⟨mid', hmid', hrest⟩ := run_eq_ok_append.1 hrun
  obtain rfl : mid = mid' := Except.ok.inj (hmid.symm.trans hmid')
  exact ⟨nodes, hrun, getElem?_of_extends (run_extends hrest).1 hv⟩

/-- The node a new instruction appends. -/
theorem NodeAt.push {prog : List ι} {nodes : List α} (h : run exec inputs prog = .ok nodes)
    {instr : ι} {v : α} (hv : exec instr nodes = .ok v) :
    NodeAt exec inputs (prog ++ [instr]) (inputs.length + prog.length) v := by
  refine ⟨nodes ++ [v], run_eq_ok_append.2 ⟨nodes, h, ?_⟩, ?_⟩
  · rw [run, List.foldlM_cons]
    exact bind_eq_ok.2 ⟨nodes ++ [v], step_eq_ok.2 ⟨v, hv, rfl⟩, rfl⟩
  · rw [← (run_extends h).2]
    exact List.getElem?_concat_length

end StraightLine
