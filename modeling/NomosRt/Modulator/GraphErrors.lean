/-
  NomosRt.Modulator.GraphErrors

  What `parse_control_graph` makes of an expression with an error in it.

  `parse_node` answers -1 for what is not an expression and for an absent operand
  alike, and an operator stores the -1 as an input and is pushed all the same.  So
  an error below the root leaves a graph whose node reads 0 for the bad operand,
  and only an expression that is wrong at its root leaves no nodes.
-/

import NomosRt.Modulator.GraphCorrect
import NomosRt.Modulator.Residue

namespace NomosRt.Modulator

open NomosRt.Lib CFloat

/-! ## Errors -/

section Errors

variable {D : Type*} (F : Type*) [CFloat F] [CNarrow D F]

/-- A numeric literal or a vector headed by a known operator. -/
def IsExpr : Edn D → Prop
  | .double _ => True
  | .int _ => True
  | .vector (.keyword op :: items) =>
      (opShape (F := F) op (.keyword op :: items)).isSome
  | _ => False

/-- Some operand at some depth, or the value itself, is not an expression.  The
    operands of an operator are the items it parses. -/
inductive HasError : Edn D → Prop where
  | root {v : Edn D} : ¬ IsExpr F v → HasError v
  | operand {op : String} {items : List (Edn D)} {sh : OpShape F} {i : Nat} {w : Edn D} :
      opShape op (.keyword op :: items) = some sh → i < sh.operands.length →
      items[i]? = some w → HasError w → HasError (.vector (.keyword op :: items))

/-- The root expressions of a graph value: itself, or the outputs a map gives. -/
def graphRoots (v : Edn D) : List (Edn D) := (outputList v).filterMap id

/-- The graph value has an error in one of its roots. -/
def GraphError (v : Edn D) : Prop := ∃ w ∈ graphRoots v, HasError F w

/-- The four outputs of a silent tick. -/
def silentOutputs : RefOutput F := ⟨lit 0, lit 0, false, false⟩

/-- The parsed graph has no nodes, and its modulator is silent on every tick of every
    sequence of calls. -/
def SilentGraph (v : Edn D) : Prop :=
  ∀ params : String → Option F, (parseControlGraph v params).nodes = [] ∧
    ∀ calls : List (GraphCall D F),
      ∀ out ∈ (GraphModulator.make (parseControlGraph v params)).run calls,
        out.graphOutputs = silentOutputs F

end Errors

/-! ## Graphs without nodes -/

section Silence

variable {D F : Type*} [CFloat F] [CNarrow D F]

/-- The code of a value is empty exactly when the value is not an expression: an
    operator is pushed whatever its operands are. -/
theorem code_eq_nil_iff (v : Edn D) (base : Nat) (σ : Cell F) :
    (code v base σ).2 = [] ↔ ¬ IsExpr F v := by
  cases v with
  | double x => simp [code, Code.const, IsExpr]
  | int n => simp [code, Code.const, IsExpr]
  | vector items =>
      rw [code]
      unfold codeVector
      split
      · next op rest =>
        rw [IsExpr]
        cases opShape (F := F) op (.keyword op :: rest) with
        | none => simp [Code.empty]
        | some sh => simp [OpShape.code]
      · next hop =>
        -- no keyword in front: no branch of `parse_node` applies
        have hno : ¬ IsExpr F (.vector items) := by
          intro h
          unfold IsExpr at h
          split at h
          · next heq => exact absurd heq (by simp)
          · next heq => exact absurd heq (by simp)
          · next op rest heq => exact hop op rest (Edn.vector.inj heq)
          · exact h
        simp [Code.empty, hno]
  | _ => simp [code, Code.empty, IsExpr]

theorem codeOut_eq_nil_iff (x : Option (Edn D)) (base : Nat) (σ : Cell F) :
    (codeOut x base σ).2 = [] ↔ ∀ w, x = some w → ¬ IsExpr F w := by
  cases x with
  | none => simp [codeOut, Code.empty]
  | some w =>
      rw [codeOut, code_eq_nil_iff]
      simp

/-- A graph has no nodes exactly when none of its roots is an expression. -/
theorem outputCode_eq_nil_iff (v : Edn D) (σ : Cell F) :
    (outputCode v σ).2 = [] ↔ ∀ w ∈ graphRoots v, ¬ IsExpr F w := by
  have hroots : (∀ w ∈ graphRoots v, ¬ IsExpr F w) ↔
      ∀ x ∈ outputList v, ∀ w, x = some w → ¬ IsExpr F w := by
    simp only [graphRoots, List.mem_filterMap, id]
    exact ⟨fun h x hx w hw => h w ⟨x, hx, hw⟩, fun h w ⟨x, hx, hw⟩ => h x hx w hw⟩
  rw [hroots]
  rcases hexprs : outputExprs v with ⟨cv, aux, gate, gate2⟩
  have hlist : outputList v = [cv, aux, gate, gate2] := by
    rw [outputList, hexprs]
  rw [hlist]
  simp only [outputCode, hlist, outputSpecs, codeOperands, codeOperand, List.map_cons, List.map_nil,
    List.getElem?_cons_zero, List.getElem?_cons_succ, List.append_eq_nil_iff, codeOut_eq_nil_iff,
    and_true, List.forall_mem_cons, List.not_mem_nil, IsEmpty.forall_iff, implies_true]

theorem parseControlGraph_nodes_nil_iff (v : Edn D) (params : String → Option F) :
    (parseControlGraph v params).nodes = [] ↔ ∀ w ∈ graphRoots v, ¬ IsExpr F w := by
  rw [parseControlGraph_eq]
  exact outputCode_eq_nil_iff v Cell.zero

/-- A modulator without nodes whose outputs refer to nothing. -/
structure NoNodes (m : GraphModulator F) : Prop where
  nodes : m.graph.nodes = []
  outCv : m.graph.outCv = -1
  outAux : m.graph.outAux = -1
  outGate : m.graph.outGate = -1
  outGate2 : m.graph.outGate2 = -1

theorem NoNodes.tick {m : GraphModulator F} (h : NoNodes m)
    (lastOutput : String → Option (ModulatorOutput F)) (beat : D) (rate : F) :
    (m.tick lastOutput beat rate).1.graphOutputs = silentOutputs F ∧
      NoNodes (m.tick lastOutput beat rate).2 := by
  obtain ⟨hnodes, hcv, haux, hgate, hgate2⟩ := h
  refine ⟨?_, ?_, hcv, haux, hgate, hgate2⟩
  · simp only [GraphModulator.tick, ModulatorOutput.graphOutputs, hcv, haux, hgate, hgate2]
    rfl
  · simp only [GraphModulator.tick, hnodes]
    rfl

omit [CFloat F] in
theorem NoNodes.update {m : GraphModulator F} (h : NoNodes m) (key : String) (value : F) :
    NoNodes (m.update key value) :=
  ⟨h.nodes, h.outCv, h.outAux, h.outGate, h.outGate2⟩

/-- Silence lasts. -/
theorem NoNodes.run {m : GraphModulator F} (h : NoNodes m) (calls : List (GraphCall D F)) :
    ∀ out ∈ m.run calls, out.graphOutputs = silentOutputs F := by
  induction calls generalizing m with
  | nil =>
      intro out hout
      simp [GraphModulator.run] at hout
  | cons call calls ih =>
      cases call with
      | tick lastOutput beat rate =>
          obtain ⟨hsilent, hnext⟩ := h.tick lastOutput beat rate
          intro out hout
          rw [GraphModulator.run, List.mem_cons] at hout
          rcases hout with rfl | hlater
          · exact hsilent
          · exact ih hnext out hlater
      | update key value => exact ih (h.update key value)

/-- Without nodes no output index refers to one. -/
theorem noNodes_make {v : Edn D} (params : String → Option F)
    (h : ∀ w ∈ graphRoots v, ¬ IsExpr F w) :
    NoNodes (GraphModulator.make (parseControlGraph v params)) := by
  rw [parseControlGraph_eq]
  have hnil := (outputCode_eq_nil_iff v (Cell.zero (F := F))).mpr h
  have hnone : ∀ j, (outputCode v (Cell.zero (F := F))).1.getD j (-1) = -1 := by
    intro j
    have hrefers := outputCode_refers v (Cell.zero (F := F)) j
    rw [hnil, List.length_nil] at hrefers
    rcases hrefers with hidx | ⟨hle, hlt⟩
    · exact hidx
    · omega
  exact ⟨hnil, hnone 0, hnone 1, hnone 2, hnone 3⟩

/-- A graph expression with an error is silent exactly when none of its roots is an
    expression: an error further down leaves nodes. -/
theorem graph_error_silent_iff (v : Edn D) (_ : GraphError F v) :
    SilentGraph F v ↔ ∀ w ∈ graphRoots v, ¬ IsExpr F w := by
  constructor
  · intro hsilent
    exact (parseControlGraph_nodes_nil_iff v fun _ => none).mp (hsilent fun _ => none).1
  · intro hroots params
    refine ⟨(parseControlGraph_nodes_nil_iff v params).mpr hroots, fun calls => ?_⟩
    exact (noNodes_make params hroots).run calls

end Silence

/-! ## An error that is heard -/

section Heard

attribute [local instance] exactFloat exactNarrow

/-- `[:no-such-op 1.0]`, wrong at its root. -/
def unknownOp : Edn ℚ := .vector [.keyword "no-such-op", .double 1]

theorem unknownOp_not_isExpr : ¬ IsExpr ℚ unknownOp := by
  have hshape : opShape (F := ℚ) "no-such-op" [.keyword "no-such-op", .double (1 : ℚ)] = none := rfl
  rw [unknownOp, IsExpr, hshape]
  simp

/-- The unknown operator on its own is silent. -/
theorem unknownOp_silent : GraphError ℚ unknownOp ∧ SilentGraph ℚ unknownOp := by
  have herr : GraphError ℚ unknownOp :=
    ⟨unknownOp, by simp [graphRoots, outputList, outputExprs, unknownOp],
      .root unknownOp_not_isExpr⟩
  refine ⟨herr, (graph_error_silent_iff unknownOp herr).mpr ?_⟩
  intro w hw
  have : w = unknownOp := by
    simpa [graphRoots, outputList, outputExprs, unknownOp] using hw
  rw [this]
  exact unknownOp_not_isExpr

/-- The items of `[:add 1.0 [:no-such-op 1.0]]`. -/
def halfBadSumItems : List (Edn ℚ) := [.keyword "add", .double 1, unknownOp]

/-- `[:add 1.0 [:no-such-op 1.0]]`. -/
def halfBadSum : Edn ℚ := .vector halfBadSumItems

/-- Under a sum the unknown operator reads 0 and the sum is heard: two nodes, and a
    cv of 1. -/
theorem halfBadSum_heard :
    GraphError ℚ halfBadSum ∧ ¬ SilentGraph ℚ halfBadSum ∧
      (exactGraph halfBadSum).graph.nodes.length = 2 ∧
      ((exactGraph halfBadSum).run [.tick (fun _ => none) (0 : ℚ) 24]).map (·.cv) = [1] := by
  have hnodes : (exactGraph halfBadSum).graph.nodes.length = 2 := by decide +kernel
  refine ⟨⟨halfBadSum, ?_, ?_⟩, ?_, hnodes, ?_⟩
  · simp [graphRoots, outputList, outputExprs, halfBadSum]
  · have hshape : opShape (F := ℚ) "add" halfBadSumItems = some (.plain .add [none, none]) := rfl
    exact .operand hshape (show 1 < 2 by omega) rfl (.root unknownOp_not_isExpr)
  · intro hsilent
    have hnil : (exactGraph halfBadSum).graph.nodes = [] := (hsilent fun _ => none).1
    rw [hnil] at hnodes
    exact absurd hnodes (by simp)
  · decide +kernel

end Heard

end NomosRt.Modulator
