/-
  NomosRt.Modulator.Graph

  `graph_modulator`: the control graph, its parser and its evaluator.

  `parse_node` flattens an EDN expression into an array of nodes that refer to
  each other by index, -1 meaning nothing; `eval_node` runs one node on the
  values computed so far; `tick` is one forward pass.  `values_` is kept from
  tick to tick, so an index to a later node would read the previous tick.

  A null engine has no recorded outputs.  Only `args[0]` of a node is ever used
  and missing entries of `inputs` are -1.
-/

import NomosRt.Edn
import NomosRt.Lib.CFloat

namespace NomosRt.Modulator

open NomosRt.Lib CFloat

/-- `modulator_output`. -/
structure ModulatorOutput (F : Type*) where
  cv : F
  aux : F
  gate : Bool
  gate2 : Bool
  state : BitVec 32
  outputs : List F
  deriving DecidableEq, Repr

/-- `kMaxOutputs`. -/
def kMaxOutputs : Nat := 16

/-- The value-initialised output. -/
def ModulatorOutput.zero {F : Type*} [CFloat F] : ModulatorOutput F :=
  ⟨lit 0, lit 0, false, false, 0, List.replicate kMaxOutputs (lit 0)⟩

/-- `cg_node::kind`. -/
inductive CgKind where
  | constVal | paramRef | modRef | beatIn | beatPhase | phasor | sin | cos | tri | saw
  | square | scale | clamp | add | mul | neg | absVal | mix | slew | sampleHold | threshold
  | comparator
  deriving DecidableEq, Repr

/-- `cg_node`. -/
structure CgNode (F : Type*) where
  type : CgKind
  inputs : List Int
  arg : F
  paramKey : String
  state : F × F
  deriving DecidableEq, Repr

/-- `control_graph`. -/
structure ControlGraph (F : Type*) where
  nodes : List (CgNode F)
  params : String → Option F
  outCv : Int
  outAux : Int
  outGate : Int
  outGate2 : Int

section Parser

variable {D F : Type*} [CFloat F] [CNarrow D F]

/-! ## The parser -/

/-- What `parse_node` does to the node array for one value: the index it returns
    and the array after it. -/
abbrev NodeParser (F : Type*) := List (CgNode F) → Int × List (CgNode F)

/-- A `const_val` node. -/
def constNode (x : F) : CgNode F := ⟨.constVal, [], x, "", (lit 0, lit 0)⟩

/-- `g.nodes.push_back(n)` and the index of `n`. -/
def pushNode (g : List (CgNode F)) (n : CgNode F) : Int × List (CgNode F) :=
  (g.length, g ++ [n])

/-- `child(i)`; `kids` parses the items behind the operator. -/
def child (kids : List (NodeParser F)) (i : Nat) : NodeParser F := fun g =>
  match kids[i]? with
  | some kid => kid g
  | none => (-1, g)

/-- `child_or_const(i, dflt)`. -/
def childOrConst (kids : List (NodeParser F)) (i : Nat) (dflt : ℚ) : NodeParser F := fun g =>
  match kids[i]? with
  | some kid => kid g
  | none => pushNode g (constNode (lit dflt))

/-- An operator: the node it makes and, for each input in turn, `none` for
    `child` and the default for `child_or_const`. -/
structure OpShape (F : Type*) where
  type : CgKind
  arg : F
  paramKey : String
  operands : List (Option ℚ)

/-- An operator that only has inputs. -/
def OpShape.plain (type : CgKind) (operands : List (Option ℚ)) : OpShape F :=
  ⟨type, lit 0, "", operands⟩

/-- `items[i]` as a keyword. -/
def keywordAt (items : List (Edn D)) (i : Nat) : Option String :=
  match items[i]? with
  | some (.keyword name) => some name
  | _ => none

/-- `args[0]` of a `:const`: an integer reads 0. -/
def constArg : List (Edn D) → F
  | _ :: .double x :: _ => CNarrow.narrow x
  | _ => lit 0

/-- `args[0]` of a `:mod-out`: the output field by number. -/
def fieldArg (items : List (Edn D)) : Nat :=
  match keywordAt items 2 with
  | some "aux" => 1
  | some "gate" => 2
  | some "gate2" => 3
  | _ => 0

/-- The branches of `parse_node` on the operator's name; `none` is an unknown
    one. -/
def opShape (op : String) (items : List (Edn D)) : Option (OpShape F) :=
  match op with
  | "const" => some ⟨.constVal, constArg items, "", []⟩
  | "param" => some ⟨.paramRef, lit 0, (keywordAt items 1).getD "", []⟩
  | "mod-out" => some ⟨.modRef, lit (fieldArg items), (keywordAt items 1).getD "", []⟩
  | "beat" => some (.plain .beatIn [])
  | "beat-phase" => some (.plain .beatPhase [some 1])
  | "phasor" => some (.plain .phasor [some 1])
  | "sin" => some (.plain .sin [none])
  | "cos" => some (.plain .cos [none])
  | "tri" => some (.plain .tri [none])
  | "saw" => some (.plain .saw [none])
  | "square" => some (.plain .square [none, some (1 / 2)])
  | "scale" => some (.plain .scale [none, some 0, some 1])
  | "clamp" => some (.plain .clamp [none, some 0, some 1])
  | "add" => some (.plain .add [none, none])
  | "mul" => some (.plain .mul [none, none])
  | "neg" => some (.plain .neg [none])
  | "abs" => some (.plain .absVal [none])
  | "mix" => some (.plain .mix [none, none, some (1 / 2)])
  | "slew" => some (.plain .slew [none, some (1 / 100), some (1 / 100)])
  | "sample-hold" => some (.plain .sampleHold [none, none])
  | "threshold" => some (.plain .threshold [none, some (1 / 2)])
  | "comparator" => some (.plain .comparator [none, none])
  | _ => none

/-- The inputs of an operator, parsed in order from input `i` on. -/
def parseOperands (kids : List (NodeParser F)) :
    Nat → List (Option ℚ) → List (CgNode F) → List Int × List (CgNode F)
  | _, [], g => ([], g)
  | i, none :: specs, g =>
      let (idx, g₁) := child kids i g
      let (rest, g₂) := parseOperands kids (i + 1) specs g₁
      (idx :: rest, g₂)
  | i, some dflt :: specs, g =>
      let (idx, g₁) := childOrConst kids i dflt g
      let (rest, g₂) := parseOperands kids (i + 1) specs g₁
      (idx :: rest, g₂)

/-- The node of an operator, with its inputs and state. -/
def OpShape.node (sh : OpShape F) (inputs : List Int) (state : F × F) : CgNode F :=
  ⟨sh.type, inputs, sh.arg, sh.paramKey, state⟩

/-- `parse_node` on a vector. -/
def parseVector (items : List (Edn D)) (kids : List (NodeParser F)) : NodeParser F := fun g =>
  match items with
  | .keyword op :: _ =>
      match opShape op items with
      | none => (-1, g)
      | some sh =>
          let (inputs, g₁) := parseOperands kids 0 sh.operands g
          pushNode g₁ (sh.node inputs (lit 0, lit 0))
  | _ => (-1, g)

mutual

/-- `parse_node`. -/
def parseNode : Edn D → NodeParser F
  | .double x => fun g => pushNode g (constNode (CNarrow.narrow x))
  | .int n => fun g => pushNode g (constNode (CFloat.ofInt n))
  | .vector items => parseVector items (parseNodes items).tail
  | _ => fun g => (-1, g)

/-- `parse_node` for each item. -/
def parseNodes : List (Edn D) → List (NodeParser F)
  | [] => []
  | v :: vs => parseNode v :: parseNodes vs

end

/-- The `parse_out` of `parse_control_graph`. -/
def parseOut (v : Option (Edn D)) : NodeParser F := fun g =>
  match v with
  | some v => parseNode v g
  | none => (-1, g)

/-- The four output expressions of a graph value, in parsing order. -/
def outputExprs : Edn D → Option (Edn D) × Option (Edn D) × Option (Edn D) × Option (Edn D)
  | .map m => (Edn.findKw "cv" m, Edn.findKw "aux" m, Edn.findKw "gate" m, Edn.findKw "gate2" m)
  | v => (some v, none, none, none)

/-- `parse_control_graph`. -/
def parseControlGraph (v : Edn D) (params : String → Option F) : ControlGraph F :=
  let (cv, aux, gate, gate2) := outputExprs v
  let (outCv, g₁) := parseOut cv []
  let (outAux, g₂) := parseOut aux g₁
  let (outGate, g₃) := parseOut gate g₂
  let (outGate2, g₄) := parseOut gate2 g₃
  ⟨g₄, params, outCv, outAux, outGate, outGate2⟩

end Parser

/-! ## The evaluator -/

section Evaluator

variable {D F : Type*} [CFloat F] [CNarrow D F]

/-- What a node reads besides its inputs. -/
structure TickEnv (D F : Type*) where
  params : String → Option F
  lastOutput : String → Option (ModulatorOutput F)
  beat : D
  dt : F

/-- `kTwoPi`. -/
def kTwoPi : F := lit (6283185307 / 1000000000)

/-- The field of a recorded output that a `mod_ref` selects. -/
def modField (out : ModulatorOutput F) (field : Int) : F :=
  if field = 1 then out.aux
  else if field = 2 then (if out.gate then lit 1 else lit 0)
  else if field = 3 then (if out.gate2 then lit 1 else lit 0)
  else if field ≥ 4 ∧ field < 4 + (kMaxOutputs : Int) then
    out.outputs.getD (field - 4).toNat (lit 0)
  else out.cv

/-- The `switch` of `eval_node`: the value and the node's state after it.  `inp`
    is the lambda `in`. -/
def evalOp (env : TickEnv D F) (n : CgNode F) (inp : Nat → F) : F × (F × F) :=
  match n.type with
  | .constVal => (n.arg, n.state)
  | .paramRef => ((env.params n.paramKey).getD (lit 0), n.state)
  | .modRef =>
      match env.lastOutput n.paramKey with
      | none => (lit 0, n.state)
      | some out => (modField out (toInt n.arg), n.state)
  | .beatIn => (CNarrow.narrow env.beat, n.state)
  | .beatPhase =>
      let period := inp 0
      if le period (lit 0) then (lit 0, n.state)
      else (fmod (CNarrow.narrow env.beat / period) (lit 1), n.state)
  | .phasor =>
      let rate := inp 0
      let ph := n.state.1 + rate * env.dt
      let ph' := if le (lit 1) ph then ph - floor ph else ph
      -- the phase before the increment is the output
      (n.state.1, (ph', n.state.2))
  | .sin => (CFloat.sin (inp 0 * kTwoPi), n.state)
  | .cos => (CFloat.cos (inp 0 * kTwoPi), n.state)
  | .tri =>
      let p := inp 0
      (if lt p (lit (1 / 2)) then lit 4 * p - lit 1 else lit 3 - lit 4 * p, n.state)
  | .saw => (inp 0 * lit 2 - lit 1, n.state)
  | .square => (if lt (inp 0) (inp 1) then lit 1 else -lit 1, n.state)
  | .scale =>
      let v := inp 0
      let lo := inp 1
      let hi := inp 2
      (lo + v * (hi - lo), n.state)
  | .clamp => (CFloat.clamp (inp 0) (inp 1) (inp 2), n.state)
  | .add => (inp 0 + inp 1, n.state)
  | .mul => (inp 0 * inp 1, n.state)
  | .neg => (-inp 0, n.state)
  | .absVal => (CFloat.abs (inp 0), n.state)
  | .mix =>
      let t := CFloat.clamp (inp 2) (lit 0) (lit 1)
      (inp 0 * (lit 1 - t) + inp 1 * t, n.state)
  | .slew =>
      let target := inp 0
      let rise := inp 1
      let fall := inp 2
      let cur := n.state.1
      let cur' :=
        if lt cur target then
          (if lt (lit 0) rise then CFloat.min (cur + env.dt / rise) target else target)
        else
          (if lt (lit 0) fall then CFloat.max (cur - env.dt / fall) target else target)
      (cur', (cur', n.state.2))
  | .sampleHold =>
      let sig := inp 0
      let gate := inp 1
      let held :=
        -- a rising edge of the gate, against the gate of the last tick
        if lt (lit (1 / 2)) gate && le n.state.2 (lit (1 / 2)) then sig else n.state.1
      (held, (held, gate))
  | .threshold => (if lt (inp 1) (inp 0) then lit 1 else lit 0, n.state)
  | .comparator => (if lt (inp 1) (inp 0) then lit 1 else lit 0, n.state)

/-- The value an index refers to; 0 when there is none. -/
def readIndex (vals : List F) (idx : Int) : F :=
  if 0 ≤ idx ∧ idx < vals.length then vals.getD idx.toNat (lit 0) else lit 0

/-- `eval_node`. -/
def evalNode (env : TickEnv D F) (n : CgNode F) (vals : List F) : F × CgNode F :=
  let (x, state) := evalOp env n fun slot => readIndex vals (n.inputs.getD slot (-1))
  (x, { n with state := state })

/-! ## The modulator -/

/-- `graph_modulator`; the engine pointer is the `lastOutput` given to each tick. -/
structure GraphModulator (F : Type*) where
  graph : ControlGraph F
  values : List F

/-- The constructor. -/
def GraphModulator.make (graph : ControlGraph F) : GraphModulator F :=
  ⟨graph, List.replicate graph.nodes.length (lit 0)⟩

/-- `values_.resize(n, 0.0f)`. -/
def resize (values : List F) (n : Nat) : List F :=
  values.take n ++ List.replicate (n - values.length) (lit 0)

/-- Round `i` of the forward pass. -/
def passRound (env : TickEnv D F) (s : List (CgNode F) × List F) (i : Nat) :
    List (CgNode F) × List F :=
  match s.1[i]? with
  | none => s
  | some n =>
      let (x, n') := evalNode env n s.2
      (s.1.set i n', s.2.set i x)

/-- The forward pass of `tick`. -/
def forwardPass (env : TickEnv D F) (nodes : List (CgNode F)) (values : List F) :
    List (CgNode F) × List F :=
  (List.range nodes.length).foldl (passRound env) (nodes, values)

/-- `dt` of a tick. -/
def tickDt (rate : F) : F := if lt (lit 0) rate then lit 1 / rate else lit 0

/-- An output that is left at its default when its index is -1. -/
def outValue (values : List F) (idx : Int) : F :=
  if idx ≥ 0 then values.getD idx.toNat (lit 0) else lit 0

/-- A gate output: above a half. -/
def outGate (values : List F) (idx : Int) : Bool :=
  if idx ≥ 0 then lt (lit (1 / 2)) (values.getD idx.toNat (lit 0)) else false

/-- `graph_modulator::tick`. -/
def GraphModulator.tick (lastOutput : String → Option (ModulatorOutput F)) (beat : D) (rate : F)
    (m : GraphModulator F) : ModulatorOutput F × GraphModulator F :=
  let env : TickEnv D F := ⟨m.graph.params, lastOutput, beat, tickDt rate⟩
  let (nodes, values) :=
    forwardPass env m.graph.nodes (resize m.values m.graph.nodes.length)
  ({ ModulatorOutput.zero with
      cv := outValue values m.graph.outCv
      aux := outValue values m.graph.outAux
      gate := outGate values m.graph.outGate
      gate2 := outGate values m.graph.outGate2 },
    ⟨{ m.graph with nodes := nodes }, values⟩)

/-- `graph_modulator::update`. -/
def GraphModulator.update (key : String) (value : F) (m : GraphModulator F) : GraphModulator F :=
  { m with graph := { m.graph with params := Function.update m.graph.params key (some value) } }

end Evaluator

end NomosRt.Modulator
