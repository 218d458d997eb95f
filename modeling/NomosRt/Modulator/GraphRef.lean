/-
  NomosRt.Modulator.GraphRef

  What a control-graph expression means: a direct recursive interpreter.

  The interpreter reads the EDN value itself: it shares with the parser neither the
  table of operators nor the look-up of operands and outputs.  Every occurrence of a
  sub-expression owns its own state.  A `Cell` holds the states of an expression and
  everything below it: the root's at the empty path, operand `i`'s at the paths that
  start with `i`.  A value that is not an expression has no meaning, and reads 0 where
  one is needed.
-/

import NomosRt.Modulator.Graph

namespace NomosRt.Modulator

open NomosRt.Lib CFloat

/-- Two state slots for every position of an expression. -/
abbrev Cell (F : Type*) := List Nat → F × F

/-- The state of a new expression. -/
def Cell.zero {F : Type*} [CFloat F] : Cell F := fun _ => (lit 0, lit 0)

/-- The states of operand `i`. -/
def Cell.sub {F : Type*} (σ : Cell F) (i : Nat) : Cell F := fun p => σ (i :: p)

/-- One evaluation: the value and the state after it. -/
abbrev Meaning (D F : Type*) := TickEnv D F → Cell F → F × Cell F

section Interpreter

variable {D F : Type*} [CFloat F] [CNarrow D F]

/-- What a position reads: 0 when it holds no expression. -/
def Meaning.orZero : Option (Meaning D F) → Meaning D F
  | some m => m
  | none => fun _ σ => (lit 0, σ)

/-- The meaning of an operator: for each operand the default it has when it is
    missing, if any, and its value and new state from the operands' values and
    its old state. -/
structure OpMeaning (D F : Type*) where
  operands : List (Option ℚ)
  apply : TickEnv D F → (Nat → F) → F × F → F × (F × F)

/-- An operator without state. -/
def OpMeaning.pure (operands : List (Option ℚ)) (f : TickEnv D F → (Nat → F) → F) :
    OpMeaning D F :=
  ⟨operands, fun env x st => (f env x, st)⟩

/-- A full turn, in the digits that are given. -/
def fullTurn : F := lit (6283185307 / 1000000000)

/-- The seconds between two ticks; none where there is no rate. -/
def secondsPerTick (rate : F) : F := if lt (lit 0) rate then lit 1 / rate else lit 0

/-- The phase after one step of a phasor. -/
def phasorNext (phase rate dt : F) : F :=
  let next := phase + rate * dt
  if le (lit 1) next then next - floor next else next

/-- A slewed value after one step towards its target. -/
def slewNext (cur target rise fall dt : F) : F :=
  if lt cur target then
    (if lt (lit 0) rise then CFloat.min (cur + dt / rise) target else target)
  else (if lt (lit 0) fall then CFloat.max (cur - dt / fall) target else target)

/-- The output field a keyword names; anything else is the cv. -/
def namedField (out : ModulatorOutput F) : Option String → F
  | some "aux" => out.aux
  | some "gate" => if out.gate then lit 1 else lit 0
  | some "gate2" => if out.gate2 then lit 1 else lit 0
  | _ => out.cv

/-- The parameter or modulator an operator names. -/
def namedBy : List (Edn D) → String
  | _ :: .keyword name :: _ => name
  | _ => ""

/-- The output field an operator names. -/
def namedOutput : List (Edn D) → Option String
  | _ :: _ :: .keyword field :: _ => some field
  | _ => none

/-- The operators. -/
def opMeaning (op : String) (items : List (Edn D)) : Option (OpMeaning D F) :=
  match op with
  | "const" => some (.pure [] fun _ _ => match items with
      | _ :: .double x :: _ => CNarrow.narrow x
      | _ => lit 0)
  | "param" => some (.pure [] fun env _ =>
      (env.params (namedBy items)).getD (lit 0))
  | "mod-out" => some (.pure [] fun env _ =>
      match env.lastOutput (namedBy items) with
      | some out => namedField out (namedOutput items)
      | none => lit 0)
  | "beat" => some (.pure [] fun env _ => CNarrow.narrow env.beat)
  | "beat-phase" => some (.pure [some 1] fun env x =>
      if le (x 0) (lit 0) then lit 0 else fmod (CNarrow.narrow env.beat / x 0) (lit 1))
  | "phasor" => some ⟨[some 1], fun env x st => (st.1, (phasorNext st.1 (x 0) env.dt, st.2))⟩
  | "sin" => some (.pure [none] fun _ x => CFloat.sin (x 0 * fullTurn))
  | "cos" => some (.pure [none] fun _ x => CFloat.cos (x 0 * fullTurn))
  | "tri" => some (.pure [none] fun _ x =>
      if lt (x 0) (lit (1 / 2)) then lit 4 * x 0 - lit 1 else lit 3 - lit 4 * x 0)
  | "saw" => some (.pure [none] fun _ x => x 0 * lit 2 - lit 1)
  | "square" => some (.pure [none, some (1 / 2)] fun _ x =>
      if lt (x 0) (x 1) then lit 1 else -lit 1)
  | "scale" => some (.pure [none, some 0, some 1] fun _ x => x 1 + x 0 * (x 2 - x 1))
  | "clamp" => some (.pure [none, some 0, some 1] fun _ x => CFloat.clamp (x 0) (x 1) (x 2))
  | "add" => some (.pure [none, none] fun _ x => x 0 + x 1)
  | "mul" => some (.pure [none, none] fun _ x => x 0 * x 1)
  | "neg" => some (.pure [none] fun _ x => -x 0)
  | "abs" => some (.pure [none] fun _ x => CFloat.abs (x 0))
  | "mix" => some (.pure [none, none, some (1 / 2)] fun _ x =>
      x 0 * (lit 1 - CFloat.clamp (x 2) (lit 0) (lit 1)) +
        x 1 * CFloat.clamp (x 2) (lit 0) (lit 1))
  | "slew" => some ⟨[none, some (1 / 100), some (1 / 100)], fun env x st =>
      let next := slewNext st.1 (x 0) (x 1) (x 2) env.dt
      (next, (next, st.2))⟩
  | "sample-hold" => some ⟨[none, none], fun _ x st =>
      let held := if lt (lit (1 / 2)) (x 1) && le st.2 (lit (1 / 2)) then x 0 else st.1
      (held, (held, x 1))⟩
  | "threshold" => some (.pure [none, some (1 / 2)] fun _ x =>
      if lt (x 1) (x 0) then lit 1 else lit 0)
  | "comparator" => some (.pure [none, none] fun _ x =>
      if lt (x 1) (x 0) then lit 1 else lit 0)
  | _ => none

/-- Operand `i`: what stands there, else its default, else nothing. -/
def operand (kids : List (Option (Meaning D F))) (i : Nat) (dflt : Option ℚ) :
    Option (Meaning D F) :=
  match kids[i]?, dflt with
  | some kid, _ => kid
  | none, none => none
  | none, some x => some fun _ σ => (lit x, σ)

/-- An operator applied to its operands, each on its own part of the state. -/
def OpMeaning.eval (om : OpMeaning D F) (kids : List (Option (Meaning D F))) : Meaning D F :=
  fun env σ =>
    let sub := fun i dflt => Meaning.orZero (operand kids i dflt) env (σ.sub i)
    let x := fun i => match om.operands[i]? with
      | some dflt => (sub i dflt).1
      | none => lit 0
    let (y, st) := om.apply env x (σ [])
    (y, fun
      | [] => st
      | i :: p => match om.operands[i]? with
        | some dflt => (sub i dflt).2 p
        | none => σ (i :: p))

/-- The meaning of a vector. -/
def interpVector (items : List (Edn D)) (kids : List (Option (Meaning D F))) :
    Option (Meaning D F) :=
  match items with
  | .keyword op :: _ => (opMeaning op items).map fun om => om.eval kids
  | _ => none

mutual

/-- The meaning of a value, if it is an expression. -/
def interp : Edn D → Option (Meaning D F)
  | .double x => some fun _ σ => (CNarrow.narrow x, σ)
  | .int n => some fun _ σ => (CFloat.ofInt n, σ)
  | .vector items => interpVector items (interps items).tail
  | _ => none

def interps : List (Edn D) → List (Option (Meaning D F))
  | [] => []
  | v :: vs => interp v :: interps vs

end

/-! ## Runs -/

/-- The reference modulator: its parameters and the states of its four output
    expressions. -/
structure RefGraph (F : Type*) where
  params : String → Option F
  cell : Cell F

/-- The outputs of a tick. -/
structure RefOutput (F : Type*) where
  cv : F
  aux : F
  gate : Bool
  gate2 : Bool
  deriving DecidableEq, Repr

def isKeyword (name : String) : Edn D → Bool
  | .keyword key => key == name
  | _ => false

/-- The value of the first entry with the key `:name`. -/
def entryUnder (name : String) (entries : List (Edn D × Edn D)) : Option (Edn D) :=
  (entries.find? fun entry => isKeyword name entry.1).map Prod.snd

/-- The expressions of the outputs cv, aux, gate and gate2: a map gives each its own
    entry, and any other value is the expression of cv. -/
def outputRoots : Edn D → List (Option (Edn D))
  | .map entries =>
      [entryUnder "cv" entries, entryUnder "aux" entries, entryUnder "gate" entries,
        entryUnder "gate2" entries]
  | v => [some v, none, none, none]

/-- The meanings of the four output expressions. -/
def outputMeanings (v : Edn D) : List (Option (Meaning D F)) :=
  (outputRoots v).map fun root => root.bind interp

/-- A gate is high when its expression is above a half. -/
def gateOf (m : Option (Meaning D F)) (x : F) : Bool := m.isSome && lt (lit (1 / 2)) x

/-- A tick of the reference: each output expression is evaluated on its own part
    of the state. -/
def RefGraph.tick (v : Edn D) (lastOutput : String → Option (ModulatorOutput F)) (beat : D)
    (rate : F) (r : RefGraph F) : RefOutput F × RefGraph F :=
  let env : TickEnv D F := ⟨r.params, lastOutput, beat, secondsPerTick rate⟩
  let root := fun i => operand (outputMeanings v) i none
  let out := fun i => Meaning.orZero (root i) env (r.cell.sub i)
  (⟨(out 0).1, (out 1).1, gateOf (root 2) (out 2).1, gateOf (root 3) (out 3).1⟩,
    { r with cell := fun
        | [] => r.cell []
        | i :: p => if i < 4 then (out i).2 p else r.cell (i :: p) })

/-- A call on a graph modulator; a tick comes with what `last_output` returns
    during it. -/
inductive GraphCall (D F : Type*) where
  | tick (lastOutput : String → Option (ModulatorOutput F)) (beat : D) (rate : F)
  | update (key : String) (value : F)

/-- The outputs of a sequence of calls on the reference. -/
def RefGraph.run (v : Edn D) (r : RefGraph F) : List (GraphCall D F) → List (RefOutput F)
  | [] => []
  | .tick lastOutput beat rate :: calls =>
      (r.tick v lastOutput beat rate).1 ::
        RefGraph.run v (r.tick v lastOutput beat rate).2 calls
  | .update key value :: calls =>
      RefGraph.run v { r with params := Function.update r.params key (some value) } calls

/-- The outputs of a sequence of calls on the modulator. -/
def GraphModulator.run (m : GraphModulator F) : List (GraphCall D F) → List (ModulatorOutput F)
  | [] => []
  | .tick lastOutput beat rate :: calls =>
      (m.tick lastOutput beat rate).1 :: GraphModulator.run (m.tick lastOutput beat rate).2 calls
  | .update key value :: calls => GraphModulator.run (m.update key value) calls

/-- The four outputs a graph sets. -/
def ModulatorOutput.graphOutputs (o : ModulatorOutput F) : RefOutput F :=
  ⟨o.cv, o.aux, o.gate, o.gate2⟩

end Interpreter

end NomosRt.Modulator
