/-
  NomosRt.Modulator.Circuits

  The modulators that emulate an analog circuit and may be patched to the outputs of
  others: `sloth-chaos`, `squid-axon`, `genie` and `lets-splosh`.
-/

import NomosRt.Modulator.Listeners

namespace NomosRt.Modulator

open NomosRt.Lib CFloat CMath

section Circuits

variable {F : Type*} [CMath F]

/-! ## `sloth_chaos_modulator` -/

/-- `sloth_chaos_modulator::variant`. -/
inductive SlothVariant where
  | torpor
  | apathy
  | inertia
  | triple
  deriving DecidableEq, Repr

/-- `sloth_chaos_modulator::State`. -/
structure SlothState (F : Type*) where
  x : F
  w : F
  y : F
  z : F
  zPrevPositive : Bool

/-- `sloth_chaos_modulator`; the three states are torpor, apathy and inertia. -/
structure SlothChaos (F : Type*) where
  variant : SlothVariant
  cvSrc : String
  states : List (SlothState F)
  knob : F
  cvIn : F

namespace SlothState

/-- `kAlpha`. -/
def kAlpha : F := lit (35 / 100)

/-- `kBeta`. -/
def kBeta : F := lit (25 / 100)

/-- `kGamma`. -/
def kGamma : F := lit (15 / 100)

/-- `kVRange`. -/
def kVRange : F := lit 12

/-- `kZHigh`. -/
def kZHigh : F := lit (1138 / 100)

/-- `kZLow`. -/
def kZLow : F := lit (-1064 / 100)

/-- The initial state. -/
def init : SlothState F := ⟨lit (1 / 100), lit 0, lit 0, kZHigh, true⟩

/-- `step`. -/
def step (h k zBias cvIn : F) (s : SlothState F) : SlothState F :=
  -- the comparator switches before the derivatives are taken
  let z := if lt zBias (s.x + cvIn) then kZHigh else kZLow
  let dx := (s.y - s.x * k) * kAlpha
  let dw := (z - s.x) * kBeta
  let dy := -s.w * kGamma
  { s with x := s.x + dx * h, w := s.w + dw * h, y := s.y + dy * h, z := z }

/-- A node voltage in [0, 1]: `x_norm`, `y_norm` and `w_norm`. -/
def norm (voltage : F) : F := clamp ((voltage + kVRange) / (lit 2 * kVRange)) (lit 0) (lit 1)

/-- The lobe: `z > 0.0f`. -/
def positive (s : SlothState F) : Bool := lt (lit 0) s.z

end SlothState

namespace SlothChaos

/-- `kTimeDilation`. -/
def kTimeDilation : List F := [lit 1, lit (274 / 1000), lit (97 / 10000)]

/-- The constructor. -/
def make (variant : SlothVariant) (cvSrc : String) : SlothChaos F :=
  ⟨variant, cvSrc, List.replicate 3 SlothState.init, lit (1 / 2), lit 0⟩

/-- `v_idx`. -/
def vIdx : SlothVariant → Nat
  | .triple => 0
  | .torpor => 0
  | .apathy => 1
  | .inertia => 2

/-- The four Euler sub-steps of state `vi`. -/
def integrate (rate k zBias cvIn : F) (vi : Nat) (s : SlothState F) : SlothState F :=
  let effDt := if lt (lit 0) rate then kTimeDilation.getD vi (lit 0) / rate else lit 0
  let h := effDt / lit 4
  (SlothState.step h k zBias cvIn)^[4] s

/-- The outputs of a single variant. -/
def singleOutput (s : SlothState F) : ModulatorOutput F :=
  let lobeNow := s.positive
  { cvOutput (SlothState.norm s.x) with
    aux := SlothState.norm s.y
    gate := lobeNow
    gate2 := lobeNow ≠ s.zPrevPositive
    state := if lobeNow then 1 else 0
    outputs := outputsOf [SlothState.norm s.x, SlothState.norm s.y, SlothState.norm s.w,
      if lobeNow then lit 1 else lit 0] }

/-- The outputs of the triple variant. -/
def tripleOutput (states : List (SlothState F)) : ModulatorOutput F :=
  let state := fun vi => states.getD vi SlothState.init
  -- torpor against the two slower ones
  let combinedV := lit (7 / 10) * ((state 0).z - ((state 1).z + (state 2).z))
  let combined := clamp ((combinedV + lit 16) / lit 32) (lit 0) (lit 1)
  let pairs := states.flatMap fun s => [SlothState.norm s.x, SlothState.norm s.y]
  { cvOutput (SlothState.norm (state 0).x) with
    aux := combined
    gate := (state 0).positive
    state := bitmapOf 3 fun vi => (state vi).positive
    outputs := outputsOf (pairs ++ [combined]) }

/-- `s.z_prev_positive = s.z > 0.0f`. -/
def marked (s : SlothState F) : SlothState F := { s with zPrevPositive := s.positive }

/-- `tick`. -/
def tick (view : OutputView F) (rate : F) (s : SlothChaos F) : ModulatorOutput F × SlothChaos F :=
  let cvIn := readCvSrc view s.cvSrc s.cvIn
  let k := lit 1 + (s.knob - lit (1 / 2)) * lit (4 / 10)
  let zBias := (s.knob - lit (1 / 2)) * lit 4
  if s.variant = .triple then
    let states := s.states.mapIdx (integrate rate k zBias cvIn)
    (tripleOutput states, { s with states := states.map marked })
  else
    let vi := vIdx s.variant
    let now := integrate rate k zBias cvIn vi (s.states.getD vi SlothState.init)
    (singleOutput now, { s with states := s.states.set vi (marked now) })

/-- `update`. -/
def update (key : String) (value : F) (s : SlothChaos F) : SlothChaos F :=
  match key with
  | "knob" => { s with knob := clamp value (lit 0) (lit 1) }
  | "cv_in" => { s with cvIn := value }
  | _ => s

end SlothChaos

/-! ## `squid_axon_modulator` -/

/-- `squid_axon_modulator`. -/
structure SquidAxon (F : Type*) where
  clockSrc : String
  in1Src : String
  in2Src : String
  in3Src : String
  stages : List F
  counter : BitVec 32
  nlFb : F
  linFb : F
  in1 : F
  in2 : F
  in3 : F
  in3Patched : Bool
  clockPrev : Bool
  clockPending : Bool

namespace SquidAxon

/-- The constructor. -/
def make (clockSrc in1Src in2Src in3Src : String) : SquidAxon F :=
  ⟨clockSrc, in1Src, in2Src, in3Src, List.replicate 4 (lit 0), 0, lit 0, lit 0, lit 0, lit 0,
    lit 0, false, false, false⟩

/-- `nl_feedback`. -/
def nlFeedback (s : SquidAxon F) (out4 : F) : F :=
  if lt s.nlFb (lit (1 / 10000)) then lit 0
  else
    let threshold := CFloat.max (lit 0) (lit 1 - s.nlFb / lit 4)
    let excess := out4 - threshold
    if le excess (lit 0) then lit 0 else lit (-7 / 10) * excess * excess

/-- The mix that a clock edge lets into the pipeline. -/
def mix (view : OutputView F) (s : SquidAxon F) : F :=
  let out4 := s.stages.getD 3 (lit 0)
  let in1 := readCvSrc view s.in1Src s.in1
  let in2 := readCvSrc view s.in2Src s.in2
  -- IN3 is normalled to OUT4
  let in3 := if !s.in3Patched && s.in3Src = "" then out4 else readCvSrc view s.in3Src s.in3
  clamp (in1 + in2 + in3 + s.nlFeedback out4 + s.linFb * out4) (lit 0) (lit 1)

/-- `tick`. -/
def tick (view : OutputView F) (s : SquidAxon F) : ModulatorOutput F × SquidAxon F :=
  let clk := readGateSrc view s.clockSrc
  let edge := (clk && !s.clockPrev) || s.clockPending
  let s := { s with clockPrev := clk, clockPending := false }
  let s := if edge then
      { s with stages := (s.mix view :: s.stages).take 4, counter := (s.counter + 1) &&& 3 }
    else s
  let out1 := s.stages.getD 0 (lit 0)
  ({ cvOutput out1 with
      aux := s.stages.getD 3 (lit 0)
      gate := lt (lit (1 / 2)) out1
      state := s.counter
      outputs := outputsOf s.stages }, s)

/-- `update`. -/
def update (key : String) (value : F) (s : SquidAxon F) : SquidAxon F :=
  match key with
  | "nl_fb" => { s with nlFb := clamp value (lit 0) (lit 4) }
  | "lin_fb" => { s with linFb := clamp value (lit 0) (lit 1) }
  | "in1" => { s with in1 := value }
  | "in2" => { s with in2 := value }
  | "in3" => { s with in3 := value }
  | "in3_patched" => { s with in3Patched := lt (lit (1 / 2)) value }
  | "clock_tick" => if lt (lit (1 / 2)) value then { s with clockPending := true } else s
  | _ => s

end SquidAxon

/-! ## `genie_modulator` -/

/-- `kMaxN`. -/
def kMaxN : Nat := 8

/-- `genie_modulator`. -/
structure Genie (F : Type*) where
  n : Nat
  inSrc : List String
  sense : List F
  response : List F
  gain : List F
  extIn : List F
  state : List F

namespace Genie

/-- The constructor; without `in_src` every source is empty. -/
def make (n : Int) (inSrc : List String) : Genie F :=
  ⟨(clampInt n 2 kMaxN).toNat, inSrc, List.replicate kMaxN (lit (25 / 10)),
    List.replicate kMaxN (lit 3), List.replicate kMaxN (lit (6 / 10)),
    List.replicate kMaxN (lit 0), List.replicate kMaxN (lit 0)⟩

/-- `neuron`. -/
def neuron (input sense response : F) : F :=
  let x := input + sense
  let rect := clamp x (lit 0) (lit 10)
  let comp := if le (lit 0) x then response else -response
  rect - comp

/-- `neuron_norm`. -/
def neuronNorm (s : Genie F) (raw : F) (i : Nat) : F :=
  let response := s.response.getD i (lit 0)
  let lo := -response
  let hi := CFloat.max response (lit 10 - response)
  if CMath.eq hi lo then lit (1 / 2) else clamp ((raw - lo) / (hi - lo)) (lit 0) (lit 1)

/-- The input of neuron `i`: its source, or the neuron before it in the ring. -/
def input (view : OutputView F) (s : Genie F) (i : Nat) : F :=
  let src := s.inSrc.getD i ""
  if src = "" then s.gain.getD i (lit 0) * s.state.getD ((i + s.n - 1) % s.n) (lit 0)
  else readCvSrc view src (s.extIn.getD i (lit 0))

/-- `tick`. -/
def tick (view : OutputView F) (s : Genie F) : ModulatorOutput F × Genie F :=
  -- all neurons from the state before the tick
  let fired := (List.range s.n).map fun i =>
    neuron (s.input view i) (s.sense.getD i (lit 0)) (s.response.getD i (lit 0))
  let s := { s with state := fired ++ s.state.drop s.n }
  let out := fun i => s.state.getD i (lit 0)
  -- with two neurons the first stands in for the third
  let n3 := if s.n ≥ 3 then out 2 else out 0
  let diff := out 0 + n3 - out 1
  let dPos := CFloat.max (lit 0) diff
  ({ cvOutput (s.neuronNorm (out 0) 0) with
      aux := clamp (dPos / lit 17) (lit 0) (lit 1)
      gate := lt (lit 0) diff
      gate2 := lt diff (lit 0)
      state := bitmapOf s.n fun i => lt (lit 0) (out i)
      outputs := outputsOf ((List.range s.n).map fun i => s.neuronNorm (out i) i) }, s)

/-- `key.back() - '0'`, if it is an index. -/
def keyIndex (key : List Char) : Option Nat :=
  match key.getLast? with
  | some c => if '0' ≤ c ∧ c ≤ '7' then some (c.toNat - '0'.toNat) else none
  | none => none

/-- A parameter set at the index of the key. -/
def setAt (key : List Char) (value : F) (values : List F) : List F :=
  match keyIndex key with
  | some i => values.set i value
  | none => values

/-- `update`. -/
def update (key : String) (value : F) (s : Genie F) : Genie F :=
  let k := key.toList
  if k.take 5 = "sense".toList then
    { s with sense := setAt k (clamp value (lit 0) (lit 5)) s.sense }
  else if k.take 8 = "response".toList then
    { s with response := setAt k (clamp value (lit 1) (lit 10)) s.response }
  else if k.take 4 = "gain".toList then
    { s with gain := setAt k (clamp value (lit 0) (lit 1)) s.gain }
  else if k.take 2 = "in".toList then { s with extIn := setAt k value s.extIn }
  else s

end Genie

/-! ## `lets_splosh_modulator` -/

/-- `lets_splosh_modulator`; the inputs are C, T, N and B. -/
structure LetsSplosh (F : Type*) where
  src : List String
  inputs : List F

namespace LetsSplosh

/-- The constructor. -/
def make (cSrc tSrc nSrc bSrc : String) : LetsSplosh F :=
  ⟨[cSrc, tSrc, nSrc, bSrc], List.replicate 4 (lit 0)⟩

/-- The partition output of a mask. -/
def partition (ins : List F) (m : Nat) : F :=
  CFloat.max (lit 0) (weightedSum ins m.testBit - weightedSum ins fun i => !m.testBit i)

/-- `tick`. -/
def tick (view : OutputView F) (s : LetsSplosh F) : ModulatorOutput F × LetsSplosh F :=
  let ins := (s.src.zip s.inputs).map fun p => readCvSrc view p.1 p.2
  let aux := partition ins 0xF
  ({ cvOutput (partition ins 0x7) with
      aux := aux
      gate := lt (lit 0) aux
      state := bitmapOf 4 fun i => lt (lit (1 / 2)) (ins.getD i (lit 0))
      outputs := (List.range kMaxOutputs).map (partition ins) }, s)

/-- `update`. -/
def update (key : String) (value : F) (s : LetsSplosh F) : LetsSplosh F :=
  match key with
  | "c" => { s with inputs := s.inputs.set 0 value }
  | "t" => { s with inputs := s.inputs.set 1 value }
  | "n" => { s with inputs := s.inputs.set 2 value }
  | "b" => { s with inputs := s.inputs.set 3 value }
  | _ => s

end LetsSplosh

end Circuits

end NomosRt.Modulator
