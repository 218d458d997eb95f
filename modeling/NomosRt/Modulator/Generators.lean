/-
  NomosRt.Modulator.Generators

  The modulators that read nothing but their parameters: `slope`, `segment`, `slew`,
  `fractal` and `stochastic`.

  Each is a record of its fields with the constructor, `tick` and `update`.  The beat
  is not used by any of them.
-/

import NomosRt.Modulator.ShiftRegister

namespace NomosRt.Modulator

open NomosRt.Lib CFloat CMath

section Generators

variable {F : Type*} [CMath F]

/-- `std::numbers::pi_v<float>`. -/
def piF : F := lit (3141592653589793 / 1000000000000000)

/-- The output with a value for `.cv` only. -/
def cvOutput (cv : F) : ModulatorOutput F := { ModulatorOutput.zero with cv := cv }

/-- `static_cast<int>(std::round(value))` clamped. -/
def roundClamped (value : F) (lo hi : Int) : Int := clampInt (toInt (round value)) lo hi

/-! ## `slope_modulator` -/

/-- `slope_modulator`. -/
structure Slope (F : Type*) where
  rate : F
  shape : F
  slope : F
  smoothness : F
  depth : F
  bipolar : Bool
  phase : F
  smoothState : F
  lastOutput : F

namespace Slope

/-- The constructor. -/
def make : Slope F :=
  ⟨lit 1, lit 0, lit 0, lit 0, lit 1, true, lit 0, lit (1 / 2), lit 0⟩

/-- The raw phase with its peak moved to `attack`. -/
def skewed (slope phase : F) : F :=
  let attack := clamp (lit (1 / 2) + slope * lit (49 / 100)) (lit (1 / 100)) (lit (99 / 100))
  if lt phase attack then phase / attack * lit (1 / 2)
  else lit (1 / 2) + (phase - attack) / (lit 1 - attack) * lit (1 / 2)

/-- Triangle, sine or peak. -/
def shaped (shape p : F) : F :=
  let tri := if lt p (lit (1 / 2)) then p * lit 2 else (lit 1 - p) * lit 2
  let sinV := lit (1 / 2) - lit (1 / 2) * CFloat.cos (lit 2 * piF * p)
  -- from triangle to sine below 0, and a sharper peak above
  if le shape (lit 0) then tri + (shape + lit 1) * (sinV - tri)
  else pow (CFloat.max sinV (lit (1 / 1000000))) (lit 1 + shape * lit 2)

/-- Low-pass below 0 and wavefold above: the output and `smooth_state_`. -/
def smoothed (smoothness smoothState output : F) : F × F :=
  if lt smoothness (lit 0) then
    let c := lit 1 + smoothness
    let smoothState := smoothState + c * c * (output - smoothState)
    (smoothState, smoothState)
  else if lt (lit 0) smoothness then
    let x := fmod (output * (lit 1 + smoothness * lit 3)) (lit 2)
    (if lt (lit 1) x then lit 2 - x else x, smoothState)
  else (output, smoothState)

/-- `tick`. -/
def tick (rate : F) (s : Slope F) : ModulatorOutput F × Slope F :=
  -- without a tick rate the last value is held
  if le rate (lit 0) then (cvOutput s.lastOutput, s)
  else
    let phase := s.phase + s.rate / rate
    let phase := if le (lit 1) phase then phase - lit 1 else phase
    let (output, smoothState) :=
      smoothed s.smoothness s.smoothState (shaped s.shape (skewed s.slope phase))
    let output := if s.bipolar then output * lit 2 - lit 1 else output
    let lastOutput := output * s.depth
    (cvOutput lastOutput,
      { s with phase := phase, smoothState := smoothState, lastOutput := lastOutput })

/-- `update`. -/
def update (key : String) (value : F) (s : Slope F) : Slope F :=
  match key with
  | "rate" => { s with rate := clamp value (lit (1 / 1000)) (lit 100) }
  | "shape" => { s with shape := clamp value (lit (-1)) (lit 1) }
  | "slope" => { s with slope := clamp value (lit (-1)) (lit 1) }
  | "smoothness" => { s with smoothness := clamp value (lit (-1)) (lit 1) }
  | "depth" => { s with depth := clamp value (lit 0) (lit 1) }
  | "bipolar" => { s with bipolar := le (lit (1 / 2)) value }
  | _ => s

end Slope

/-! ## `segment_modulator` -/

/-- `segment_modulator::type`. -/
inductive SegmentType where
  | ramp
  | step
  | hold
  | alt
  deriving DecidableEq, Repr

/-- `segment_modulator::segment_def`. -/
structure SegmentDef (F : Type*) where
  kind : SegmentType
  primary : F
  secondary : F
  loop : Bool

/-- A default-initialised definition. -/
def SegmentDef.default : SegmentDef F := ⟨.ramp, lit (1 / 2), lit (1 / 2), false⟩

/-- `kMaxSegments`. -/
def kMaxSegments : Nat := 36

/-- `segment_modulator`; `defs` is the used part of `defs_`. -/
structure Segment (F : Type*) where
  defs : List (SegmentDef F)
  depth : F
  rate : F
  phase : F
  curSeg : Int
  cycleCount : Nat
  segStartVal : F
  curOutput : F

namespace Segment

/-- The constructor. -/
def make (segments : List (SegmentDef F)) : Segment F :=
  ⟨segments.take kMaxSegments, lit 1, lit 1, lit 0, 0, 0, lit 0, lit 0⟩

/-- `tick`. -/
def tick (rate : F) (s : Segment F) : ModulatorOutput F × Segment F :=
  if le rate (lit 0) then (cvOutput (s.curOutput * s.depth), s)
  else
    let n : Int := s.defs.length
    let phase := s.phase + s.rate / rate
    let (phase, cycleCount) :=
      if le (lit 1) phase then (phase - lit 1, s.cycleCount + 1) else (phase, s.cycleCount)
    let segPhase := phase * CFloat.ofInt n
    -- `%` on `int`
    let newSeg := (toInt segPhase).tmod n
    let localP := segPhase - floor segPhase
    -- a segment starts from the value that the one before it reached
    let (segStartVal, curSeg) :=
      if newSeg ≠ s.curSeg then (s.curOutput, newSeg) else (s.segStartVal, s.curSeg)
    let seg := s.defs.getD curSeg.toNat SegmentDef.default
    let output :=
      match seg.kind with
      | .ramp => segStartVal + localP * (seg.primary - segStartVal)
      | .step => seg.primary
      | .hold => segStartVal
      | .alt => if cycleCount % 2 = 0 then seg.primary else seg.secondary
    let curOutput := clamp output (lit 0) (lit 1)
    (cvOutput (curOutput * s.depth),
      { s with
        phase := phase
        cycleCount := cycleCount
        segStartVal := segStartVal
        curSeg := curSeg
        curOutput := curOutput })

/-- The loop over the digits; an overflowing `int` wraps. -/
def parseIndex : List Char → Int → Option Int
  | [], idx => some idx
  | c :: cs, idx =>
      if c < '0' ∨ '9' < c then none
      else parseIndex cs (Int.bmod (idx * 10 + (c.toNat - '0'.toNat : Nat)) (2 ^ 32))

/-- The segment and the field a key names. -/
def keyTarget (key : List Char) : Option (Int × List Char) :=
  if key.length ≤ 8 ∨ key.take 8 ≠ "segment_".toList then none
  else
    let rest := key.drop 8
    match rest.findIdx? (· = '_') with
    | none => none
    | some sep => (parseIndex (rest.take sep) 0).map fun idx => (idx, rest.drop (sep + 1))

/-- `update`. -/
def update (key : String) (value : F) (s : Segment F) : Segment F :=
  if key = "depth" then { s with depth := clamp value (lit 0) (lit 1) }
  else if key = "rate" then { s with rate := clamp value (lit (1 / 1000)) (lit 100) }
  else
    match keyTarget key.toList with
    | none => s
    | some (idx, field) =>
        -- no digits read as index 0, and a wrapped index may be negative
        if idx < 0 ∨ idx ≥ s.defs.length then s
        else
          let v := clamp value (lit 0) (lit 1)
          if field = "primary".toList then
            { s with defs := s.defs.modify idx.toNat fun d => { d with primary := v } }
          else if field = "secondary".toList then
            { s with defs := s.defs.modify idx.toNat fun d => { d with secondary := v } }
          else s

end Segment

/-! ## `slew_modulator` -/

/-- `slew_modulator::stage`. -/
inductive SlewStage where
  | idle
  | rising
  | falling
  deriving DecidableEq, Repr

/-- `slew_modulator`; `eor_` and `eoc_` are set anew by every tick. -/
structure Slew (F : Type*) where
  rise : F
  fall : F
  input : F
  depth : F
  cycle : Bool
  stage : SlewStage
  current : F
  trigPending : Bool

namespace Slew

/-- The constructor. -/
def make : Slew F :=
  ⟨lit (1 / 10), lit (1 / 10), lit 0, lit 1, false, .idle, lit 0, false⟩

/-- `coeff`. -/
def coeff (timeS rate : F) : F := lit 1 - exp (lit (-22 / 10) / (timeS * rate))

/-- `kThresh`. -/
def kThresh : F := lit (1 / 1000)

/-- The pending trigger, then the start of a cycle. -/
def started (s : Slew F) : Slew F :=
  -- a trigger restarts the envelope from the bottom, whatever the stage
  let s := if s.trigPending then
      { s with trigPending := false, current := lit (-1), stage := .rising } else s
  if s.cycle ∧ s.stage = .idle then { s with stage := .rising } else s

/-- `tick` behind the start: the modulator, `eor_` and `eoc_`. -/
def advance (rate : F) (s : Slew F) : Slew F × Bool × Bool :=
  match s.stage with
  | .idle =>
      -- a slew limiter on the input
      let timeS := if le s.current s.input then s.rise else s.fall
      ({ s with current := s.current + (s.input - s.current) * coeff timeS rate }, false, false)
  | .rising =>
      let current := s.current + (lit 1 - s.current) * coeff s.rise rate
      if le (lit 1 - kThresh) current then
        ({ s with current := lit 1, stage := .falling }, true, false)
      else ({ s with current := current }, false, false)
  | .falling =>
      let current := s.current + (lit (-1) - s.current) * coeff s.fall rate
      if le current (lit (-1) + kThresh) then
        ({ s with current := lit (-1), stage := .idle }, false, true)
      else ({ s with current := current }, false, false)

/-- `tick`. -/
def tick (rate : F) (s : Slew F) : ModulatorOutput F × Slew F :=
  if le rate (lit 0) then (cvOutput (s.current * s.depth), s)
  else
    let (s, eor, eoc) := s.started.advance rate
    ({ cvOutput (s.current * s.depth) with gate := eor, gate2 := eoc }, s)

/-- `update`. -/
def update (key : String) (value : F) (s : Slew F) : Slew F :=
  match key with
  | "rise" => { s with rise := clamp value (lit (1 / 1000)) (lit 10) }
  | "fall" => { s with fall := clamp value (lit (1 / 1000)) (lit 10) }
  | "input" => { s with input := clamp value (lit (-1)) (lit 1) }
  | "depth" => { s with depth := clamp value (lit 0) (lit 1) }
  | "cycle" => { s with cycle := lt (lit (1 / 2)) value }
  | "trig" => if lt (lit (1 / 2)) value then { s with trigPending := true } else s
  | _ => s

end Slew

/-! ## `fractal_modulator` -/

/-- `next_rand`: the generator of `shift_register_modulator`. -/
def nextRand (randState : BitVec 32) : F × BitVec 32 := ShiftRegister.nextRandom randState

/-- `kMaxOctaves`. -/
def kMaxOctaves : Nat := 8

/-- `kSeeds`. -/
def kSeeds : List (BitVec 32) :=
  [0xACE1, 0xDEAD, 0xBEEF, 0xCAFE, 0x1234, 0x5678, 0x9ABC, 0xDEF0]

/-- `kPhi`. -/
def kPhi : F := lit (618034 / 1000000)

/-- `fractal_modulator`. -/
structure Fractal (F : Type*) where
  baseRate : F
  lacunarity : F
  persistence : F
  threshold : F
  depth : F
  octaves : Nat
  shape : Int
  phase : List F
  held : List F
  rand : List (BitVec 32)
  prevOutput : F

namespace Fractal

/-- `held_[i] = next_rand(i) * 2.0f - 1.0f`. -/
def resample (i : Nat) (s : Fractal F) : Fractal F :=
  let (r, randState) := nextRand (F := F) (s.rand.getD i 0)
  { s with held := s.held.set i (r * lit 2 - lit 1), rand := s.rand.set i randState }

/-- The constructor. -/
def make : Fractal F :=
  (List.range kMaxOctaves).foldl (fun s i => s.resample i)
    { baseRate := lit (1 / 10)
      lacunarity := lit 2
      persistence := lit (1 / 2)
      threshold := lit (2 / 10)
      depth := lit 1
      octaves := 4
      shape := 0
      phase := (List.range kMaxOctaves).map fun i => fmod (CFloat.ofInt i * kPhi) (lit 1)
      held := List.replicate kMaxOctaves (lit 0)
      rand := kSeeds
      prevOutput := lit 0 }

/-- `sample`. -/
def sample (i : Nat) (s : Fractal F) : F :=
  let phase := s.phase.getD i (lit 0)
  if s.shape = 1 then lit 1 - lit 4 * CFloat.abs (phase - lit (1 / 2))
  else if s.shape = 2 then s.held.getD i (lit 0)
  else CFloat.sin (lit 2 * piF * phase)

/-- The loop over the octaves that are left: the modulator, `sum` and `norm`. -/
def octaveLoop (rate : F) :
    (left : Nat) → (i : Nat) → (sum norm freq amp : F) → Fractal F → Fractal F × F × F
  | 0, _, sum, norm, _, _, s => (s, sum, norm)
  | left + 1, i, sum, norm, freq, amp, s =>
      let inc := freq / rate
      let phase := s.phase.getD i (lit 0)
      -- sample and hold takes a new value where the phase wraps
      let s := if s.shape = 2 ∧ le (lit 1) (phase + inc) then s.resample i else s
      let s := { s with phase := s.phase.set i (fmod (phase + inc) (lit 1)) }
      octaveLoop rate left (i + 1) (sum + amp * s.sample i) (norm + amp) (freq * s.lacunarity)
        (amp * s.persistence) s

/-- `tick`. -/
def tick (rate : F) (s : Fractal F) : ModulatorOutput F × Fractal F :=
  if le rate (lit 0) then (cvOutput (s.prevOutput * s.depth), s)
  else
    let (s, sum, norm) := s.octaveLoop rate s.octaves 0 (lit 0) (lit 0) s.baseRate (lit 1)
    let output := if lt (lit 0) norm then sum / norm else lit 0
    -- a rising crossing
    let gate := le s.threshold output && lt s.prevOutput s.threshold
    ({ cvOutput (clamp output (lit (-1)) (lit 1) * s.depth) with gate := gate },
      { s with prevOutput := output })

/-- `update`. -/
def update (key : String) (value : F) (s : Fractal F) : Fractal F :=
  match key with
  | "base_rate" => { s with baseRate := clamp value (lit (1 / 1000)) (lit 100) }
  | "octaves" => { s with octaves := (roundClamped value 1 kMaxOctaves).toNat }
  | "lacunarity" => { s with lacunarity := clamp value (lit (11 / 10)) (lit 8) }
  | "persistence" => { s with persistence := clamp value (lit (1 / 100)) (lit 2) }
  | "shape" => { s with shape := roundClamped value 0 2 }
  | "threshold" => { s with threshold := clamp value (lit (-1)) (lit 1) }
  | "depth" => { s with depth := clamp value (lit 0) (lit 1) }
  | _ => s

end Fractal

/-! ## `stochastic_modulator` -/

/-- `kMaxLength`. -/
def kMaxLength : Nat := 16

/-- `stochastic_modulator`; `gate_out_` is set anew by every tick. -/
structure Stochastic (F : Type*) where
  rate : F
  bias : F
  jitter : F
  spread : F
  dejaVu : F
  depth : F
  length : Nat
  steps : Nat
  clockPhase : F
  nextThreshold : F
  cvOut : F
  cvBuf : List F
  gateBuf : List Bool
  writePos : Nat
  readPos : Nat
  randState : BitVec 32

namespace Stochastic

/-- The loop of the constructor: the two buffers and the generator. -/
def seedBuffers : Nat → BitVec 32 → List F × List Bool × BitVec 32
  | 0, randState => ([], [], randState)
  | n + 1, randState =>
      let (cv, randState) := nextRand (F := F) randState
      let (gate, randState) := nextRand (F := F) randState
      let (cvs, gates, randState) := seedBuffers n randState
      ((cv * lit 2 - lit 1) :: cvs, lt (lit (1 / 2)) gate :: gates, randState)

/-- The constructor. -/
def make : Stochastic F :=
  let (cvBuf, gateBuf, randState) := seedBuffers kMaxLength 0xACE1
  { rate := lit 2
    bias := lit (1 / 2)
    jitter := lit 0
    spread := lit (1 / 2)
    dejaVu := lit 0
    depth := lit 1
    length := 8
    steps := 0
    clockPhase := lit 0
    nextThreshold := lit 1
    cvOut := lit 0
    cvBuf := cvBuf
    gateBuf := gateBuf
    writePos := 0
    readPos := 0
    randState := randState }

/-- A call of `next_rand`. -/
def drawn (s : Stochastic F) : F × Stochastic F :=
  let (r, randState) := nextRand s.randState
  (r, { s with randState := randState })

/-- `generate_cv`. -/
def generateCv (s : Stochastic F) : F × Stochastic F :=
  let (raw, s) := s.drawn
  let cv := clamp (s.bias + (raw - lit (1 / 2)) * s.spread * lit 2) (lit 0) (lit 1)
  let cv := if s.steps > 0 then
      round (cv * CFloat.ofInt s.steps) / CFloat.ofInt s.steps else cv
  (cv * lit 2 - lit 1, s)

/-- A test against a draw that is made only if the first condition holds. -/
def drawBelow (cond : Bool) (bound : F) (s : Stochastic F) : Bool × Stochastic F :=
  if cond then
    let (r, s) := s.drawn
    (lt r bound, s)
  else (false, s)

/-- The branch that writes a new gate and a new value. -/
def written (s : Stochastic F) : Stochastic F :=
  let (r, s) := s.drawn
  let newGate := lt r s.bias
  let (newCv, s) := s.generateCv
  { s with
    gateBuf := s.gateBuf.set s.writePos newGate
    cvBuf := s.cvBuf.set s.writePos newCv
    writePos := (s.writePos + 1) % s.length }

/-- `tick` from the subtraction of the threshold on. -/
def event (s : Stochastic F) : ModulatorOutput F × Stochastic F :=
  let s := { s with clockPhase := s.clockPhase - s.nextThreshold }
  let (r, s) := s.drawn
  -- the next interval: regular, or exponentially distributed with full jitter
  let u := CFloat.max r (lit (1 / 1000000))
  let s := { s with nextThreshold := lerp (lit 1) (-log u) s.jitter }
  let probReplay := CFloat.min (s.dejaVu * lit 2) (lit 1)
  let probFreeze := CFloat.max ((s.dejaVu - lit (1 / 2)) * lit 2) (lit 0)
  -- the draws short-circuit, so how many are made depends on `deja_vu`
  let (replay, s) := s.drawBelow (lt (lit 0) s.dejaVu) probReplay
  let (freeze, s) := s.drawBelow (lt (lit (1 / 2)) s.dejaVu) probFreeze
  let s := if replay then s else s.written
  let gateOut := s.gateBuf.getD s.readPos false
  let s := { s with cvOut := s.cvBuf.getD s.readPos (lit 0) }
  let s := if freeze then s else { s with readPos := (s.readPos + 1) % s.length }
  ({ cvOutput (s.cvOut * s.depth) with gate := gateOut }, s)

/-- `tick`. -/
def tick (rate : F) (s : Stochastic F) : ModulatorOutput F × Stochastic F :=
  if le rate (lit 0) then (cvOutput (s.cvOut * s.depth), s)
  else
    let s := { s with clockPhase := s.clockPhase + s.rate / rate }
    if lt s.clockPhase s.nextThreshold then (cvOutput (s.cvOut * s.depth), s) else s.event

/-- `update`. -/
def update (key : String) (value : F) (s : Stochastic F) : Stochastic F :=
  match key with
  | "rate" => { s with rate := clamp value (lit (1 / 1000)) (lit 100) }
  | "bias" => { s with bias := clamp value (lit 0) (lit 1) }
  | "jitter" => { s with jitter := clamp value (lit 0) (lit 1) }
  | "spread" => { s with spread := clamp value (lit 0) (lit 1) }
  | "deja_vu" => { s with dejaVu := clamp value (lit 0) (lit 1) }
  | "depth" => { s with depth := clamp value (lit 0) (lit 1) }
  | "length" => { s with length := (roundClamped value 1 kMaxLength).toNat }
  | "steps" => { s with steps := (roundClamped value 0 16).toNat }
  | _ => s

end Stochastic

end Generators

end NomosRt.Modulator
