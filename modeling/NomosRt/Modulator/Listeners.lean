/-
  NomosRt.Modulator.Listeners

  The digital modulators that may be patched to the outputs of others:
  `cv-channel-decoder`, `divine-cmos`, `statues`, `cipher` and `bools-ring`.

  `view` is `engine_->last_output`; the engine pointer is never null for a modulator
  that a message starts.  A source whose id is empty is not patched.
-/

import NomosRt.Modulator.Generators

namespace NomosRt.Modulator

open NomosRt.Lib CFloat CMath

section Listeners

variable {F : Type*} [CMath F]

/-- The outputs recorded so far. -/
abbrev OutputView (F : Type*) := String → Option (ModulatorOutput F)

/-- The output of a patched source. -/
def readSource (view : OutputView F) (src : String) : Option (ModulatorOutput F) :=
  if src = "" then none else view src

/-- `read_cv_src`. -/
def readCvSrc (view : OutputView F) (src : String) (fallback : F) : F :=
  match readSource view src with
  | some out => out.cv
  | none => fallback

/-- The gate of a source, or the level of a parameter. -/
def readGateLevel (view : OutputView F) (src : String) (fallback : F) : Bool :=
  match readSource view src with
  | some out => out.gate
  | none => lt (lit (1 / 2)) fallback

/-- The gate of a source, or low. -/
def readGateSrc (view : OutputView F) (src : String) : Bool :=
  match readSource view src with
  | some out => out.gate
  | none => false

/-- The sum of the weights at the set bits. -/
def weightedSum (weights : List F) (bit : Nat → Bool) : F :=
  (weights.zipIdx).foldl (fun sum w => if bit w.2 then sum + w.1 else sum) (lit 0)

/-- The bits that are set, as a word. -/
def bitmapOf (n : Nat) (bit : Nat → Bool) : BitVec 32 :=
  (List.range n).foldl (fun bitmap i => if bit i then bitmap ||| (1#32 <<< i) else bitmap) 0

/-- The one-pole glide of `divine-cmos` and `bools-ring`. -/
def glide (slew rate slewState target : F) : F :=
  let tc := slew * lit 4
  let alpha := if lt (lit 0) rate && lt (lit 0) tc then exp (lit (-1) / (tc * rate)) else lit 0
  alpha * slewState + (lit 1 - alpha) * target

/-- A list as the first of the outputs. -/
def outputsOf (xs : List F) : List F := xs ++ List.replicate (kMaxOutputs - xs.length) (lit 0)

/-! ## `cv_channel_decoder` -/

/-- `cv_channel_decoder::source_field`. -/
inductive SourceField where
  | cv
  | aux
  | gate
  deriving DecidableEq, Repr

/-- `kMaxChannels`. -/
def kMaxChannels : Nat := 8

/-- `cv_channel_decoder`. -/
structure ChannelDecoder (F : Type*) where
  channels : Nat
  sourceId : String
  sourceField : SourceField
  span : F
  space : F
  prevSpan : F
  firstTick : Bool
  clocked : Bool
  clockPending : Bool
  latchedState : BitVec 32

namespace ChannelDecoder

/-- The constructor. -/
def make (channels : Int) (sourceId : String) (field : SourceField) : ChannelDecoder F :=
  ⟨(clampInt channels 1 kMaxChannels).toNat, sourceId, field, lit 0, lit 1, lit 0, true, false,
    false, 0⟩

/-- `read_span`. -/
def readSpan (view : OutputView F) (s : ChannelDecoder F) : F :=
  match readSource view s.sourceId with
  | none => s.span
  | some out =>
      match s.sourceField with
      | .cv => out.cv
      | .aux => out.aux
      | .gate => if out.gate then lit 1 else lit (-1)

/-- `channel_active`. -/
def channelActive (s : ChannelDecoder F) (ch : Nat) (span : F) : Bool :=
  let n : F := CFloat.ofInt s.channels
  let hw := lit 1 / n
  let ctr := lit (-1) + (lit 2 * CFloat.ofInt ch + lit 1) / n
  le (ctr - s.space * hw) span && le span (ctr + s.space * hw)

/-- The clocked part of `tick`: the bitmap that is shown and the modulator. -/
def latch (s : ChannelDecoder F) (bitmap : BitVec 32) : BitVec 32 × ChannelDecoder F :=
  if s.clocked then
    let s := if s.clockPending then { s with latchedState := bitmap, clockPending := false } else s
    (s.latchedState, s)
  else (bitmap, s)

/-- `tick`. -/
def tick (view : OutputView F) (rate : F) (s : ChannelDecoder F) :
    ModulatorOutput F × ChannelDecoder F :=
  let span := s.readSpan view
  -- there is no velocity before the second tick
  let velocity := if !s.firstTick && lt (lit 0) rate then
      CFloat.min (lit 1) (CFloat.abs (span - s.prevSpan) * rate * lit (1 / 2)) else lit 0
  let s := { s with firstTick := false, prevSpan := span }
  let (bitmap, s) := s.latch (bitmapOf s.channels fun i => s.channelActive i span)
  ({ cvOutput velocity with aux := span, gate := bitmap ≠ 0, state := bitmap }, s)

/-- `update`. -/
def update (key : String) (value : F) (s : ChannelDecoder F) : ChannelDecoder F :=
  match key with
  | "span" => { s with span := clamp value (lit (-1)) (lit 1) }
  | "space" => { s with space := clamp value (lit 0) (lit 2) }
  | "clocked" => { s with clocked := lt (lit (1 / 2)) value }
  | "clock_tick" => if lt (lit (1 / 2)) value then { s with clockPending := true } else s
  | _ => s

end ChannelDecoder

/-! ## `divine_cmos_modulator` -/

/-- A four-bit counter with its clock: the source, the counter, the last gate and a
    pending edge. -/
structure CmosClock where
  src : String
  counter : BitVec 8
  prev : Bool
  pending : Bool

/-- `divine_cmos_modulator`. -/
structure DivineCmos (F : Type*) where
  clock1 : CmosClock
  clock2 : CmosClock
  gains : List F
  slew : F
  slewState : F

/-- One clock in a tick; without a source the last gate is held. -/
def CmosClock.tick (view : OutputView F) (c : CmosClock) : CmosClock :=
  let gate := match readSource view c.src with
    | some out => out.gate
    | none => c.prev
  -- a pending edge is kept until it is counted
  if (gate && !c.prev) || c.pending then
    { c with counter := (c.counter + 1) &&& 0x0F, pending := false, prev := gate }
  else { c with prev := gate }

namespace DivineCmos

/-- The constructor. -/
def make (clock1Src clock2Src : String) : DivineCmos F :=
  ⟨⟨clock1Src, 0, false, false⟩, ⟨clock2Src, 0, false, false⟩, List.replicate 4 (lit 1), lit 0,
    lit 0⟩

/-- `tick`. -/
def tick (view : OutputView F) (rate : F) (s : DivineCmos F) : ModulatorOutput F × DivineCmos F :=
  let clock1 := s.clock1.tick view
  let clock2 := s.clock2.tick view
  let xorBits := (clock1.counter ^^^ clock2.counter) &&& 0x0F
  let gainSum := s.gains.foldl (· + ·) (lit 0)
  let raw := weightedSum s.gains xorBits.getLsbD
  let main := if lt (lit 0) gainSum then raw / gainSum else lit 0
  let slewState := glide s.slew rate s.slewState main
  ({ cvOutput main with
      aux := slewState
      gate := xorBits &&& 1 ≠ 0
      gate2 := xorBits &&& 2 ≠ 0
      state := xorBits.setWidth 32 },
    { s with clock1 := clock1, clock2 := clock2, slewState := slewState })

/-- `update`. -/
def update (key : String) (value : F) (s : DivineCmos F) : DivineCmos F :=
  match key with
  | "gain0" => { s with gains := s.gains.set 0 (clamp value (lit 0) (lit 5)) }
  | "gain1" => { s with gains := s.gains.set 1 (clamp value (lit 0) (lit 5)) }
  | "gain2" => { s with gains := s.gains.set 2 (clamp value (lit 0) (lit 5)) }
  | "gain3" => { s with gains := s.gains.set 3 (clamp value (lit 0) (lit 5)) }
  | "slew" => { s with slew := clamp value (lit 0) (lit 1) }
  | "clock1_tick" =>
      if lt (lit (1 / 2)) value then { s with clock1 := { s.clock1 with pending := true } } else s
  | "clock2_tick" =>
      if lt (lit (1 / 2)) value then { s with clock2 := { s.clock2 with pending := true } } else s
  | _ => s

end DivineCmos

/-! ## `statues_modulator` -/

/-- `statues_modulator`. -/
structure Statues (F : Type*) where
  inSourceId : String
  addrSourceId : String
  slots : List F
  inVal : F
  addr : Int
  addrBits : Bool × Bool × Bool
  useAddrBits : Bool
  prevAddr : Int

namespace Statues

/-- The constructor. -/
def make (inSourceId addrSourceId : String) : Statues F :=
  ⟨inSourceId, addrSourceId, List.replicate 8 (lit 0), lit 0, 0, (false, false, false), false, -1⟩

/-- The address of a tick. -/
def resolveAddr (view : OutputView F) (s : Statues F) : Int :=
  let addr :=
    if s.addrSourceId ≠ "" then
      match view s.addrSourceId with
      | some out => (out.state &&& 7).toNat
      | none => s.addr
    else if s.useAddrBits then
      (if s.addrBits.1 then 1 else 0) + (if s.addrBits.2.1 then 2 else 0) +
        (if s.addrBits.2.2 then 4 else 0)
    else s.addr
  clampInt addr 0 7

/-- `tick`. -/
def tick (view : OutputView F) (s : Statues F) : ModulatorOutput F × Statues F :=
  let inVal := readCvSrc view s.inSourceId s.inVal
  let addr := s.resolveAddr view
  -- written before it is read: the output follows the input at the current address
  let slots := s.slots.set addr.toNat inVal
  ({ cvOutput (slots.getD addr.toNat (lit 0)) with
      aux := inVal
      gate := addr ≠ s.prevAddr
      state := BitVec.ofInt 32 addr
      outputs := outputsOf slots },
    { s with slots := slots, prevAddr := addr })

/-- `update`. -/
def update (key : String) (value : F) (s : Statues F) : Statues F :=
  let high := lt (lit (1 / 2)) value
  match key with
  | "in" => { s with inVal := clamp value (lit (-1)) (lit 1) }
  | "addr" => { s with addr := roundClamped value 0 7, useAddrBits := false }
  | "addr0" => { s with addrBits := (high, s.addrBits.2), useAddrBits := true }
  | "addr1" => { s with addrBits := (s.addrBits.1, high, s.addrBits.2.2), useAddrBits := true }
  | "addr2" => { s with addrBits := (s.addrBits.1, s.addrBits.2.1, high), useAddrBits := true }
  | _ => s

end Statues

/-! ## `cipher_modulator` -/

/-- `cipher_modulator`; `serial_out_` is set anew by every tick. -/
structure Cipher (F : Type*) where
  clockSrc : String
  data1Src : String
  data2Src : String
  strobeSrc : String
  innerReg : BitVec 8
  outputReg : BitVec 8
  clockPrev : Bool
  clockPending : Bool
  data1 : F
  data2 : F
  strobe : F

namespace Cipher

/-- `kWeights`. -/
def kWeights : List F := [lit (5 / 100), lit (11 / 100), lit (25 / 100), lit (53 / 100)]

/-- `kWeightSum`. -/
def kWeightSum : F := lit (5 / 100) + lit (11 / 100) + lit (25 / 100) + lit (53 / 100)

/-- `kCVBits`. -/
def kCVBits : List (List Nat) := [[0, 3, 4, 7], [0, 1, 4, 5], [1, 2, 5, 6], [2, 3, 6, 7]]

/-- The constructor. -/
def make (clockSrc data1Src data2Src strobeSrc : String) : Cipher F :=
  ⟨clockSrc, data1Src, data2Src, strobeSrc, 0, 0, false, false, lit 0, lit (-1), lit 0⟩

/-- `project_cv`, for the bits of one output. -/
def projectCv (s : Cipher F) (bits : List Nat) : F :=
  weightedSum kWeights (fun w => s.outputReg.getLsbD (bits.getD w 0)) / kWeightSum

/-- The new LSB. -/
def bitIn (view : OutputView F) (s : Cipher F) : Bool :=
  let d1 := readGateLevel view s.data1Src s.data1
  if s.data2Src ≠ "" ∨ le (lit 0) s.data2 then
    -- open mode: no feedback
    let d2 := if s.data2Src ≠ "" then readGateSrc view s.data2Src else lt (lit (1 / 2)) s.data2
    d1 || d2
  else (s.innerReg.getLsbD 7 ^^ s.innerReg.getLsbD 0) || d1

/-- `tick`. -/
def tick (view : OutputView F) (s : Cipher F) : ModulatorOutput F × Cipher F :=
  let clk := readGateSrc view s.clockSrc
  let clockEdge := (clk && !s.clockPrev) || s.clockPending
  let serialOut := clockEdge && s.innerReg.getLsbD 7
  let innerReg := if clockEdge then
      (s.innerReg <<< 1) ||| (if s.bitIn view then 1 else 0) else s.innerReg
  -- a high strobe freezes what is shown while the inner register goes on
  let strobeActive := readGateLevel view s.strobeSrc s.strobe
  let s := { s with
    clockPrev := clk
    clockPending := false
    innerReg := innerReg
    outputReg := if strobeActive then s.outputReg else innerReg }
  let cvs := kCVBits.map s.projectCv
  ({ cvOutput (cvs.getD 0 (lit 0)) with
      aux := cvs.getD 1 (lit 0)
      gate := serialOut
      gate2 := strobeActive
      state := s.outputReg.setWidth 32
      outputs := outputsOf cvs }, s)

/-- `update`. -/
def update (key : String) (value : F) (s : Cipher F) : Cipher F :=
  match key with
  | "data1" => { s with data1 := value }
  | "data2" => { s with data2 := value }
  | "strobe" => { s with strobe := value }
  | "clock_tick" => if lt (lit (1 / 2)) value then { s with clockPending := true } else s
  | "data2_enable" =>
      { s with data2 := if lt (lit (1 / 2)) value then lit 0 else lit (-1) }
  | _ => s

end Cipher

/-! ## `bools_ring_modulator` -/

/-- `bools_ring_modulator::mode`. -/
inductive RingMode where
  | xorMode
  | orMode
  | andMode
  | norMode
  | nandMode
  | xnorMode
  deriving DecidableEq, Repr

/-- `apply_logic`. -/
def RingMode.applyLogic : RingMode → Bool → Bool → Bool
  | .xorMode, a, b => a ^^ b
  | .orMode, a, b => a || b
  | .andMode, a, b => a && b
  | .norMode, a, b => !(a || b)
  | .nandMode, a, b => !(a && b)
  | .xnorMode, a, b => !(a ^^ b)

/-- `bools_ring_modulator`. -/
structure BoolsRing (F : Type*) where
  mode : RingMode
  src : List String
  sampleSrc : String
  inputs : List F
  slew : F
  sampled : Bool
  samplePending : Bool
  samplePrev : Bool
  slewState : F
  latchedOut : BitVec 8

namespace BoolsRing

/-- `kStepWeights`. -/
def kStepWeights : List F := [lit (55 / 100), lit (109 / 100), lit (219 / 100), lit (437 / 100)]

/-- `kStepMax`. -/
def kStepMax : F := lit (55 / 100) + lit (109 / 100) + lit (219 / 100) + lit (437 / 100)

/-- The constructor. -/
def make (mode : RingMode) (src0 src1 src2 src3 sampleSrc : String) : BoolsRing F :=
  ⟨mode, [src0, src1, src2, src3], sampleSrc, List.replicate 4 (lit 0), lit 0, false, false,
    false, lit 0, 0⟩

/-- The ring: each output from an input and its neighbour. -/
def ring (view : OutputView F) (s : BoolsRing F) : BitVec 8 :=
  let ins := fun i => readGateLevel view (s.src.getD i "") (s.inputs.getD i (lit 0))
  (bitmapOf 4 fun i => s.mode.applyLogic (ins i) (ins ((i + 1) % 4))).setWidth 8

/-- The latch of `tick`: the bitmap that is shown and the modulator. -/
def latch (view : OutputView F) (s : BoolsRing F) (bitmap : BitVec 8) : BitVec 8 × BoolsRing F :=
  if s.sampled then
    let sgate := if s.sampleSrc ≠ "" then readGateLevel view s.sampleSrc (lit 0) else false
    -- the message sets no sample source, so only `sample_tick` latches there
    let edge := (sgate && !s.samplePrev) || s.samplePending
    let s := { s with samplePrev := sgate, samplePending := false }
    let s := if edge then { s with latchedOut := bitmap } else s
    (s.latchedOut, s)
  else (bitmap, s)

/-- `tick`. -/
def tick (view : OutputView F) (rate : F) (s : BoolsRing F) : ModulatorOutput F × BoolsRing F :=
  let (bitmap, s) := s.latch view (s.ring view)
  let stepNorm := weightedSum kStepWeights bitmap.getLsbD / kStepMax
  let slewState := glide s.slew rate s.slewState stepNorm
  ({ cvOutput stepNorm with
      aux := slewState
      gate := bitmap &&& 1 ≠ 0
      gate2 := bitmap &&& 2 ≠ 0
      state := bitmap.setWidth 32 },
    { s with slewState := slewState })

/-- `update`. -/
def update (key : String) (value : F) (s : BoolsRing F) : BoolsRing F :=
  match key with
  | "in0" => { s with inputs := s.inputs.set 0 value }
  | "in1" => { s with inputs := s.inputs.set 1 value }
  | "in2" => { s with inputs := s.inputs.set 2 value }
  | "in3" => { s with inputs := s.inputs.set 3 value }
  | "slew" => { s with slew := clamp value (lit 0) (lit 1) }
  | "sampled" => { s with sampled := lt (lit (1 / 2)) value }
  | "sample_tick" => if lt (lit (1 / 2)) value then { s with samplePending := true } else s
  | _ => s

end BoolsRing

end Listeners

end NomosRt.Modulator
