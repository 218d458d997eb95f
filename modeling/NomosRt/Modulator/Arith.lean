/-
  NomosRt.Modulator.Arith

  The arithmetic of the built-in modulators that is not always defined: conversions
  from floating point to `int`, and `std::clamp`.

  For `update` and for the message that starts a modulator the operations are read off
  a description of each parameter, and the description is shown to be what `update`
  and the message do.  For `tick` they are listed; a clamp between two literals is
  listed also where it stands behind a test.
-/

import NomosRt.Modulator.GraphPhase
import NomosRt.Modulator.Start

namespace NomosRt.Modulator

open NomosRt.Lib CFloat CMath CTruncated

/-! ## Operations -/

/-- A conversion to `int` from `float` or `double`, or a clamp of `float` or `int` values. -/
inductive Arith (D F : Type*) where
  | convert (x : F)
  | convertDouble (x : D)
  | clamp (lo hi : F)
  | clampInt (lo hi : Int)
  deriving DecidableEq

/-- The operation is defined. -/
def Arith.Ok {D F : Type*} [CFloat F] [CTruncated F] [CTruncated D] : Arith D F → Prop
  | .convert x => FitsInt (truncated x)
  | .convertDouble x => FitsInt (truncated x)
  | .clamp lo hi => le lo hi = true
  | .clampInt lo hi => lo ≤ hi

/-- How `update` stores a value in the modulator. -/
inductive Param (F M : Type*) where
  | plain (set : F → M)
  | clamped (lo hi : ℚ) (set : F → M)
  | rounded (lo hi : Int) (set : Int → M)

namespace Param

variable {D F M N : Type*} [CMath F]

/-- The modulator with the value stored. -/
def result (x : F) : Param F M → M
  | .plain set => set x
  | .clamped lo hi set => set (clamp x (lit lo) (lit hi))
  | .rounded lo hi set => set (roundClamped x lo hi)

/-- The operations on the value. -/
def arith (x : F) : Param F M → List (Arith D F)
  | .plain _ => []
  | .clamped lo hi _ => [.clamp (lit lo) (lit hi)]
  | .rounded lo hi _ => [.convert (round x), .clampInt lo hi]

/-- Behind a constructor. -/
def map (f : M → N) : Param F M → Param F N
  | .plain set => .plain fun x => f (set x)
  | .clamped lo hi set => .clamped lo hi fun x => f (set x)
  | .rounded lo hi set => .rounded lo hi fun k => f (set k)

theorem result_map (f : M → N) (x : F) (p : Param F M) : (p.map f).result x = f (p.result x) := by
  cases p <;> rfl

end Param

/-! ## Parameters -/

section Params

variable {F : Type*} [CMath F]

def Slope.parameter (key : String) (s : Slope F) : Option (Param F (Slope F)) :=
  match key with
  | "rate" => some (.clamped (1 / 1000) 100 fun x => { s with rate := x })
  | "shape" => some (.clamped (-1) 1 fun x => { s with shape := x })
  | "slope" => some (.clamped (-1) 1 fun x => { s with slope := x })
  | "smoothness" => some (.clamped (-1) 1 fun x => { s with smoothness := x })
  | "depth" => some (.clamped 0 1 fun x => { s with depth := x })
  | "bipolar" => some (.plain fun x => { s with bipolar := le (lit (1 / 2)) x })
  | _ => none

/-- The value of a segment's field is clamped before the field is looked at. -/
def Segment.parameter (key : String) (s : Segment F) : Option (Param F (Segment F)) :=
  if key = "depth" then some (.clamped 0 1 fun x => { s with depth := x })
  else if key = "rate" then some (.clamped (1 / 1000) 100 fun x => { s with rate := x })
  else
    match keyTarget key.toList with
    | none => none
    | some (idx, field) =>
        if idx < 0 ∨ idx ≥ s.defs.length then none
        else some (.clamped 0 1 fun v =>
          if field = "primary".toList then
            { s with defs := s.defs.modify idx.toNat fun d => { d with primary := v } }
          else if field = "secondary".toList then
            { s with defs := s.defs.modify idx.toNat fun d => { d with secondary := v } }
          else s)

def Slew.parameter (key : String) (s : Slew F) : Option (Param F (Slew F)) :=
  match key with
  | "rise" => some (.clamped (1 / 1000) 10 fun x => { s with rise := x })
  | "fall" => some (.clamped (1 / 1000) 10 fun x => { s with fall := x })
  | "input" => some (.clamped (-1) 1 fun x => { s with input := x })
  | "depth" => some (.clamped 0 1 fun x => { s with depth := x })
  | "cycle" => some (.plain fun x => { s with cycle := lt (lit (1 / 2)) x })
  | "trig" => some (.plain fun x => if lt (lit (1 / 2)) x then { s with trigPending := true } else s)
  | _ => none

def ShiftRegister.parameter (key : String) (s : ShiftRegister F) : Option (Param F (ShiftRegister F)) :=
  match key with
  | "clock_rate" => some (.clamped (1 / 1000) 1000 fun x => { s with clockRate := x })
  | "data" => some (.clamped 0 1 fun x => { s with data := x })
  | "param" => some (.clamped 0 1 fun x => { s with param := x })
  | "depth" => some (.clamped 0 1 fun x => { s with depth := x })
  | _ => none

def Fractal.parameter (key : String) (s : Fractal F) : Option (Param F (Fractal F)) :=
  match key with
  | "base_rate" => some (.clamped (1 / 1000) 100 fun x => { s with baseRate := x })
  | "octaves" => some (.rounded 1 kMaxOctaves fun k => { s with octaves := k.toNat })
  | "lacunarity" => some (.clamped (11 / 10) 8 fun x => { s with lacunarity := x })
  | "persistence" => some (.clamped (1 / 100) 2 fun x => { s with persistence := x })
  | "shape" => some (.rounded 0 2 fun k => { s with shape := k })
  | "threshold" => some (.clamped (-1) 1 fun x => { s with threshold := x })
  | "depth" => some (.clamped 0 1 fun x => { s with depth := x })
  | _ => none

def Stochastic.parameter (key : String) (s : Stochastic F) : Option (Param F (Stochastic F)) :=
  match key with
  | "rate" => some (.clamped (1 / 1000) 100 fun x => { s with rate := x })
  | "bias" => some (.clamped 0 1 fun x => { s with bias := x })
  | "jitter" => some (.clamped 0 1 fun x => { s with jitter := x })
  | "spread" => some (.clamped 0 1 fun x => { s with spread := x })
  | "deja_vu" => some (.clamped 0 1 fun x => { s with dejaVu := x })
  | "depth" => some (.clamped 0 1 fun x => { s with depth := x })
  | "length" => some (.rounded 1 kMaxLength fun k => { s with length := k.toNat })
  | "steps" => some (.rounded 0 16 fun k => { s with steps := k.toNat })
  | _ => none

def GraphModulator.parameter (key : String) (s : GraphModulator F) :
    Option (Param F (GraphModulator F)) :=
  some (.plain fun x =>
    { s with graph := { s.graph with params := Function.update s.graph.params key (some x) } })

def ChannelDecoder.parameter (key : String) (s : ChannelDecoder F) :
    Option (Param F (ChannelDecoder F)) :=
  match key with
  | "span" => some (.clamped (-1) 1 fun x => { s with span := x })
  | "space" => some (.clamped 0 2 fun x => { s with space := x })
  | "clocked" => some (.plain fun x => { s with clocked := lt (lit (1 / 2)) x })
  | "clock_tick" => some (.plain fun x =>
      if lt (lit (1 / 2)) x then { s with clockPending := true } else s)
  | _ => none

/-- The gain at an index. -/
def DivineCmos.gainParam (i : Nat) (s : DivineCmos F) : Param F (DivineCmos F) :=
  .clamped 0 5 fun x => { s with gains := s.gains.set i x }

def DivineCmos.parameter (key : String) (s : DivineCmos F) : Option (Param F (DivineCmos F)) :=
  match key with
  | "gain0" => some (s.gainParam 0)
  | "gain1" => some (s.gainParam 1)
  | "gain2" => some (s.gainParam 2)
  | "gain3" => some (s.gainParam 3)
  | "slew" => some (.clamped 0 1 fun x => { s with slew := x })
  | "clock1_tick" => some (.plain fun x =>
      if lt (lit (1 / 2)) x then { s with clock1 := { s.clock1 with pending := true } } else s)
  | "clock2_tick" => some (.plain fun x =>
      if lt (lit (1 / 2)) x then { s with clock2 := { s.clock2 with pending := true } } else s)
  | _ => none

def Statues.parameter (key : String) (s : Statues F) : Option (Param F (Statues F)) :=
  match key with
  | "in" => some (.clamped (-1) 1 fun x => { s with inVal := x })
  | "addr" => some (.rounded 0 7 fun k => { s with addr := k, useAddrBits := false })
  | "addr0" => some (.plain fun x =>
      { s with addrBits := (lt (lit (1 / 2)) x, s.addrBits.2), useAddrBits := true })
  | "addr1" => some (.plain fun x =>
      { s with
        addrBits := (s.addrBits.1, lt (lit (1 / 2)) x, s.addrBits.2.2)
        useAddrBits := true })
  | "addr2" => some (.plain fun x =>
      { s with
        addrBits := (s.addrBits.1, s.addrBits.2.1, lt (lit (1 / 2)) x)
        useAddrBits := true })
  | _ => none

def Cipher.parameter (key : String) (s : Cipher F) : Option (Param F (Cipher F)) :=
  match key with
  | "data1" => some (.plain fun x => { s with data1 := x })
  | "data2" => some (.plain fun x => { s with data2 := x })
  | "strobe" => some (.plain fun x => { s with strobe := x })
  | "clock_tick" => some (.plain fun x =>
      if lt (lit (1 / 2)) x then { s with clockPending := true } else s)
  | "data2_enable" => some (.plain fun x =>
      { s with data2 := if lt (lit (1 / 2)) x then lit 0 else lit (-1) })
  | _ => none

def BoolsRing.parameter (key : String) (s : BoolsRing F) : Option (Param F (BoolsRing F)) :=
  match key with
  | "in0" => some (.plain fun x => { s with inputs := s.inputs.set 0 x })
  | "in1" => some (.plain fun x => { s with inputs := s.inputs.set 1 x })
  | "in2" => some (.plain fun x => { s with inputs := s.inputs.set 2 x })
  | "in3" => some (.plain fun x => { s with inputs := s.inputs.set 3 x })
  | "slew" => some (.clamped 0 1 fun x => { s with slew := x })
  | "sampled" => some (.plain fun x => { s with sampled := lt (lit (1 / 2)) x })
  | "sample_tick" => some (.plain fun x =>
      if lt (lit (1 / 2)) x then { s with samplePending := true } else s)
  | _ => none

def SlothChaos.parameter (key : String) (s : SlothChaos F) : Option (Param F (SlothChaos F)) :=
  match key with
  | "knob" => some (.clamped 0 1 fun x => { s with knob := x })
  | "cv_in" => some (.plain fun x => { s with cvIn := x })
  | _ => none

def SquidAxon.parameter (key : String) (s : SquidAxon F) : Option (Param F (SquidAxon F)) :=
  match key with
  | "nl_fb" => some (.clamped 0 4 fun x => { s with nlFb := x })
  | "lin_fb" => some (.clamped 0 1 fun x => { s with linFb := x })
  | "in1" => some (.plain fun x => { s with in1 := x })
  | "in2" => some (.plain fun x => { s with in2 := x })
  | "in3" => some (.plain fun x => { s with in3 := x })
  | "in3_patched" => some (.plain fun x => { s with in3Patched := lt (lit (1 / 2)) x })
  | "clock_tick" => some (.plain fun x =>
      if lt (lit (1 / 2)) x then { s with clockPending := true } else s)
  | _ => none

/-- A key without an index sets nothing. -/
def Genie.parameter (key : String) (s : Genie F) : Option (Param F (Genie F)) :=
  let k := key.toList
  if k.take 5 = "sense".toList then
    some (.clamped 0 5 fun x => { s with sense := setAt k x s.sense })
  else if k.take 8 = "response".toList then
    some (.clamped 1 10 fun x => { s with response := setAt k x s.response })
  else if k.take 4 = "gain".toList then
    some (.clamped 0 1 fun x => { s with gain := setAt k x s.gain })
  else if k.take 2 = "in".toList then some (.plain fun x => { s with extIn := setAt k x s.extIn })
  else none

def LetsSplosh.parameter (key : String) (s : LetsSplosh F) : Option (Param F (LetsSplosh F)) :=
  match key with
  | "c" => some (.plain fun x => { s with inputs := s.inputs.set 0 x })
  | "t" => some (.plain fun x => { s with inputs := s.inputs.set 1 x })
  | "n" => some (.plain fun x => { s with inputs := s.inputs.set 2 x })
  | "b" => some (.plain fun x => { s with inputs := s.inputs.set 3 x })
  | _ => none

/-- The parameter that a key names. -/
def BuiltinModulator.parameter (key : String) :
    BuiltinModulator F → Option (Param F (BuiltinModulator F))
  | .slope s => (s.parameter key).map (·.map .slope)
  | .segment s => (s.parameter key).map (·.map .segment)
  | .slew s => (s.parameter key).map (·.map .slew)
  | .shiftRegister s => (s.parameter key).map (·.map .shiftRegister)
  | .fractal s => (s.parameter key).map (·.map .fractal)
  | .stochastic s => (s.parameter key).map (·.map .stochastic)
  | .graph s => (s.parameter key).map (·.map .graph)
  | .channelDecoder s => (s.parameter key).map (·.map .channelDecoder)
  | .divineCmos s => (s.parameter key).map (·.map .divineCmos)
  | .statues s => (s.parameter key).map (·.map .statues)
  | .cipher s => (s.parameter key).map (·.map .cipher)
  | .boolsRing s => (s.parameter key).map (·.map .boolsRing)
  | .slothChaos s => (s.parameter key).map (·.map .slothChaos)
  | .squidAxon s => (s.parameter key).map (·.map .squidAxon)
  | .genie s => (s.parameter key).map (·.map .genie)
  | .letsSplosh s => (s.parameter key).map (·.map .letsSplosh)

/-- The modulator with a value stored in a parameter, if there is one. -/
def stored {M : Type*} (x : F) (s : M) (p : Option (Param F M)) : M :=
  (p.map (·.result x)).getD s

theorem stored_map {M N : Type*} (f : M → N) (x : F) (s : M) (p : Option (Param F M)) :
    stored x (f s) (p.map (·.map f)) = f (stored x s p) := by
  cases p with
  | none => rfl
  | some p => exact p.result_map f x

/-- `update` stores the value in the parameter the key names. -/
theorem BuiltinModulator.update_eq (key : String) (x : F) (mod : BuiltinModulator F) :
    mod.update key x = stored x mod (mod.parameter key) := by
  -- `update` and `parameter` ask for the keys in the same order
  cases mod with
  | slope s =>
      rw [update, parameter, stored_map]
      unfold Slope.update Slope.parameter
      split <;> simp_all [stored, Param.result]
  | segment s =>
      rw [update, parameter, stored_map]
      unfold Segment.update Segment.parameter
      split_ifs
      · rfl
      · rfl
      -- `segment_<i>_primary` and `segment_<i>_secondary`
      · cases hkey : Segment.keyTarget key.toList with
        | none => rfl
        | some target =>
            simp only
            split_ifs <;> simp_all [stored, Param.result]
  | slew s =>
      rw [update, parameter, stored_map]
      unfold Slew.update Slew.parameter
      split <;> simp_all [stored, Param.result]
  | shiftRegister s =>
      rw [update, parameter, stored_map]
      unfold ShiftRegister.update ShiftRegister.parameter
      split <;> simp_all [stored, Param.result]
  | fractal s =>
      rw [update, parameter, stored_map]
      unfold Fractal.update Fractal.parameter
      split <;> simp_all [stored, Param.result]
  | stochastic s =>
      rw [update, parameter, stored_map]
      unfold Stochastic.update Stochastic.parameter
      split <;> simp_all [stored, Param.result]
  | graph s => rfl
  | channelDecoder s =>
      rw [update, parameter, stored_map]
      unfold ChannelDecoder.update ChannelDecoder.parameter
      split <;> simp_all [stored, Param.result]
  | divineCmos s =>
      rw [update, parameter, stored_map]
      unfold DivineCmos.update DivineCmos.parameter
      split <;> simp_all [stored, Param.result, DivineCmos.gainParam]
  | statues s =>
      rw [update, parameter, stored_map]
      unfold Statues.update Statues.parameter
      split <;> simp_all [stored, Param.result]
  | cipher s =>
      rw [update, parameter, stored_map]
      unfold Cipher.update Cipher.parameter
      split <;> simp_all [stored, Param.result]
  | boolsRing s =>
      rw [update, parameter, stored_map]
      unfold BoolsRing.update BoolsRing.parameter
      split <;> simp_all [stored, Param.result]
  | slothChaos s =>
      rw [update, parameter, stored_map]
      unfold SlothChaos.update SlothChaos.parameter
      split <;> simp_all [stored, Param.result]
  | squidAxon s =>
      rw [update, parameter, stored_map]
      unfold SquidAxon.update SquidAxon.parameter
      split <;> simp_all [stored, Param.result]
  | genie s =>
      rw [update, parameter, stored_map]
      unfold Genie.update Genie.parameter
      dsimp only
      split_ifs <;> rfl
  | letsSplosh s =>
      rw [update, parameter, stored_map]
      unfold LetsSplosh.update LetsSplosh.parameter
      split <;> simp_all [stored, Param.result]

end Params

/-! ## Starting a modulator -/

section Starting

variable {D F : Type*} [CMath F] [CNarrow D F]

/-- The calls of `update` with `get_f`. -/
def getUpdates (params : List (String × String × ℚ)) (m : Entries D) : List (String × F) :=
  params.map fun p => (p.1, getF p.2.1 p.2.2 m)

/-- The gains of `divine-cmos`. -/
def gainUpdates (m : Entries D) : List (String × F) :=
  match Edn.findKw "gains" m with
  | some (.vector items) =>
      ((items.take 4).map fun v => (number v).getD (lit 1)).zipIdx.map fun g =>
        (indexedKey "gain" g.2, g.1)
  | _ => []

/-- One call of `apply_vec_param`. -/
def vecUpdates (kw stem : String) (m : Entries D) : List (String × F) :=
  match Edn.findKw kw m with
  | some (.vector items) =>
      ((items.take kMaxN).map doubleOnly).zipIdx.filterMap fun g =>
        g.1.map fun x => (indexedKey stem g.2, x)
  | _ => []

/-- The calls of `update` for a type, in order. -/
def startUpdates (typeName : String) (m : Entries D) : List (String × F) :=
  match typeName with
  | "slope" => getUpdates
      [("rate", "rate", 1), ("shape", "shape", 0), ("slope", "slope", 0),
        ("smoothness", "smoothness", 0), ("depth", "depth", 1), ("bipolar", "bipolar", 1)] m
  | "slew" => getUpdates
      [("rise", "rise", 1 / 10), ("fall", "fall", 1 / 10), ("cycle", "cycle", 0),
        ("depth", "depth", 1)] m
  | "shift-register" => getUpdates
      [("clock_rate", "clock_rate", 2), ("data", "data", 1 / 2), ("param", "param", 1 / 2),
        ("depth", "depth", 1)] m
  | "fractal" => getUpdates
      [("base_rate", "base_rate", 1 / 10), ("octaves", "octaves", 4),
        ("lacunarity", "lacunarity", 2), ("persistence", "persistence", 1 / 2),
        ("depth", "depth", 1)] m
  | "stochastic" => getUpdates
      [("rate", "rate", 2), ("bias", "bias", 1 / 2), ("spread", "spread", 1 / 2),
        ("deja_vu", "deja_vu", 0), ("length", "length", 8), ("depth", "depth", 1)] m
  | "cv-channel-decoder" =>
      getUpdates [("space", "space", 1), ("clocked", "clocked", 0)] m ++
        -- `:span` names a source or is a number; only a number is an update
        (((Edn.findKw "span" m).bind number).toList.map fun x => ("span", x))
  | "divine-cmos" => gainUpdates m ++ getUpdates [("slew", "slew", 0)] m
  | "bools-ring" => getUpdates [("slew", "slew", 0)] m
  | "sloth-chaos" => getUpdates [("knob", "knob", 1 / 2)] m
  | "squid-axon" =>
      getUpdates [("nl_fb", "nl-fb", 0), ("lin_fb", "lin-fb", 0)] m ++
        if (Edn.findKw "in3" m).isSome then [("in3_patched", lit 1)] else []
  | "genie" =>
      vecUpdates "gains" "gain" m ++ vecUpdates "sense" "sense" m ++
        vecUpdates "response" "response" m
  | _ => []

/-- The value of `:channels` that is converted. -/
def channelsArith (m : Entries D) : List (Arith D F) :=
  match Edn.findKw "channels" m with
  | some (.double x) => [.convertDouble x]
  | _ => []

/-- The modulator of a type before any `update`, and the operations up to there. -/
def constructed [CTrunc D] (typeName : String) (m : Entries D) :
    Option (BuiltinModulator F × List (Arith D F)) :=
  match typeName with
  | "slope" => some (.slope Slope.make, [])
  | "segment" => (buildSegment m).map fun s => (.segment s, [.clampInt 1 kMaxSegments])
  | "slew" => some (.slew Slew.make, [])
  | "shift-register" =>
      let length : F := getF "length" 16 m
      let dacBits : F := getF "dac_bits" 3 m
      some (.shiftRegister (ShiftRegister.make
          (keywordIn shiftRegisterModes .turing (Edn.findKw "mode" m)) (toInt length) (toInt dacBits)),
        -- the constructor clamps the DAC's bits by the length it has just clamped
        [.convert length, .convert dacBits, .clampInt 2 32,
          .clampInt 1 (Min.min (clampInt (toInt length) 2 32) 8)])
  | "fractal" => some (.fractal Fractal.make, [])
  | "stochastic" => some (.stochastic Stochastic.make, [])
  | "graph" => (buildGraph m).map fun s => (.graph s, [])
  | "cv-channel-decoder" =>
      some (.channelDecoder (ChannelDecoder.make (channelsOf (Edn.findKw "channels" m))
          ((nameAt (Edn.findKw "span" m) 0).getD "") (spanField (Edn.findKw "span" m))),
        channelsArith m ++ [.clampInt 1 kMaxChannels])
  | "divine-cmos" =>
      some (.divineCmos (DivineCmos.make (getSrc "clock1" m) (getSrc "clock2" m)), [])
  | "statues" => some (.statues (buildStatues m), [])
  | "cipher" => some (.cipher (buildCipher m), [])
  | "bools-ring" =>
      some (.boolsRing (BoolsRing.make (keywordIn ringModes .xorMode (Edn.findKw "mode" m))
        (getInsSrc "in0" m) (getInsSrc "in1" m) (getInsSrc "in2" m) (getInsSrc "in3" m) ""), [])
  | "sloth-chaos" =>
      some (.slothChaos (SlothChaos.make (keywordIn slothVariants .torpor (Edn.findKw "variant" m))
        (getSrc "cv" m)), [])
  | "squid-axon" =>
      some (.squidAxon (SquidAxon.make (getSrc "clock" m) (getSrc "in1" m) (getSrc "in2" m)
        (getSrc "in3" m)), [])
  | "genie" =>
      let n : F := getF "n" 3 m
      some (.genie (Genie.make (toInt n) (List.replicate kMaxN "")),
        [.convert n, .clampInt 2 kMaxN])
  | "lets-splosh" => some (.letsSplosh (buildLetsSplosh m), [])
  | _ => none

/-- A modulator after some calls of `update`. -/
def updated (us : List (String × F)) (mod : BuiltinModulator F) : BuiltinModulator F :=
  us.foldl (fun mod u => mod.update u.1 u.2) mod

theorem updated_divineCmos (us : List (String × F)) (s : DivineCmos F) :
    updated us (.divineCmos s) = .divineCmos (us.foldl (fun s u => s.update u.1 u.2) s) := by
  induction us generalizing s with
  | nil => rfl
  | cons u us ih => exact ih _

theorem updated_genie (us : List (String × F)) (s : Genie F) :
    updated us (.genie s) = .genie (us.foldl (fun s u => s.update u.1 u.2) s) := by
  induction us generalizing s with
  | nil => rfl
  | cons u us ih => exact ih _

theorem applyVecParam_eq (kw stem : String) (m : Entries D) (s : Genie F) :
    applyVecParam kw stem m s = (vecUpdates kw stem m).foldl (fun s u => s.update u.1 u.2) s := by
  rw [applyVecParam, vecUpdates]
  generalize Edn.findKw kw m = v
  rcases v with - | v
  · rfl
  · cases v with
    | vector items =>
        dsimp only
        generalize ((items.take kMaxN).map (doubleOnly (F := F))).zipIdx = gs
        induction gs generalizing s with
        | nil => rfl
        | cons g gs ih =>
            obtain ⟨x, i⟩ := g
            cases x with
            | none => exact ih s
            | some x => exact ih _
    | _ => rfl

theorem buildDivineCmos_eq (m : Entries D) :
    (.divineCmos (buildDivineCmos m) : BuiltinModulator F) =
      updated (gainUpdates m ++ getUpdates [("slew", "slew", 0)] m)
        (.divineCmos (DivineCmos.make (getSrc "clock1" m) (getSrc "clock2" m))) := by
  rw [updated_divineCmos, List.foldl_append, buildDivineCmos, gainUpdates]
  generalize Edn.findKw "gains" m = v
  rcases v with - | v
  · rfl
  · cases v with
    | vector items =>
        simp only [List.foldl_map]
        rfl
    | _ => rfl

/-- A message starts what is constructed, after the updates. -/
theorem buildModulator_eq [CTrunc D] (typeName : String) (m : Entries D) :
    (buildModulator typeName m : Option (BuiltinModulator F)) =
      (constructed typeName m).map fun p => updated (startUpdates typeName m) p.1 := by
  unfold buildModulator
  split
  -- the cases that are not by computation: a builder that may fail, an optional update, or a
  -- loop over a vector
  case h_2 =>
    rw [constructed]
    cases buildSegment (F := F) m <;> rfl
  case h_7 =>
    rw [constructed]
    cases buildGraph (F := F) m <;> rfl
  case h_8 =>
    rw [constructed, startUpdates, buildChannelDecoder]
    cases (Edn.findKw "span" m).bind (number (F := F)) <;> rfl
  case h_9 =>
    rw [buildDivineCmos_eq]
    rfl
  case h_14 =>
    rw [constructed, startUpdates, buildSquidAxon]
    split_ifs <;> rfl
  case h_15 =>
    rw [constructed, startUpdates, buildGenie, Option.map_some, updated_genie, List.foldl_append,
      List.foldl_append, ← applyVecParam_eq, ← applyVecParam_eq, ← applyVecParam_eq]
  case h_17 =>
    unfold constructed
    split <;> simp_all
  all_goals rfl

end Starting

/-! ## Ticking -/

section Ticking

variable {D F : Type*} [CMath F] [CNarrow D F]

/-- `seg_phase`: the phase that a tick moves to, in segments. -/
def Segment.segPhase (rate : F) (s : Segment F) : F :=
  let phase := s.phase + s.rate / rate
  (if le (lit 1) phase then phase - lit 1 else phase) * CFloat.ofInt s.defs.length

/-- It is what the index of the current segment is converted from. -/
theorem Segment.curSeg_tick {rate : F} (hrate : le rate (lit 0) = false) (s : Segment F) :
    (s.tick rate).2.curSeg = (toInt (s.segPhase rate)).tmod s.defs.length := by
  have hphase : (if le (lit 1) (s.phase + s.rate / rate) then
        (s.phase + s.rate / rate - lit 1, s.cycleCount + 1)
      else (s.phase + s.rate / rate, s.cycleCount)).1 * CFloat.ofInt (s.defs.length : Int) =
      s.segPhase rate := by
    rw [segPhase]
    split_ifs <;> rfl
  rw [tick, if_neg (by rw [hrate]; exact Bool.false_ne_true)]
  simp only [hphase]
  split_ifs with hnew
  · rfl
  · exact (not_not.mp hnew).symm

/-- The operations of `eval_node`. -/
def nodeArith (env : TickEnv D F) (n : CgNode F) (inp : Nat → F) : List (Arith D F) :=
  match n.type with
  | .modRef => if (env.lastOutput n.paramKey).isSome then [.convert n.arg] else []
  | .clamp => [.clamp (inp 1) (inp 2)]
  | .mix => [.clamp (lit 0) (lit 1)]
  | _ => []

/-- Round `i` of the forward pass. -/
def roundArith (env : TickEnv D F) (s : List (CgNode F) × List F) (i : Nat) : List (Arith D F) :=
  match s.1[i]? with
  | none => []
  | some n => nodeArith env n fun slot => readIndex s.2 (n.inputs.getD slot (-1))

/-- The rounds that are left. -/
def passArith (env : TickEnv D F) : List Nat → List (CgNode F) × List F → List (Arith D F)
  | [], _ => []
  | i :: is, s => roundArith env s i ++ passArith env is (passRound env s i)

/-- `graph_modulator::tick`. -/
def GraphModulator.tickArith (view : OutputView F) (beat : D) (rate : F) (m : GraphModulator F) :
    List (Arith D F) :=
  passArith (m.env view beat rate) (List.range m.graph.nodes.length)
    (m.graph.nodes, resize m.values m.graph.nodes.length)

/-- `tick`; clamps with the same bounds are listed once. -/
def BuiltinModulator.tickArith (view : OutputView F) (beat : D) (rate : F) :
    BuiltinModulator F → List (Arith D F)
  | .slope _ => [.clamp (lit (1 / 100)) (lit (99 / 100))]
  | .segment s =>
      if le rate (lit 0) then [] else [.convert (s.segPhase rate), .clamp (lit 0) (lit 1)]
  | .slew _ => []
  | .shiftRegister _ => []
  | .fractal _ => [.clamp (lit (-1)) (lit 1)]
  | .stochastic _ => [.clamp (lit 0) (lit 1)]
  | .graph s => s.tickArith view beat rate
  | .channelDecoder _ => []
  | .divineCmos _ => []
  | .statues _ => [.clampInt 0 7]
  | .cipher _ => []
  | .boolsRing _ => []
  | .slothChaos _ => [.clamp (lit 0) (lit 1)]
  | .squidAxon _ => [.clamp (lit 0) (lit 1)]
  | .genie _ => [.clamp (lit 0) (lit 10), .clamp (lit 0) (lit 1)]
  | .letsSplosh _ => []

/-- A pass without a buffer. -/
def evalArith (env : TickEnv D F) : List (CgNode F) → List F → List (Arith D F)
  | [], _ => []
  | n :: ns, vals =>
      nodeArith env n (fun slot => readIndex vals (n.inputs.getD slot (-1))) ++
        evalArith env ns (vals ++ [(evalNode env n vals).1])

theorem foldl_passArith (env : TickEnv D F) (todo done : List (CgNode F)) (vals stale : List F)
    (hdone : done.length = vals.length) (hstale : stale.length = todo.length)
    (hlink : Linked vals.length todo) :
    passArith env (List.range' vals.length todo.length) (done ++ todo, vals ++ stale) =
      evalArith env todo vals := by
  induction todo generalizing done vals stale with
  | nil => rfl
  | cons n ns ih =>
      obtain ⟨old, stale, rfl⟩ : ∃ old rest, stale = old :: rest := by
        cases stale with
        | nil => simp at hstale
        | cons old rest => exact ⟨old, rest, rfl⟩
      rw [linked_cons] at hlink
      have hround : roundArith env (done ++ n :: ns, vals ++ old :: stale) vals.length =
          nodeArith env n fun slot => readIndex vals (n.inputs.getD slot (-1)) := by
        have hget : (done ++ n :: ns)[vals.length]? = some n := by simp [← hdone]
        simp only [roundArith, hget, readIndex_input hlink.1]
      rw [List.length_cons, List.range'_succ, passArith, passRound_append env hlink.1 hdone, hround,
        evalArith]
      have hih := ih (done ++ [(evalNode env n vals).2]) (vals ++ [(evalNode env n vals).1]) stale
        (by simp [hdone]) (by simpa using hstale) (by simpa using hlink.2)
      rw [List.length_append, List.length_singleton] at hih
      rw [hih]

theorem mem_evalArith {env : TickEnv D F} {a : Arith D F} {nodes : List (CgNode F)}
    {vals : List F} : a ∈ evalArith env nodes vals ↔
      ∃ (i : Nat) (n : CgNode F), nodes[i]? = some n ∧ a ∈ nodeArith env n fun slot =>
        readIndex (evalCode env (nodes.take i) vals).2 (n.inputs.getD slot (-1)) := by
  induction nodes generalizing vals with
  | nil => simp [evalArith]
  | cons m ns ih =>
      rw [evalArith, List.mem_append, ih]
      constructor
      · rintro (h | ⟨i, n, hn, h⟩)
        · exact ⟨0, m, rfl, h⟩
        · exact ⟨i + 1, n, hn, h⟩
      · rintro ⟨i, n, hn, h⟩
        cases i with
        | zero =>
            obtain rfl : m = n := Option.some.inj hn
            exact .inl h
        | succ i => exact .inr ⟨i, n, hn, h⟩

/-- The operations of a tick: those of every node, on what its inputs evaluate to. -/
theorem GraphModulator.mem_tickArith {m : GraphModulator F} (hlink : Linked 0 m.graph.nodes)
    {view : OutputView F} {beat : D} {rate : F} {a : Arith D F} :
    a ∈ m.tickArith view beat rate ↔
      ∃ (i : Nat) (n : CgNode F), m.graph.nodes[i]? = some n ∧
        a ∈ nodeArith (m.env view beat rate) n
          (inputAt (m.env view beat rate) m.graph.nodes i n) := by
  have hpass := foldl_passArith (m.env view beat rate) m.graph.nodes [] [] _ rfl
    (length_resize m.values m.graph.nodes.length) hlink
  rw [GraphModulator.tickArith, List.range_eq_range']
  have : passArith (m.env view beat rate) (List.range' 0 m.graph.nodes.length)
      (m.graph.nodes, resize m.values m.graph.nodes.length) =
      evalArith (m.env view beat rate) m.graph.nodes [] := hpass
  rw [this]
  exact mem_evalArith

end Ticking

end NomosRt.Modulator
