/-
  NomosRt.Modulator.Start

  `msg_modulator_start`: from the payload to a modulator of one of the built-in types.

  The handler reads numbers in several places.  `get_f`, `get_sf`, the loop over
  `:params`, `:span` and the gains of `divine-cmos` take a double or an integer, and so
  does `:channels`; the vectors of `genie` take doubles only.  Types that are not built
  in are looked up in a registry of extensions, which is outside this model.
-/

import NomosRt.Modulator.Circuits

namespace NomosRt.Modulator

open NomosRt.Lib CFloat CMath

/-! ## The built-in modulators -/

/-- The built-in subclasses of `abstract_modulator`. -/
inductive BuiltinModulator (F : Type*) where
  | slope (s : Slope F)
  | segment (s : Segment F)
  | slew (s : Slew F)
  | shiftRegister (s : ShiftRegister F)
  | fractal (s : Fractal F)
  | stochastic (s : Stochastic F)
  | graph (s : GraphModulator F)
  | channelDecoder (s : ChannelDecoder F)
  | divineCmos (s : DivineCmos F)
  | statues (s : Statues F)
  | cipher (s : Cipher F)
  | boolsRing (s : BoolsRing F)
  | slothChaos (s : SlothChaos F)
  | squidAxon (s : SquidAxon F)
  | genie (s : Genie F)
  | letsSplosh (s : LetsSplosh F)

namespace BuiltinModulator

variable {D F : Type*} [CMath F]

/-- `tick`. -/
def tick [CNarrow D F] (view : OutputView F) (beat : D) (rate : F) :
    BuiltinModulator F → ModulatorOutput F × BuiltinModulator F
  | .slope s => (s.tick rate).map id .slope
  | .segment s => (s.tick rate).map id .segment
  | .slew s => (s.tick rate).map id .slew
  | .shiftRegister s => (s.tick rate).map id .shiftRegister
  | .fractal s => (s.tick rate).map id .fractal
  | .stochastic s => (s.tick rate).map id .stochastic
  | .graph s => (s.tick view beat rate).map id .graph
  | .channelDecoder s => (s.tick view rate).map id .channelDecoder
  | .divineCmos s => (s.tick view rate).map id .divineCmos
  | .statues s => (s.tick view).map id .statues
  | .cipher s => (s.tick view).map id .cipher
  | .boolsRing s => (s.tick view rate).map id .boolsRing
  | .slothChaos s => (s.tick view rate).map id .slothChaos
  | .squidAxon s => (s.tick view).map id .squidAxon
  | .genie s => (s.tick view).map id .genie
  | .letsSplosh s => (s.tick view).map id .letsSplosh

/-- `update`. -/
def update (key : String) (value : F) : BuiltinModulator F → BuiltinModulator F
  | .slope s => .slope (s.update key value)
  | .segment s => .segment (s.update key value)
  | .slew s => .slew (s.update key value)
  | .shiftRegister s => .shiftRegister (s.update key value)
  | .fractal s => .fractal (s.update key value)
  | .stochastic s => .stochastic (s.update key value)
  | .graph s => .graph (s.update key value)
  | .channelDecoder s => .channelDecoder (s.update key value)
  | .divineCmos s => .divineCmos (s.update key value)
  | .statues s => .statues (s.update key value)
  | .cipher s => .cipher (s.update key value)
  | .boolsRing s => .boolsRing (s.update key value)
  | .slothChaos s => .slothChaos (s.update key value)
  | .squidAxon s => .squidAxon (s.update key value)
  | .genie s => .genie (s.update key value)
  | .letsSplosh s => .letsSplosh (s.update key value)

/-- The outputs of the ticks of a run. -/
def outputs [CNarrow D F] :
    List (ModulatorCall String String (ModulatorOutput F) D F) → BuiltinModulator F →
      List (ModulatorOutput F)
  | [], _ => []
  | .tick view beat rate :: calls, s =>
      (s.tick view beat rate).1 :: outputs calls (s.tick view beat rate).2
  | .update key value :: calls, s => outputs calls (s.update key value)

/-- The outputs of the ticks of a run, each with the modulator that is ticked. -/
def shown [CNarrow D F] :
    List (ModulatorCall String String (ModulatorOutput F) D F) → BuiltinModulator F →
      List (BuiltinModulator F × ModulatorOutput F)
  | [], _ => []
  | .tick view beat rate :: calls, s =>
      (s, (s.tick view beat rate).1) :: shown calls (s.tick view beat rate).2
  | .update key value :: calls, s => shown calls (s.update key value)

theorem map_snd_shown [CNarrow D F]
    (calls : List (ModulatorCall String String (ModulatorOutput F) D F)) (s : BuiltinModulator F) :
    (s.shown calls).map Prod.snd = s.outputs calls := by
  induction calls generalizing s with
  | nil => rfl
  | cons call calls ih =>
      cases call with
      | tick view beat rate => exact congrArg _ (ih _)
      | update key value => exact ih _

end BuiltinModulator

/-! ## Reading a payload -/

/-- The entries of a parsed map. -/
abbrev Entries (D : Type*) := List (Edn D × Edn D)

section Reading

variable {D F : Type*} [CFloat F] [CNarrow D F]

/-- A number, double or integer. -/
def number : Edn D → Option F
  | .double x => some (CNarrow.narrow x)
  | .int n => some (CFloat.ofInt n)
  | _ => none

/-- `get_f` and `get_sf`. -/
def getF (kw : String) (dflt : ℚ) (m : Entries D) : F :=
  ((Edn.findKw kw m).bind number).getD (lit dflt)

/-- The name of a keyword. -/
def keywordName : Edn D → Option String
  | .keyword name => some name
  | _ => none

/-- A keyword looked up in a table. -/
def keywordIn {α : Type*} (table : List (String × α)) (dflt : α) (v : Option (Edn D)) : α :=
  (((v.bind keywordName).bind fun name => table.lookup name)).getD dflt

/-- The keywords of a vector, `none` for an item that is not one. -/
def vectorKeywords : Edn D → List (Option String)
  | .vector items => items.map keywordName
  | _ => []

/-- The name at index `i` of a vector of keywords. -/
def nameAt (v : Option (Edn D)) (i : Nat) : Option String :=
  (v.bind fun v => (vectorKeywords v)[i]?).bind id

/-- `get_src`. -/
def getSrc (kw : String) (m : Entries D) : String := (nameAt (Edn.findKw kw m) 0).getD ""

/-- `get_in_src`, `get_ins_src`. -/
def getInsSrc (kw : String) (m : Entries D) : String :=
  match Edn.findKw "ins" m with
  | some (.map ins) => getSrc kw ins
  | _ => ""

/-- `mod->update(key, get_f(kw, dflt))` for each of some parameters. -/
def applied {M : Type*} (update : String → F → M → M) (params : List (String × String × ℚ))
    (m : Entries D) (mod : M) : M :=
  params.foldl (fun mod p => update p.1 (getF p.2.1 p.2.2 m) mod) mod

end Reading

/-! ## One constructor for each type -/

section Build

variable {D F : Type*} [CMath F] [CNarrow D F]

/-- `slope`. -/
def buildSlope (m : Entries D) : Slope F :=
  applied Slope.update
    [("rate", "rate", 1), ("shape", "shape", 0), ("slope", "slope", 0),
      ("smoothness", "smoothness", 0), ("depth", "depth", 1), ("bipolar", "bipolar", 1)] m
    Slope.make

/-- The `type_map` of `segment`. -/
def segmentTypes : List (String × SegmentType) :=
  [("ramp", .ramp), ("step", .step), ("hold", .hold), ("alt", .alt)]

/-- Neither nil nor false. -/
def isTruthy : Edn D → Bool
  | .nil => false
  | .bool b => b
  | _ => true

/-- One item of `:segments`. -/
def segmentDefOf : Edn D → Option (SegmentDef F)
  | .map sm => some
      { kind := keywordIn segmentTypes .ramp (Edn.findKw "type" sm)
        primary := getF "primary" (1 / 2) sm
        secondary := getF "secondary" (1 / 2) sm
        loop := ((Edn.findKw "loop" sm).map isTruthy).getD false }
  | _ => none

/-- `segment`; without a segment nothing is started. -/
def buildSegment (m : Entries D) : Option (Segment F) :=
  match Edn.findKw "segments" m with
  | some (.vector items) =>
      -- items that are not maps are skipped
      match items.filterMap segmentDefOf with
      | [] => none
      | defs => some (Segment.make defs)
  | _ => none

/-- `slew`. -/
def buildSlew (m : Entries D) : Slew F :=
  applied Slew.update
    [("rise", "rise", 1 / 10), ("fall", "fall", 1 / 10), ("cycle", "cycle", 0),
      ("depth", "depth", 1)] m
    Slew.make

/-- The `mode_map` of `shift-register`. -/
def shiftRegisterModes : List (String × SrMode) :=
  [("lfsr", .lfsr), ("rungler", .rungler), ("turing", .turing), ("open", .open)]

/-- `shift-register`. -/
def buildShiftRegister (m : Entries D) : ShiftRegister F :=
  let mode := keywordIn shiftRegisterModes .turing (Edn.findKw "mode" m)
  -- fixed by the constructor; what `applied` sets can be updated later
  let length := toInt (getF "length" 16 m : F)
  let dacBits := toInt (getF "dac_bits" 3 m : F)
  applied ShiftRegister.update
    [("clock_rate", "clock_rate", 2), ("data", "data", 1 / 2), ("param", "param", 1 / 2),
      ("depth", "depth", 1)] m
    (ShiftRegister.make mode length dacBits)

/-- `fractal`. -/
def buildFractal (m : Entries D) : Fractal F :=
  applied Fractal.update
    [("base_rate", "base_rate", 1 / 10), ("octaves", "octaves", 4),
      ("lacunarity", "lacunarity", 2), ("persistence", "persistence", 1 / 2),
      ("depth", "depth", 1)] m
    Fractal.make

/-- `stochastic`. -/
def buildStochastic (m : Entries D) : Stochastic F :=
  applied Stochastic.update
    [("rate", "rate", 2), ("bias", "bias", 1 / 2), ("spread", "spread", 1 / 2),
      ("deja_vu", "deja_vu", 0), ("length", "length", 8), ("depth", "depth", 1)] m
    Stochastic.make

/-- One entry of `:params`; a later entry for the same keyword overwrites. -/
def addParam (params : String → Option F) (entry : Edn D × Edn D) : String → Option F :=
  match keywordName entry.1, number entry.2 with
  | some name, some x => Function.update params name (some x)
  | _, _ => params

/-- `:params`. -/
def graphParams : Option (Edn D) → String → Option F
  | some (.map entries) => entries.foldl addParam fun _ => none
  | _ => fun _ => none

/-- `graph`; without `:graph` nothing is started. -/
def buildGraph (m : Entries D) : Option (GraphModulator F) :=
  (Edn.findKw "graph" m).map fun v =>
    GraphModulator.make (parseControlGraph v (graphParams (Edn.findKw "params" m)))

/-- `:channels`. -/
def channelsOf [CTrunc D] : Option (Edn D) → Int
  | some (.int n) => Int.bmod n (2 ^ 32) -- from `int64_t` to `int`
  | some (.double x) => CTrunc.trunc x
  | _ => 1

/-- The field that `:span` names. -/
def spanField (v : Option (Edn D)) : SourceField :=
  match nameAt v 1 with
  | some "aux" => .aux
  | some "gate" => .gate
  | _ => .cv

/-- `cv-channel-decoder`. -/
def buildChannelDecoder [CTrunc D] (m : Entries D) : ChannelDecoder F :=
  let span := Edn.findKw "span" m
  let mod := applied ChannelDecoder.update [("space", "space", 1), ("clocked", "clocked", 0)] m
    (ChannelDecoder.make (channelsOf (Edn.findKw "channels" m)) ((nameAt span 0).getD "")
      (spanField span))
  -- a static span; a vector is not a number
  match span.bind number with
  | some x => mod.update "span" x
  | none => mod

/-- `std::string{stem} + char('0' + i)`. -/
def indexedKey (stem : String) (i : Nat) : String := stem.push (Char.ofNat ('0'.toNat + i))

/-- `divine-cmos`. -/
def buildDivineCmos (m : Entries D) : DivineCmos F :=
  let mod := DivineCmos.make (getSrc "clock1" m) (getSrc "clock2" m)
  let mod := match Edn.findKw "gains" m with
    | some (.vector items) =>
        -- an item that is no number sets 1, unlike in `genie`
        ((items.take 4).map fun v => (number v : Option F).getD (lit 1)).zipIdx.foldl
          (fun mod g => mod.update (indexedKey "gain" g.2) g.1) mod
    | _ => mod
  applied DivineCmos.update [("slew", "slew", 0)] m mod

/-- `statues`. -/
def buildStatues (m : Entries D) : Statues F := Statues.make (getSrc "in" m) (getSrc "addr" m)

/-- `cipher`. -/
def buildCipher (m : Entries D) : Cipher F :=
  Cipher.make (getSrc "clock" m) (getSrc "data1" m) (getSrc "data2" m) (getSrc "strobe" m)

/-- The `mode_map` of `bools-ring`. -/
def ringModes : List (String × RingMode) :=
  [("xor", .xorMode), ("or", .orMode), ("and", .andMode), ("nor", .norMode), ("nand", .nandMode),
    ("xnor", .xnorMode)]

/-- `bools-ring`. -/
def buildBoolsRing (m : Entries D) : BoolsRing F :=
  applied BoolsRing.update [("slew", "slew", 0)] m
    (BoolsRing.make (keywordIn ringModes .xorMode (Edn.findKw "mode" m)) (getInsSrc "in0" m)
      (getInsSrc "in1" m) (getInsSrc "in2" m) (getInsSrc "in3" m) "")

/-- The `variant_map` of `sloth-chaos`. -/
def slothVariants : List (String × SlothVariant) :=
  [("torpor", .torpor), ("apathy", .apathy), ("inertia", .inertia), ("triple", .triple)]

/-- `sloth-chaos`. -/
def buildSlothChaos (m : Entries D) : SlothChaos F :=
  applied SlothChaos.update [("knob", "knob", 1 / 2)] m
    (SlothChaos.make (keywordIn slothVariants .torpor (Edn.findKw "variant" m)) (getSrc "cv" m))

/-- `squid-axon`. -/
def buildSquidAxon (m : Entries D) : SquidAxon F :=
  let mod := applied SquidAxon.update [("nl_fb", "nl-fb", 0), ("lin_fb", "lin-fb", 0)] m
    (SquidAxon.make (getSrc "clock" m) (getSrc "in1" m) (getSrc "in2" m) (getSrc "in3" m))
  -- any value under `:in3` counts as patched, also one that names no source
  if (Edn.findKw "in3" m).isSome then mod.update "in3_patched" (lit 1) else mod

/-- A double; an integer is not read. -/
def doubleOnly : Edn D → Option F
  | .double x => some (CNarrow.narrow x)
  | _ => none

/-- `apply_vec_param`. -/
def applyVecParam (kw stem : String) (m : Entries D) (mod : Genie F) : Genie F :=
  match Edn.findKw kw m with
  | some (.vector items) =>
      ((items.take kMaxN).map doubleOnly).zipIdx.foldl
        (fun mod g => match g.1 with
          | some x => mod.update (indexedKey stem g.2) x
          | none => mod) mod
  | _ => mod

/-- `genie`. -/
def buildGenie (m : Entries D) : Genie F :=
  let mod := Genie.make (toInt (getF "n" 3 m : F)) (List.replicate kMaxN "")
  applyVecParam "response" "response" m
    (applyVecParam "sense" "sense" m (applyVecParam "gains" "gain" m mod))

/-- `lets-splosh`. -/
def buildLetsSplosh (m : Entries D) : LetsSplosh F :=
  LetsSplosh.make (getInsSrc "c" m) (getInsSrc "t" m) (getInsSrc "n" m) (getInsSrc "b" m)

/-! ## The message -/

/-- The chain of tests on the type's name. -/
def buildModulator [CTrunc D] (typeName : String) (m : Entries D) : Option (BuiltinModulator F) :=
  match typeName with
  | "slope" => some (.slope (buildSlope m))
  | "segment" => (buildSegment m).map .segment
  | "slew" => some (.slew (buildSlew m))
  | "shift-register" => some (.shiftRegister (buildShiftRegister m))
  | "fractal" => some (.fractal (buildFractal m))
  | "stochastic" => some (.stochastic (buildStochastic m))
  | "graph" => (buildGraph m).map .graph
  | "cv-channel-decoder" => some (.channelDecoder (buildChannelDecoder m))
  | "divine-cmos" => some (.divineCmos (buildDivineCmos m))
  | "statues" => some (.statues (buildStatues m))
  | "cipher" => some (.cipher (buildCipher m))
  | "bools-ring" => some (.boolsRing (buildBoolsRing m))
  | "sloth-chaos" => some (.slothChaos (buildSlothChaos m))
  | "squid-axon" => some (.squidAxon (buildSquidAxon m))
  | "genie" => some (.genie (buildGenie m))
  | "lets-splosh" => some (.letsSplosh (buildLetsSplosh m))
  | _ => none

/-- The id, empty if it is neither a keyword nor a string. -/
def modulatorId : Edn D → List Byte
  | .keyword name => (name.toList.flatMap String.utf8EncodeChar).map UInt8.toBitVec
  | .string s => s
  | _ => []

/-- The id and the modulator that the message starts, if any. -/
def modulatorStart [CTrunc D] : Edn D → Option (List Byte × BuiltinModulator F)
  | .map m =>
      match Edn.findKw "id" m, Edn.findKw "type" m with
      | some idV, some typeV =>
          -- a type that is no keyword has the empty name, which is no built-in type
          match modulatorId idV with
          | [] => none
          | id => (buildModulator ((keywordName typeV).getD "") m).map fun mod => (id, mod)
      | _, _ => none
  | _ => none

/-- The id and the outputs of the started modulator in a run. -/
def startedOutputs [CTrunc D] (payload : Edn D)
    (calls : List (ModulatorCall String String (ModulatorOutput F) D F)) :
    Option (List Byte × List (ModulatorOutput F)) :=
  (modulatorStart payload).map fun p => (p.1, p.2.outputs calls)

end Build

end NomosRt.Modulator
