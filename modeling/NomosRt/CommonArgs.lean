/-
  NomosRt.CommonArgs

  `parse_common_args` (include/nomos/rt/common_args.hpp).

  The common flags are taken from the command line and the rest is handed back for the
  process to look at.  A flag that wants a value takes whatever comes next, also what looks
  like a flag; as the last word it has none and is handed back.  A word that is no common
  flag takes the next word with it, unless that looks like a flag.

  `ArgItem` are the pieces of a command line in these terms.  Every command line is made of
  pieces in one way (`splitArgs`).

  A word has no NUL.  `atof` is a parameter; `atoi` and `strtol` are those of
  `NomosRt.Lib.Decimal`.
-/

import NomosRt.Lib.Decimal

namespace NomosRt

open NomosRt.Lib

/-! ## The arguments -/

/-- A word of the command line. -/
abbrev ArgText := List Byte

/-- `common_args`. -/
structure CommonArgs (D : Type*) where
  socketPath : ArgText
  dbPath : ArgText
  bpm : D
  midiPort : Int
  midiPortName : ArgText
  midiInPort : Int
  midiInPortName : ArgText
  oscPort : BitVec 16
  audioDevice : BitVec 32
  audioOutCh : BitVec 32
  audioInCh : BitVec 32
  blockSize : BitVec 32
  heartbeatMs : BitVec 32
  noAudio : Bool
  listAudioDevs : Bool
  version : Bool

/-- A `common_args` as it is declared; `bpm` is 120.0. -/
def CommonArgs.declared {D : Type*} (bpm : D) : CommonArgs D where
  socketPath := []
  dbPath := ascii "nomos.db"
  bpm := bpm
  midiPort := -1
  midiPortName := []
  midiInPort := -1
  midiInPortName := []
  oscPort := 9000
  audioDevice := 0
  audioOutCh := 2
  audioInCh := 0
  blockSize := 256
  heartbeatMs := 0
  noAudio := false
  listAudioDevs := false
  version := false

/-- The flags with a value. -/
inductive ValueFlag where
  | socket
  | db
  | bpm
  | midiPort
  | midiInPort
  | oscPort
  | audioDevice
  | audioOutCh
  | audioInCh
  | blockSize
  | heartbeatMs
  deriving DecidableEq, Repr

/-- The flags without one. -/
inductive BareFlag where
  | noAudio
  | listAudioDevices
  | version
  deriving DecidableEq, Repr

/-- The flag's name. -/
def ValueFlag.name : ValueFlag → ArgText
  | .socket => ascii "--socket"
  | .db => ascii "--db"
  | .bpm => ascii "--bpm"
  | .midiPort => ascii "--midi-port"
  | .midiInPort => ascii "--midi-in-port"
  | .oscPort => ascii "--osc-port"
  | .audioDevice => ascii "--audio-device"
  | .audioOutCh => ascii "--audio-out-ch"
  | .audioInCh => ascii "--audio-in-ch"
  | .blockSize => ascii "--block-size"
  | .heartbeatMs => ascii "--heartbeat-ms"

/-- The flag's name. -/
def BareFlag.name : BareFlag → ArgText
  | .noAudio => ascii "--no-audio"
  | .listAudioDevices => ascii "--list-audio-devices"
  | .version => ascii "--version"

/-- The tests for flags with a value, in the order of the source. -/
def ValueFlag.named? (a : ArgText) : Option ValueFlag :=
  [.socket, .db, .bpm, .midiPort, .midiInPort, .oscPort, .audioDevice, .audioOutCh, .audioInCh,
    .blockSize, .heartbeatMs].find? (·.name = a)

/-- The tests for the other flags. -/
def BareFlag.named? (a : ArgText) : Option BareFlag :=
  [.noAudio, .listAudioDevices, .version].find? (·.name = a)

/-- `end != v.data() && *end == '\0'` behind `strtol`: the whole word is a number. -/
def isNumeral (v : ArgText) : Bool :=
  let digits := match v.dropWhile isSpaceByte with
    | 0x2D :: t => t
    | 0x2B :: t => t
    | t => t
  !digits.isEmpty && digits.all isDecimal

section Parse

variable {D : Type*} (atof : ArgText → D)

/-- What a flag does with its value. -/
def ValueFlag.set (args : CommonArgs D) (v : ArgText) : ValueFlag → CommonArgs D
  | .socket => { args with socketPath := v }
  | .db => { args with dbPath := v }
  | .bpm => { args with bpm := atof v }
  -- `parse_midi`
  | .midiPort =>
      if isNumeral v then { args with midiPort := (BitVec.ofInt 32 (strtol v)).toInt }
      else { args with midiPortName := v }
  | .midiInPort =>
      if isNumeral v then { args with midiInPort := (BitVec.ofInt 32 (strtol v)).toInt }
      else { args with midiInPortName := v }
  | .oscPort => { args with oscPort := BitVec.ofInt 16 (atoi v) }
  | .audioDevice => { args with audioDevice := BitVec.ofInt 32 (atoi v) }
  | .audioOutCh => { args with audioOutCh := BitVec.ofInt 32 (atoi v) }
  | .audioInCh => { args with audioInCh := BitVec.ofInt 32 (atoi v) }
  | .blockSize => { args with blockSize := BitVec.ofInt 32 (atoi v) }
  | .heartbeatMs => { args with heartbeatMs := BitVec.ofInt 32 (atoi v) }

/-- What a flag without a value does. -/
def BareFlag.set (args : CommonArgs D) : BareFlag → CommonArgs D
  | .noAudio => { args with noAudio := true }
  | .listAudioDevices => { args with listAudioDevs := true }
  | .version => { args with version := true }

/-- `argv[i + 1][0] == '-'`. -/
def looksLikeFlag (t : ArgText) : Bool := t.head? = some 0x2D

/-- `parse_common_args`, on the words behind the program's name: the arguments and the
    remainder. -/
def parseCommonArgs (args : CommonArgs D) : List ArgText → CommonArgs D × List ArgText
  | [] => (args, [])
  | [a] =>
      match BareFlag.named? a with
      | some f => (f.set args, [])
      | none => (args, [a])
  | a :: v :: rest =>
      match ValueFlag.named? a with
      | some f => parseCommonArgs (f.set atof args v) rest
      | none =>
          match BareFlag.named? a with
          | some f => parseCommonArgs (f.set args) (v :: rest)
          | none =>
              if looksLikeFlag v then
                let (args, rem) := parseCommonArgs args (v :: rest)
                (args, a :: rem)
              else
                let (args, rem) := parseCommonArgs args rest
                (args, a :: v :: rem)

/-! ## Pieces -/

/-- A piece of a command line: a flag with its value, a flag, or a word of the process's own with
    the value that goes with it. -/
inductive ArgItem where
  | value (f : ValueFlag) (v : ArgText)
  | bare (f : BareFlag)
  | other (a : ArgText) (v : Option ArgText)
  deriving DecidableEq, Repr

namespace ArgItem

/-- The words of a piece. -/
def tokens : ArgItem → List ArgText
  | value f v => [f.name, v]
  | bare f => [f.name]
  | other a v => a :: v.toList

/-- What is handed back of a piece. -/
def leftover : ArgItem → List ArgText
  | other a v => a :: v.toList
  | _ => []

/-- What a piece does. -/
def apply (args : CommonArgs D) : ArgItem → CommonArgs D
  | value f v => f.set atof args v
  | bare f => f.set args
  | other _ _ => args

end ArgItem

/-- The words of pieces. -/
def argWords (items : List ArgItem) : List ArgText := items.flatMap ArgItem.tokens

/-- A word of the process's own: no common flag, or one that wants a value and has none; its value
    does not look like a flag, and without a value what follows does. -/
structure OtherOk (a : ArgText) (v : Option ArgText) (next : List ArgText) : Prop where
  notBare : BareFlag.named? a = none
  notValue : (v.toList ++ next) ≠ [] → ValueFlag.named? a = none
  value : ∀ w ∈ v, looksLikeFlag w = false
  noValue : v = none → ∀ w ∈ next.head?, looksLikeFlag w = true

/-- The pieces of a command line. -/
def IsCommandLine : List ArgItem → Prop
  | [] => True
  | .value _ _ :: items => IsCommandLine items
  | .bare _ :: items => IsCommandLine items
  | .other a v :: items => OtherOk a v (argWords items) ∧ IsCommandLine items

/-- The pieces a command line is made of. -/
def splitArgs : List ArgText → List ArgItem
  | [] => []
  | [a] =>
      match BareFlag.named? a with
      | some f => [.bare f]
      | none => [.other a none]
  | a :: v :: rest =>
      match ValueFlag.named? a with
      | some f => .value f v :: splitArgs rest
      | none =>
          match BareFlag.named? a with
          | some f => .bare f :: splitArgs (v :: rest)
          | none =>
              if looksLikeFlag v then .other a none :: splitArgs (v :: rest)
              else .other a (some v) :: splitArgs rest

end Parse

/-! ## Names -/

theorem ValueFlag.named?_name (f : ValueFlag) : ValueFlag.named? f.name = some f := by
  cases f <;> decide

theorem BareFlag.named?_name (f : BareFlag) :
    BareFlag.named? f.name = some f ∧ ValueFlag.named? f.name = none := by
  cases f <;> decide

theorem ValueFlag.name_of_named? {a : ArgText} {f : ValueFlag} (h : ValueFlag.named? a = some f) :
    f.name = a := by
  simpa using List.find?_some h

theorem BareFlag.name_of_named? {a : ArgText} {f : BareFlag} (h : BareFlag.named? a = some f) :
    f.name = a := by
  simpa using List.find?_some h

theorem ValueFlag.looksLikeFlag_name (f : ValueFlag) : looksLikeFlag f.name = true := by
  cases f <;> decide

theorem BareFlag.looksLikeFlag_name (f : BareFlag) : looksLikeFlag f.name = true := by
  cases f <;> decide

/-! ## Splitting -/

theorem argWords_cons (item : ArgItem) (items : List ArgItem) :
    argWords (item :: items) = item.tokens ++ argWords items := by
  simp [argWords]

/-- The pieces have the words of the command line. -/
theorem argWords_splitArgs (argv : List ArgText) : argWords (splitArgs argv) = argv := by
  induction argv using splitArgs.induct with
  | case1 => rfl
  | case2 a f h => simp [splitArgs, h, argWords, ArgItem.tokens, BareFlag.name_of_named? h]
  | case3 a h => simp [splitArgs, h, argWords, ArgItem.tokens]
  | case4 a v rest f h ih =>
      rw [splitArgs, h]
      simp only [argWords_cons, ih, ArgItem.tokens, ValueFlag.name_of_named? h, List.cons_append,
        List.nil_append]
  | case5 a v rest h f hf ih =>
      rw [splitArgs, h, hf]
      simp only [argWords_cons, ih, ArgItem.tokens, BareFlag.name_of_named? hf, List.cons_append,
        List.nil_append]
  | case6 a v rest h hf hv ih =>
      rw [splitArgs, h, hf, if_pos hv]
      simp only [argWords_cons, ih, ArgItem.tokens, Option.toList_none, List.cons_append,
        List.nil_append]
  | case7 a v rest h hf hv ih =>
      rw [splitArgs, h, hf, if_neg hv]
      simp only [argWords_cons, ih, ArgItem.tokens, Option.toList_some, List.cons_append,
        List.nil_append]

theorem isCommandLine_splitArgs (argv : List ArgText) : IsCommandLine (splitArgs argv) := by
  induction argv using splitArgs.induct with
  | case1 => trivial
  | case2 a f h =>
      rw [splitArgs, h]
      trivial
  | case3 a h =>
      rw [splitArgs, h]
      exact ⟨⟨h, by simp [argWords], by simp, by simp [argWords]⟩, trivial⟩
  | case4 a v rest f h ih =>
      rw [splitArgs, h]
      exact ih
  | case5 a v rest h f hf ih =>
      rw [splitArgs, h, hf]
      exact ih
  | case6 a v rest h hf hv ih =>
      rw [splitArgs, h, hf, if_pos hv]
      refine ⟨⟨hf, fun _ => h, by simp, fun _ w hw => ?_⟩, ih⟩
      rw [argWords_splitArgs] at hw
      cases hw
      exact hv
  | case7 a v rest h hf hv ih =>
      rw [splitArgs, h, hf, if_neg hv]
      refine ⟨⟨hf, fun _ => h, fun w hw => ?_, fun hnone => by cases hnone⟩, ih⟩
      cases hw
      simpa using hv

/-- The words of pieces split into these. -/
theorem splitArgs_argWords {items : List ArgItem} (h : IsCommandLine items) :
    splitArgs (argWords items) = items := by
  induction items with
  | nil => rfl
  | cons item items ih =>
      rw [argWords_cons]
      cases item with
      | value f v =>
          show splitArgs (f.name :: v :: argWords items) = _
          rw [splitArgs, ValueFlag.named?_name]
          exact congrArg _ (ih h)
      | bare f =>
          obtain ⟨hbare, hvalue⟩ := f.named?_name
          show splitArgs (f.name :: argWords items) = _
          have hrest := ih h
          cases hwords : argWords items with
          | nil =>
              rw [hwords] at hrest
              rw [splitArgs, hbare, ← hrest]
              rfl
          | cons v rest =>
              rw [hwords] at hrest
              rw [splitArgs, hvalue, hbare, hrest]
      | other a v =>
          obtain ⟨hok, hitems⟩ := h
          have hrest := ih hitems
          cases v with
          | some w =>
              show splitArgs (a :: w :: argWords items) = _
              rw [splitArgs, hok.notValue (by simp), hok.notBare, if_neg (by
                rw [hok.value w rfl]
                exact Bool.false_ne_true), hrest]
          | none =>
              show splitArgs (a :: argWords items) = _
              cases hwords : argWords items with
              | nil =>
                  rw [hwords] at hrest
                  rw [splitArgs, hok.notBare, ← hrest]
                  rfl
              | cons v rest =>
                  have hflag : looksLikeFlag v = true := hok.noValue rfl v (by rw [hwords]; rfl)
                  rw [hwords] at hrest
                  rw [splitArgs, hok.notValue (by rw [hwords]; simp), hok.notBare, if_pos hflag, hrest]

section Results

variable {D : Type*} (atof : ArgText → D)

/-- The code goes from piece to piece. -/
theorem parseCommonArgs_eq (args : CommonArgs D) (argv : List ArgText) :
    parseCommonArgs atof args argv =
      ((splitArgs argv).foldl (ArgItem.apply atof) args,
        (splitArgs argv).flatMap ArgItem.leftover) := by
  induction argv using splitArgs.induct generalizing args with
  | case1 => rfl
  | case2 a f h => simp [parseCommonArgs, splitArgs, h, ArgItem.apply, ArgItem.leftover]
  | case3 a h => simp [parseCommonArgs, splitArgs, h, ArgItem.apply, ArgItem.leftover]
  | case4 a v rest f h ih =>
      rw [parseCommonArgs, splitArgs, h]
      exact ih _
  | case5 a v rest h f hf ih =>
      rw [parseCommonArgs, splitArgs, h, hf]
      exact ih _
  | case6 a v rest h hf hv ih =>
      rw [parseCommonArgs, splitArgs, h, hf, if_pos hv]
      simp [hv, ih args, ArgItem.apply, ArgItem.leftover]
  | case7 a v rest h hf hv ih =>
      rw [parseCommonArgs, splitArgs, h, hf, if_neg hv]
      simp [hv, ih args, ArgItem.apply, ArgItem.leftover]

/-- Every command line is made of pieces in one way; the common flags among them are applied in
    order and the others are handed back in order, words untouched. -/
theorem parse_common_args_splits (args : CommonArgs D) (argv : List ArgText) :
    ∃ items, IsCommandLine items ∧ argWords items = argv ∧
      parseCommonArgs atof args argv =
        (items.foldl (ArgItem.apply atof) args, items.flatMap ArgItem.leftover) ∧
      ∀ items', IsCommandLine items' → argWords items' = argv → items' = items := by
  refine ⟨splitArgs argv, isCommandLine_splitArgs argv, argWords_splitArgs argv,
    parseCommonArgs_eq atof args argv, fun items' hitems hwords => ?_⟩
  rw [← hwords, splitArgs_argWords hitems]

/-! ## A second pass -/

/-- Words in which there is nothing for a parser of the common flags. -/
structure Foreign (words : List ArgText) : Prop where
  notBare : ∀ t ∈ words, BareFlag.named? t = none
  notValue : ∀ t ∈ words.dropLast, ValueFlag.named? t = none

/-- A word that does not look like a flag is none. -/
theorem named?_of_not_looksLikeFlag {v : ArgText} (hv : looksLikeFlag v = false) :
    BareFlag.named? v = none ∧ ValueFlag.named? v = none := by
  constructor
  · cases h : BareFlag.named? v with
    | none => rfl
    | some f =>
        rw [← BareFlag.name_of_named? h, f.looksLikeFlag_name] at hv
        cases hv
  · cases h : ValueFlag.named? v with
    | none => rfl
    | some f =>
        rw [← ValueFlag.name_of_named? h, f.looksLikeFlag_name] at hv
        cases hv

theorem Foreign.cons {a : ArgText} {words : List ArgText} (h : Foreign words)
    (hbare : BareFlag.named? a = none) (hvalue : words ≠ [] → ValueFlag.named? a = none) :
    Foreign (a :: words) := by
  refine ⟨?_, ?_⟩
  · rintro t (_ | ⟨_, ht⟩)
    · exact hbare
    · exact h.notBare t ht
  · cases words with
    | nil => simp
    | cons b words =>
        rintro t (_ | ⟨_, ht⟩)
        · exact hvalue (by simp)
        · exact h.notValue t ht

theorem Foreign.tail {a : ArgText} {words : List ArgText} (h : Foreign (a :: words)) :
    Foreign words := by
  refine ⟨fun t ht => h.notBare t (List.mem_cons_of_mem _ ht), fun t ht => h.notValue t ?_⟩
  cases words with
  | nil => cases ht
  | cons b words => exact List.mem_cons_of_mem _ ht

/-- What is handed back has nothing in it for a second pass. -/
theorem foreign_leftover {items : List ArgItem} (h : IsCommandLine items) :
    Foreign (items.flatMap ArgItem.leftover) := by
  induction items with
  | nil => exact ⟨by simp, by simp⟩
  | cons item items ih =>
      cases item with
      | value f v => exact ih h
      | bare f => exact ih h
      | other a v =>
          obtain ⟨hok, hitems⟩ := h
          have hrest := ih hitems
          -- words are left over only where there are words
          have hwords : items.flatMap ArgItem.leftover ≠ [] → argWords items ≠ [] := by
            intro hne hnil
            apply hne
            rw [List.flatMap_eq_nil_iff]
            intro item hitem
            have htokens := List.flatMap_eq_nil_iff.mp hnil item hitem
            cases item with
            | value f v => rfl
            | bare f => rfl
            | other a v => cases htokens
          cases v with
          | none =>
              exact hrest.cons hok.notBare fun hne => hok.notValue (by simpa using hwords hne)
          | some w =>
              obtain ⟨hbare, hvalue⟩ := named?_of_not_looksLikeFlag (hok.value w rfl)
              exact (hrest.cons hbare fun _ => hvalue).cons hok.notBare fun _ =>
                hok.notValue (by simp)

theorem parseCommonArgs_foreign (args : CommonArgs D) {words : List ArgText} (h : Foreign words) :
    parseCommonArgs atof args words = (args, words) := by
  induction words using splitArgs.induct with
  | case1 => rfl
  | case2 a f hf =>
      have hnone := h.notBare a (by simp)
      rw [hf] at hnone
      cases hnone
  | case3 a hf => rw [parseCommonArgs, hf]
  | case4 a v rest f hf ih =>
      have hnone := h.notValue a (by simp)
      rw [hf] at hnone
      cases hnone
  | case5 a v rest hf f hbare ih =>
      have hnone := h.notBare a (by simp)
      rw [hbare] at hnone
      cases hnone
  | case6 a v rest hf hbare hv ih =>
      rw [parseCommonArgs, hf, hbare]
      simp [hv, ih h.tail]
  | case7 a v rest hf hbare hv ih =>
      rw [parseCommonArgs, hf, hbare]
      simp [hv, ih h.tail.tail]

/-- A second pass over the remainder changes nothing: it finds no common flag in it and hands it
    back as it is. -/
theorem parse_common_args_remainder (args args' : CommonArgs D) (argv : List ArgText) :
    parseCommonArgs atof args' (parseCommonArgs atof args argv).2 =
      (args', (parseCommonArgs atof args argv).2) := by
  apply parseCommonArgs_foreign
  rw [parseCommonArgs_eq]
  exact foreign_leftover (isCommandLine_splitArgs argv)

/-! ## Writing the arguments -/

/-- A port by its number or its name, if it is given. -/
def portItems (f : ValueFlag) (port : Int) (name : ArgText) : List ArgItem :=
  (if port = -1 then [] else [.value f (decimal port.toNat)]) ++
    if name = [] then [] else [.value f name]

/-- A command line for the arguments, with a text for the tempo. -/
def CommonArgs.items (a : CommonArgs D) (bpmText : ArgText) : List ArgItem :=
  [.value .socket a.socketPath, .value .db a.dbPath, .value .bpm bpmText] ++
  portItems .midiPort a.midiPort a.midiPortName ++
  portItems .midiInPort a.midiInPort a.midiInPortName ++
  [.value .oscPort (decimal a.oscPort.toNat), .value .audioDevice (decimal a.audioDevice.toNat),
    .value .audioOutCh (decimal a.audioOutCh.toNat), .value .audioInCh (decimal a.audioInCh.toNat),
    .value .blockSize (decimal a.blockSize.toNat),
    .value .heartbeatMs (decimal a.heartbeatMs.toNat)] ++
  (if a.noAudio then [.bare .noAudio] else []) ++
  (if a.listAudioDevs then [.bare .listAudioDevices] else []) ++
  (if a.version then [.bare .version] else [])

/-- A port can be given: none, or a number an `int` holds; a name is not read as a number. -/
structure PortOk (port : Int) (name : ArgText) : Prop where
  range : port = -1 ∨ 0 ≤ port ∧ port < 2 ^ 31
  name : isNumeral name = false

/-- The numbers are in the range of `atoi`. -/
structure CommonArgs.Writable (a : CommonArgs D) : Prop where
  midiPort : PortOk a.midiPort a.midiPortName
  midiInPort : PortOk a.midiInPort a.midiInPortName
  audioDevice : a.audioDevice.toNat < 2 ^ 31
  audioOutCh : a.audioOutCh.toNat < 2 ^ 31
  audioInCh : a.audioInCh.toNat < 2 ^ 31
  blockSize : a.blockSize.toNat < 2 ^ 31
  heartbeatMs : a.heartbeatMs.toNat < 2 ^ 31

/-- Nothing is given yet. -/
structure CommonArgs.Unset (d : CommonArgs D) : Prop where
  midiPort : d.midiPort = -1
  midiPortName : d.midiPortName = []
  midiInPort : d.midiInPort = -1
  midiInPortName : d.midiInPortName = []
  noAudio : d.noAudio = false
  listAudioDevs : d.listAudioDevs = false
  version : d.version = false

theorem isNumeral_decimal (n : Nat) : isNumeral (decimal n) = true := by
  obtain ⟨c, t, hc⟩ := List.exists_cons_of_ne_nil (decimal_ne_nil n)
  have hdigits : ∀ b ∈ c :: t, isDecimal b = true := fun b hb =>
    isDecimal_of_mem_decimal (hc ▸ hb)
  have hrange : 0x30 ≤ c ∧ c ≤ 0x39 := by
    simpa [isDecimal] using hdigits c (List.mem_cons_self ..)
  have hdrop : (c :: t).dropWhile isSpaceByte = c :: t := by
    refine List.dropWhile_cons_of_neg ?_
    simp only [isSpaceByte, decide_eq_true_eq]
    bv_omega
  rw [isNumeral, hc, hdrop]
  split
  · next heq =>
      rw [(List.cons.inj heq).1] at hrange
      exact absurd hrange (by decide)
  · next heq =>
      rw [(List.cons.inj heq).1] at hrange
      exact absurd hrange (by decide)
  · rw [List.isEmpty_cons, Bool.not_false, Bool.true_and, List.all_eq_true]
    exact hdigits

theorem atoi_decimal_nat {n : Nat} (hn : n < 2 ^ 31) : atoi (decimal n) = n := by
  have hread := @atoi_decimal n hn [] [] (by simp) (by simp)
  rwa [List.append_nil] at hread

theorem ofInt_atoi_decimal {w : Nat} (x : BitVec w) (hx : x.toNat < 2 ^ 31) :
    BitVec.ofInt w (atoi (decimal x.toNat)) = x := by
  rw [atoi_decimal_nat hx, BitVec.ofInt_natCast, BitVec.ofNat_toNat, BitVec.setWidth_eq]

/-- A port is read back; `put` sets its two fields. -/
theorem foldl_portItems {f : ValueFlag} (put : Int → ArgText → CommonArgs D)
    (hf : ∀ p n v, f.set atof (put p n) v = if isNumeral v then put (atoi v) n else put p v)
    {port : Int} {name : ArgText} (h : PortOk port name) :
    (portItems f port name).foldl (ArgItem.apply atof) (put (-1) []) = put port name := by
  have hnumber : (if port = -1 then [] else [ArgItem.value f (decimal port.toNat)]).foldl
      (ArgItem.apply atof) (put (-1) []) = put port [] := by
    split_ifs with hport
    · rw [hport]
      rfl
    · obtain ⟨hlow, hhigh⟩ := h.range.resolve_left hport
      show f.set atof (put (-1) []) (decimal port.toNat) = _
      rw [hf, if_pos (isNumeral_decimal _), atoi_decimal_nat (by omega), Int.toNat_of_nonneg hlow]
  rw [portItems, List.foldl_append, hnumber]
  split_ifs with hname
  · rw [hname]
    rfl
  · show f.set atof (put port []) name = _
    rw [hf, h.name]
    rfl

/-- Pieces of which nothing is handed back. -/
theorem isCommandLine_of_leftover {items : List ArgItem}
    (h : items.flatMap ArgItem.leftover = []) : IsCommandLine items := by
  induction items with
  | nil => trivial
  | cons item items ih =>
      cases item with
      | value f v => exact ih h
      | bare f => exact ih h
      | other a v => cases h

theorem leftover_items (a : CommonArgs D) (bpmText : ArgText) :
    (a.items bpmText).flatMap ArgItem.leftover = [] := by
  have hport : ∀ f port name, (portItems f port name).flatMap ArgItem.leftover = [] := by
    intro f port name
    rw [portItems, List.flatMap_append]
    split_ifs <;> rfl
  have hbare : ∀ (b : Bool) f,
      (if b then [ArgItem.bare f] else []).flatMap ArgItem.leftover = [] := by
    intro b f
    cases b <;> rfl
  simp only [CommonArgs.items, List.flatMap_append, hport, hbare]
  rfl

/-- The ports of both directions are read back. -/
theorem foldl_ports {a args : CommonArgs D} (ha : a.Writable) (hargs : args.Unset) :
    (portItems .midiInPort a.midiInPort a.midiInPortName).foldl (ArgItem.apply atof)
        ((portItems .midiPort a.midiPort a.midiPortName).foldl (ArgItem.apply atof) args) =
      { args with
        midiPort := a.midiPort
        midiPortName := a.midiPortName
        midiInPort := a.midiInPort
        midiInPortName := a.midiInPortName } := by
  have hstart : args = { args with midiPort := -1, midiPortName := [] } := by
    rw [← hargs.midiPort, ← hargs.midiPortName]
  have hnext : ({ args with midiPort := a.midiPort, midiPortName := a.midiPortName } :
      CommonArgs D) =
        { args with
          midiPort := a.midiPort
          midiPortName := a.midiPortName
          midiInPort := -1
          midiInPortName := [] } := by
    rw [← hargs.midiInPort, ← hargs.midiInPortName]
  have hout := foldl_portItems (f := .midiPort) atof
    (fun p n => { args with midiPort := p, midiPortName := n }) (fun p n v => rfl) ha.midiPort
  have hin := foldl_portItems (f := .midiInPort) atof
    (fun p n => { args with
      midiPort := a.midiPort
      midiPortName := a.midiPortName
      midiInPort := p
      midiInPortName := n }) (fun p n v => rfl) ha.midiInPort
  rw [← hstart] at hout
  rw [hout, hnext]
  exact hin

/-- The numbers are read back. -/
theorem foldl_numbers {a : CommonArgs D} (ha : a.Writable) (args : CommonArgs D) :
    ([.value .oscPort (decimal a.oscPort.toNat), .value .audioDevice (decimal a.audioDevice.toNat),
      .value .audioOutCh (decimal a.audioOutCh.toNat),
      .value .audioInCh (decimal a.audioInCh.toNat), .value .blockSize (decimal a.blockSize.toNat),
      .value .heartbeatMs (decimal a.heartbeatMs.toNat)] : List ArgItem).foldl
        (ArgItem.apply atof) args =
      { args with
        oscPort := a.oscPort
        audioDevice := a.audioDevice
        audioOutCh := a.audioOutCh
        audioInCh := a.audioInCh
        blockSize := a.blockSize
        heartbeatMs := a.heartbeatMs } := by
  have hosc : a.oscPort.toNat < 2 ^ 31 := by
    have := a.oscPort.isLt
    omega
  simp only [List.foldl_cons, List.foldl_nil, ArgItem.apply, ValueFlag.set,
    ofInt_atoi_decimal _ hosc, ofInt_atoi_decimal _ ha.audioDevice,
    ofInt_atoi_decimal _ ha.audioOutCh, ofInt_atoi_decimal _ ha.audioInCh,
    ofInt_atoi_decimal _ ha.blockSize, ofInt_atoi_decimal _ ha.heartbeatMs]

/-- Every value of the arguments can be given: the command line written for it is read back, and
    nothing of it is left for the process. -/
theorem parse_common_args_roundtrip {a d : CommonArgs D} (ha : a.Writable) (hd : d.Unset)
    {bpmText : ArgText} (hbpm : atof bpmText = a.bpm) :
    parseCommonArgs atof d (argWords (a.items bpmText)) = (a, []) := by
  rw [parseCommonArgs_eq, splitArgs_argWords (isCommandLine_of_leftover (leftover_items a bpmText)),
    leftover_items]
  refine Prod.ext ?_ rfl
  have hbare : ∀ (b : Bool) (f : BareFlag) (args : CommonArgs D),
      (if b then [ArgItem.bare f] else []).foldl (ArgItem.apply atof) args =
        if b then f.set args else args := by
    intro b f args
    cases b <;> rfl
  have hfirst : ([.value .socket a.socketPath, .value .db a.dbPath,
      .value .bpm bpmText] : List ArgItem).foldl (ArgItem.apply atof) d =
        { d with socketPath := a.socketPath, dbPath := a.dbPath, bpm := a.bpm } := by
    rw [← hbpm]
    rfl
  have hunset : ({ d with socketPath := a.socketPath, dbPath := a.dbPath, bpm := a.bpm } :
      CommonArgs D).Unset := ⟨hd.midiPort, hd.midiPortName, hd.midiInPort, hd.midiInPortName,
    hd.noAudio, hd.listAudioDevs, hd.version⟩
  simp only [CommonArgs.items, List.foldl_append, hfirst, foldl_ports atof ha hunset,
    foldl_numbers atof ha, hbare]
  obtain ⟨-, -, -, -, hnoAudio, hlist, hversion⟩ := hd
  cases a with
  | mk _ _ _ _ _ _ _ _ _ _ _ _ _ noAudio listAudioDevs version =>
      cases noAudio <;> cases listAudioDevs <;> cases version <;>
        simp [BareFlag.set, hnoAudio, hlist, hversion]

end Results

/-- A port by its number, another by its name, and no audio; the tempo is a whole number. -/
def sampleArgs : CommonArgs Int :=
  { CommonArgs.declared 90 with
    midiPort := 3
    midiInPortName := ascii "keys"
    blockSize := 512
    noAudio := true }

theorem parse_common_args_roundtrip_sample :
    parseCommonArgs atoi (CommonArgs.declared 120) (argWords (sampleArgs.items (ascii "90"))) =
      (sampleArgs, []) := by
  refine parse_common_args_roundtrip atoi ⟨⟨.inr ?_, ?_⟩, ⟨.inl rfl, ?_⟩, ?_, ?_, ?_, ?_, ?_⟩
    ⟨rfl, rfl, rfl, rfl, rfl, rfl, rfl⟩ ?_
  all_goals decide

end NomosRt
