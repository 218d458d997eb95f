/-
  NomosRt.Control.Handler

  `dispatch_message` as a whole: what a message does to the session, the queues, the
  modulator engine, the MIDI and OSC outputs, the scripts and the connection.

  The cases are those of the modules before, put together; `msg_sysex` and
  `dispatch_extension` are added here.  What leaves the thread is a list of effects, in
  the order the code makes them.  The messages fall into families that share nothing:
  no message of one family changes what another family's messages do, and a message
  whose payload is no map does nothing at all, unless it opens or closes the session.

  What `eval` and `wasm_swap_fn` keep between calls is one state, since a script may call
  the swap function too.
-/

import NomosRt.Control.Narrowing
import NomosRt.Control.ReplEval
import NomosRt.Control.Session
import NomosRt.Lib.Domains
import NomosRt.Modulator.Messages

namespace NomosRt.Control

open NomosRt.Lib NomosRt.Lib.EdnText NomosRt.Modulator

/-! ## Configuration and state -/

def msgWasmHotSwap : Byte := 0x44
def msgCc : Byte := 0x49
def msgPitchBend : Byte := 0x4A
def msgChanPressure : Byte := 0x4B
def msgSysex : Byte := 0x4C
def msgMts : Byte := 0x4D
def msgReplEval : Byte := 0x55
def msgOsc : Byte := 0x57

/-- `config`, with `L` for what scripts and swaps keep. -/
structure ThreadConfig (D F M O L : Type*) extends Config D where
  /-- `cfg_.mod_engine != nullptr`. -/
  modEngine : Bool
  sem : ModulatorSem (List Byte) (List Byte) M O D F
  ofBuiltin : BuiltinModulator F → M
  /-- `ext_registry->make`. -/
  make : String → Option M
  /-- `cfg_.midi != nullptr`. -/
  midi : Bool
  /-- `cfg_.osc != nullptr`. -/
  osc : Bool
  /-- `cfg_.lua->eval`, up to the text it makes of the outcome. -/
  lua : Option (Text → L → EvalOutcome × L)
  ttySink : Bool
  wasmSwapFn : Option (Text → Text → L → Bool × L)

/-- What the messages of a connection act on. -/
structure Served (M O L : Type*) where
  session : Option Session
  engine : Engine (List Byte) M O
  scripts : L

/-- What leaves the thread. -/
inductive Effect (D : Type*) where
  | log (call : LogCall D)
  | push (e : Enqueue D)
  | midi (bytes : List Byte)
  | osc (ev : OscEvent)
  | tty (payload : Text)
  | reply (type : Byte) (payload : Text)

section Dispatch

variable {D F M O L : Type*} (cfg : ThreadConfig D F M O L)

/-- What the modulator messages use. -/
def ThreadConfig.modulators : ModulatorConfig D F M O := ⟨cfg.sem, cfg.ofBuiltin, cfg.make, cfg.parse⟩

/-- What `msg_repl_eval` uses, with the scripts as they stand. -/
def ThreadConfig.repl (l : L) : ReplConfig D :=
  ⟨cfg.parse, cfg.lua.map fun run src => (run src l).1, cfg.ttySink⟩

/-! ## The cases -/

/-- `msg_sysex`: the integers of `:data`, each cut to a byte. -/
def sendSysex (payload : List Byte) : Option (List Byte) :=
  if !cfg.midi || payload.isEmpty then none
  else
    match cfg.parse payload with
    | some (.map m) =>
        match Edn.findKw "data" m with
        | some (.vector items) =>
            let bytes := items.filterMap fun item => match item with
              | .int n => some (BitVec.ofInt 8 n)
              | _ => none
            if bytes.isEmpty then none else some bytes
        | _ => none
    | _ => none

/-- The scripts behind `msg_repl_eval`: only two of the destinations evaluate. -/
def evaluated (payload : List Byte) (l : L) : L :=
  if payload = [] then l
  else
    match cfg.parse payload, cfg.lua with
    | some (.map m), some run =>
        if destOf m = "fennel" ∨ destOf m = "vcvrack-tty" then (run (stringField m "payload") l).2
        else l
    | _, _ => l

/-- `msg_repl_eval`; the screen is served before the connection. -/
def dispatchRepl (connFd : Int) (payload : List Byte) (l : L) : List (Effect D) × L :=
  let (reply, tty) := replEval (cfg.repl l) connFd payload
  (tty.toList.map .tty ++ reply.toList.map (.reply msgReplEval), evaluated cfg payload l)

/-- The `resp` of `msg_wasm_hot_swap`. -/
def swapResponse (nodeId : Text) (ok : Bool) : Text :=
  ascii "\x7b:node-id :" ++ nodeId ++
    (if ok then ascii " :status :ok\x7d"
      else ascii " :status :error :reason \"swap not wired\"\x7d")

/-- `wasm_swap_fn`, if it is wired. -/
def swap (nodeId wasmPath : Text) (l : L) : Bool × L :=
  match cfg.wasmSwapFn with
  | some f => f nodeId wasmPath l
  | none => (false, l)

/-- `node_id`. -/
def nodeIdOf (m : List (Edn D × Edn D)) : Text :=
  match Edn.findKw "node-id" m with
  | some (.keyword name) => nameBytes name
  | _ => []

/-- `dispatch_extension`. -/
def dispatchExtension (connFd : Int) (type : Byte) (payload : List Byte) (l : L) :
    List (Effect D) × L :=
  if type ≠ msgWasmHotSwap ∨ payload.isEmpty then ([], l)
  else
    match cfg.parse payload with
    | some (.map m) =>
        if stringField m "wasm-path" = [] then ([], l)
        else
          let (ok, l) := swap cfg (nodeIdOf m) (stringField m "wasm-path") l
          -- nothing can be written to the descriptor -1
          (if connFd ≥ 0 then [.reply msgWasmHotSwap (swapResponse (nodeIdOf m) ok)] else [], l)
    | _ => ([], l)

/-- The messages for the scripts. -/
def dispatchScripts (connFd : Int) (type : Byte) (payload : List Byte) (l : L) :
    List (Effect D) × L :=
  if type = msgReplEval then dispatchRepl cfg connFd payload l
  else dispatchExtension cfg connFd type payload l

theorem dispatchScripts_other {type : Byte} (hrepl : type ≠ msgReplEval)
    (hswap : type ≠ msgWasmHotSwap) (connFd : Int) (payload : List Byte) (l : L) :
    dispatchScripts cfg connFd type payload l = ([], l) := by
  rw [dispatchScripts, if_neg hrepl, dispatchExtension, if_pos (.inl hswap)]

/-- The payload is a map. -/
def isMap (parse : List Byte → Option (Edn D)) (payload : List Byte) : Bool :=
  match payload.isEmpty, parse payload with
  | false, some (.map _) => true
  | _, _ => false

variable [CDouble D] [PitchMath D]

/-- The five cases that call `midi_io::send`. -/
def sendMidi (type : Byte) (payload : List Byte) : Option (List Byte) :=
  if type = msgCc then sendVoice cfg.toConfig cfg.midi .cc payload
  else if type = msgPitchBend then sendVoice cfg.toConfig cfg.midi .pitchBend payload
  else if type = msgChanPressure then sendVoice cfg.toConfig cfg.midi .chanPressure payload
  else if type = msgSysex then sendSysex cfg payload
  else sendMts cfg.toConfig cfg.midi payload

variable [CMath F] [CNarrow D F] [CTrunc D]

/-- The cases that need or make a session. -/
def sessionTypes : List Byte := [msgSessionOpen, msgSessionClose, msgRegisterSource, msgTxLog]

/-- The cases that push into a queue. -/
def eventTypes : List Byte := [msgParamSet, msgNoteOn, msgNoteOff, msgScheduleBundle, msgMidiIn]

/-- The cases for the modulator engine. -/
def modulatorTypes : List Byte := [msgModulatorStart, msgModulatorStop, msgModulatorUpdate]

/-- The cases that send MIDI. -/
def midiTypes : List Byte := [msgCc, msgPitchBend, msgChanPressure, msgSysex, msgMts]

/-- `dispatch_message`. -/
def dispatch (connFd : Int) (s : Served M O L) (msg : SessionMessage) :
    List (Effect D) × Served M O L :=
  if sessionTypes.contains msg.type then
    let (calls, session) := dispatchSession cfg.parse s.session msg
    (calls.map .log, { s with session := session })
  else if eventTypes.contains msg.type then
    ((dispatchMessage cfg.toConfig msg.type msg.payload).map .push, s)
  else if modulatorTypes.contains msg.type then
    ([], if cfg.modEngine then
        { s with engine := dispatchModulator cfg.modulators msg.type msg.payload s.engine }
      else s)
  else if midiTypes.contains msg.type then
    ((sendMidi cfg msg.type msg.payload).toList.map .midi, s)
  else if msg.type = msgOsc then ((sendOsc cfg.toConfig cfg.osc msg.payload).toList.map .osc, s)
  else if msg.type = msgReplEval then
    let (effects, scripts) := dispatchRepl cfg connFd msg.payload s.scripts
    (effects, { s with scripts := scripts })
  else
    let (effects, scripts) := dispatchExtension cfg connFd msg.type msg.payload s.scripts
    (effects, { s with scripts := scripts })

/-! ## Families -/

/-- What the messages share. -/
inductive Family where
  | session
  | events
  | modulators
  | midi
  | osc
  | scripts
  deriving DecidableEq, Repr

/-- The family of a case of the switch; types without a case have none. -/
def familyOf (type : Byte) : Option Family :=
  if sessionTypes.contains type then some .session
  else if eventTypes.contains type then some .events
  else if modulatorTypes.contains type then some .modulators
  else if midiTypes.contains type then some .midi
  else if type = msgOsc then some .osc
  else if type = msgReplEval ∨ type = msgWasmHotSwap then some .scripts
  else none

/-- The family that a message concerns: none, if it is read from a payload that is no map. -/
def concerns (msg : SessionMessage) : Option Family :=
  if switchesSession msg || isMap cfg.parse msg.payload then familyOf msg.type else none

/-- Where an effect goes. -/
def Effect.family : Effect D → Family
  | .log _ => .session
  | .push _ => .events
  | .midi _ => .midi
  | .osc _ => .osc
  | .tty _ => .scripts
  | .reply _ _ => .scripts

/-- Two states are the same for a family. -/
def Served.Alike (d : Family) (s t : Served M O L) : Prop :=
  match d with
  | .session => s.session = t.session
  | .modulators => s.engine = t.engine
  | .scripts => s.scripts = t.scripts
  | .events | .midi | .osc => True

/-- The switch, family by family. -/
theorem dispatch_eq (connFd : Int) (s : Served M O L) (msg : SessionMessage) :
    dispatch cfg connFd s msg =
      match familyOf msg.type with
      | some .session =>
          ((dispatchSession cfg.parse s.session msg).1.map .log,
            { s with session := (dispatchSession cfg.parse s.session msg).2 })
      | some .events => ((dispatchMessage cfg.toConfig msg.type msg.payload).map .push, s)
      | some .modulators =>
          ([], if cfg.modEngine then
              { s with engine := dispatchModulator cfg.modulators msg.type msg.payload s.engine }
            else s)
      | some .midi => ((sendMidi cfg msg.type msg.payload).toList.map .midi, s)
      | some .osc => ((sendOsc cfg.toConfig cfg.osc msg.payload).toList.map .osc, s)
      | some .scripts =>
          ((dispatchScripts cfg connFd msg.type msg.payload s.scripts).1,
            { s with scripts := (dispatchScripts cfg connFd msg.type msg.payload s.scripts).2 })
      | none => ([], s) := by
  unfold dispatch familyOf
  by_cases hsession : sessionTypes.contains msg.type
  · rw [if_pos hsession, if_pos hsession]
  by_cases hevents : eventTypes.contains msg.type
  · rw [if_neg hsession, if_neg hsession, if_pos hevents, if_pos hevents]
  by_cases hmod : modulatorTypes.contains msg.type
  · rw [if_neg hsession, if_neg hsession, if_neg hevents, if_neg hevents, if_pos hmod, if_pos hmod]
  rw [if_neg hsession, if_neg hsession, if_neg hevents, if_neg hevents, if_neg hmod, if_neg hmod]
  by_cases hmidi : midiTypes.contains msg.type
  · rw [if_pos hmidi, if_pos hmidi]
  rw [if_neg hmidi, if_neg hmidi]
  by_cases hosc : msg.type = msgOsc
  · rw [if_pos hosc, if_pos hosc]
  rw [if_neg hosc, if_neg hosc]
  by_cases hrepl : msg.type = msgReplEval
  · rw [if_pos hrepl, if_pos (.inl hrepl), dispatchScripts, if_pos hrepl]
  rw [if_neg hrepl]
  by_cases hswap : msg.type = msgWasmHotSwap
  · rw [if_pos (.inr hswap), dispatchScripts, if_neg hrepl]
  · rw [if_neg (not_or.mpr ⟨hrepl, hswap⟩)]
    have hnone := dispatchScripts_other cfg hrepl hswap connFd msg.payload s.scripts
    rw [dispatchScripts, if_neg hrepl] at hnone
    rw [hnone]

end Dispatch

/-! ## Payloads that are no maps -/

section Quiet

variable {D F M O L : Type*} {cfg : ThreadConfig D F M O L} {payload : List Byte}

theorem not_isMap {parse : List Byte → Option (Edn D)} (h : isMap parse payload = false) :
    payload = [] ∨ ∀ m, parse payload ≠ some (.map m) := by
  unfold isMap at h
  split at h
  · cases h
  · next hno =>
      by_cases hne : payload = []
      · exact .inl hne
      · exact .inr fun m hm => hno m (by simpa using hne) hm

/-- A case that looks at nothing but a map has no other result than for no payload. -/
theorem case_quiet {α : Type*} {parse : List Byte → Option (Edn D)}
    (h : isMap parse payload = false) {c : Prop} [Decidable c] (hc : payload = [] → c) (x : α)
    (f : List (Edn D × Edn D) → α) :
    (if c then x else match parse payload with
      | some (.map m) => f m
      | _ => x) = x := by
  split
  · rfl
  · next hne =>
      split
      · next m hm => exact absurd hm ((not_isMap h).resolve_left (fun hnil => hne (hc hnil)) m)
      · rfl

theorem sendSysex_quiet (h : isMap cfg.parse payload = false) : sendSysex cfg payload = none :=
  case_quiet h (by rintro rfl; simp) none _

theorem evaluated_quiet (h : isMap cfg.parse payload = false) (l : L) :
    evaluated cfg payload l = l := by
  unfold evaluated
  split
  · rfl
  · next hne =>
      split
      · next m run hm _ => exact absurd hm ((not_isMap h).resolve_left hne m)
      · rfl

theorem dispatchScripts_quiet (h : isMap cfg.parse payload = false) (connFd : Int) (type : Byte)
    (l : L) : dispatchScripts cfg connFd type payload l = ([], l) := by
  have hrepl : replEval (cfg.repl l) connFd payload = (none, none) := case_quiet h id _ _
  unfold dispatchScripts
  split
  · rw [dispatchRepl, hrepl, evaluated_quiet h]
    rfl
  · exact case_quiet h (fun hnil => .inr (by rw [hnil]; rfl)) _ _

theorem dispatchModulator_quiet [CMath F] [CNarrow D F] [CTrunc D]
    (h : isMap cfg.parse payload = false) (type : Byte) (e : Engine (List Byte) M O) :
    dispatchModulator cfg.modulators type payload e = e :=
  case_quiet h id e _

variable [CDouble D]

theorem sendMidi_quiet [PitchMath D] (h : isMap cfg.parse payload = false) (type : Byte) :
    sendMidi cfg type payload = none := by
  have hvoice : ∀ type, sendVoice cfg.toConfig cfg.midi type payload = none := fun type =>
    case_quiet h (by rintro rfl; simp) none _
  have hmts : sendMts cfg.toConfig cfg.midi payload = none :=
    case_quiet h (by rintro rfl; simp) none _
  unfold sendMidi
  split_ifs
  · exact hvoice .cc
  · exact hvoice .pitchBend
  · exact hvoice .chanPressure
  · exact sendSysex_quiet h
  · exact hmts

theorem sendOsc_quiet (h : isMap cfg.parse payload = false) :
    sendOsc cfg.toConfig cfg.osc payload = none :=
  case_quiet h (by rintro rfl; simp) none _

theorem dispatchMessage_quiet (h : isMap cfg.parse payload = false) (type : Byte) :
    dispatchMessage cfg.toConfig type payload = [] :=
  case_quiet h (by rintro rfl; rfl) [] _

theorem dispatchSession_quiet {msg : SessionMessage} (h : isMap cfg.parse msg.payload = false)
    (hswitch : switchesSession msg = false) (sess : Option Session) :
    dispatchSession cfg.parse sess msg = ([], sess) := by
  cases sess with
  | none => exact dispatchSession_none hswitch
  | some s =>
      have hcalls : logCalls cfg.parse msg = [] :=
        case_quiet h (fun hnil => by rw [hnil]; rfl) [] _
      rw [switchesSession, decide_eq_false_iff_not, not_or] at hswitch
      rw [dispatchSession, if_neg hswitch.1, if_neg hswitch.2, Session.forward, hcalls, ite_self]

end Quiet

/-! ## Families share nothing -/

section Families

variable {D F M O L : Type*} {cfg : ThreadConfig D F M O L} {msg : SessionMessage}

theorem concerns_cases (h : concerns cfg msg = none) :
    familyOf msg.type = none ∨ switchesSession msg = false ∧ isMap cfg.parse msg.payload = false := by
  unfold concerns at h
  split at h
  · exact .inl h
  · next hne => exact .inr (by simpa using hne)

theorem familyOf_of_concerns {d : Family} (h : concerns cfg msg = some d) :
    familyOf msg.type = some d := by
  unfold concerns at h
  split at h
  · exact h
  · cases h

theorem alike_equiv (d : Family) : Equivalence (Served.Alike (M := M) (O := O) (L := L) d) := by
  cases d with
  | session | modulators | scripts => exact ⟨fun _ => rfl, Eq.symm, Eq.trans⟩
  | events | midi | osc => exact ⟨fun _ => trivial, fun _ => trivial, fun _ _ => trivial⟩

theorem scripts_family {connFd : Int} {type : Byte} {payload : List Byte} {l : L} {e : Effect D}
    (he : e ∈ (dispatchScripts cfg connFd type payload l).1) : e.family = .scripts := by
  unfold dispatchScripts at he
  split at he
  · rw [dispatchRepl, List.mem_append] at he
    rcases he with he | he
    · obtain ⟨t, -, rfl⟩ := List.mem_map.mp he
      rfl
    · obtain ⟨t, -, rfl⟩ := List.mem_map.mp he
      rfl
  · unfold dispatchExtension at he
    split at he
    · cases he
    · split at he
      · split at he
        · cases he
        · dsimp only at he
          split at he
          · rw [List.mem_singleton] at he
            rw [he]
            rfl
          · cases he
      · cases he

variable [CDouble D] [PitchMath D] [CMath F] [CNarrow D F] [CTrunc D]

/-- A message that concerns no family does nothing. -/
theorem dispatch_quiet (h : concerns cfg msg = none) (connFd : Int) (s : Served M O L) :
    dispatch cfg connFd s msg = ([], s) := by
  rw [dispatch_eq]
  rcases concerns_cases h with hnone | ⟨hswitch, hmap⟩
  · rw [hnone]
  · cases familyOf msg.type with
    | none => rfl
    | some d =>
        cases d with
        | session => rw [dispatchSession_quiet hmap hswitch, List.map_nil]
        | events => rw [dispatchMessage_quiet hmap, List.map_nil]
        | modulators => rw [dispatchModulator_quiet hmap, ite_self]
        | midi => rw [sendMidi_quiet hmap, Option.toList_none, List.map_nil]
        | osc => rw [sendOsc_quiet hmap, Option.toList_none, List.map_nil]
        | scripts => rw [dispatchScripts_quiet hmap]

/-- The effects of a message are those of its family. -/
theorem family_of_mem_dispatch {d : Family} (h : concerns cfg msg = some d) {connFd : Int}
    {s : Served M O L} {e : Effect D} (he : e ∈ (dispatch cfg connFd s msg).1) : e.family = d := by
  rw [dispatch_eq, familyOf_of_concerns h] at he
  cases d with
  | modulators => cases he
  | scripts => exact scripts_family he
  | session | events | midi | osc =>
      obtain ⟨x, -, rfl⟩ := List.mem_map.mp he
      rfl

/-- A message changes nothing for another family. -/
theorem dispatch_alike {d : Family} (h : concerns cfg msg ≠ some d) (connFd : Int)
    (s : Served M O L) : Served.Alike d (dispatch cfg connFd s msg).2 s := by
  cases hdom : concerns cfg msg with
  | none =>
      rw [dispatch_quiet hdom]
      exact (alike_equiv d).refl s
  | some d' =>
      have hne : d' ≠ d := fun heq => h (heq ▸ hdom)
      rw [dispatch_eq, familyOf_of_concerns hdom]
      cases d' with
      | events | midi | osc => exact (alike_equiv d).refl s
      | session | scripts => cases d <;> first | exact absurd rfl hne | trivial
      | modulators =>
          dsimp only
          split_ifs
          · cases d <;> first | exact absurd rfl hne | trivial
          · exact (alike_equiv d).refl s

/-- A message touches its own family alone, and does there what that family's state says. -/
theorem dispatch_separated (cfg : ThreadConfig D F M O L) (connFd : Int) :
    Separated (dispatch cfg connFd) (concerns cfg) Effect.family Served.Alike where
  equiv := alike_equiv
  other s msg d hd := by
    refine ⟨dispatch_alike hd connFd s, fun e he hfamily => ?_⟩
    cases hdom : concerns cfg msg with
    | none =>
        rw [dispatch_quiet hdom] at he
        cases he
    | some d' =>
        rw [hdom, ← hfamily, family_of_mem_dispatch hdom he] at hd
        exact hd rfl
  own s t msg d hd hst := by
    rw [dispatch_eq, dispatch_eq, familyOf_of_concerns hd]
    cases d with
    | session =>
        have hst : s.session = t.session := hst
        dsimp only
        rw [hst]
        exact ⟨rfl, rfl⟩
    | modulators =>
        have hst : s.engine = t.engine := hst
        refine ⟨rfl, ?_⟩
        dsimp only
        rw [hst]
        split_ifs
        · rfl
        · exact hst
    | scripts =>
        have hst : s.scripts = t.scripts := hst
        dsimp only
        rw [hst]
        exact ⟨rfl, rfl⟩
    | events | midi | osc => exact ⟨rfl, trivial⟩

end Families

end NomosRt.Control
