/-
  NomosRt.Control.Dispatch

  What `rt_control_thread` enqueues for a message.

  `dispatch_message` is entered by the control thread for each message it reads
  from its socket and, through `dispatch_ctrl_frame`, by whatever thread has a
  frame to hand in.  Of its cases the five that push into a queue are modelled,
  each as the list of pushes it makes, in order; every other case leaves the
  three queues alone.

  `edn::parse` and `inet_pton` are outside the repository and are parameters.
-/

import NomosRt.Edn
import NomosRt.Ipc.Channel
import NomosRt.Osc.Server
import NomosRt.Scheduler.Tick

namespace NomosRt.Control

open NomosRt.Lib NomosRt.Osc NomosRt.Scheduler

/-! ## Events -/

/-- `osc_event_max_bytes`. -/
def oscEventMaxBytes : Nat := 256

/-- `osc_event`: the resolved endpoint and the encoded datagram. -/
structure OscEvent where
  addr : BitVec 32
  port : BitVec 16
  bytes : SmallVector Byte oscEventMaxBytes

instance : Inhabited OscEvent := ⟨0, 0, ⟨[], by decide⟩⟩

/-- `param_event`; `time` is left value-initialised. -/
structure ParamEvent (D : Type*) where
  path : Edn D
  value : Edn D

instance {D : Type*} : Inhabited (ParamEvent D) := ⟨.nil, .nil⟩

/-- `scheduled_event` at the program's types. -/
abbrev SchedEvent (D : Type*) := ScheduledEvent D (ClapEvent D) OscEvent

instance {D : Type*} [CDouble D] : Inhabited (SchedEvent D) :=
  ⟨⟨CDouble.ofInt 0, .clap, default, default⟩⟩

/-- One push: `queue_`, `in_queue_` or `sched_staging`, and the item. -/
inductive Enqueue (D : Type*) where
  | param (ev : ParamEvent D)
  | input (ev : ClapEvent D)
  | sched (ev : SchedEvent D)

/-- `param_queue_capacity`. -/
def paramQueueCapacity : Capacity := ⟨512, by decide, by decide⟩

/-- The parts of `config` that decide where an event goes, and the two functions
    from outside. -/
structure Config (D : Type*) where
  /-- `cfg_.sched_staging != nullptr`. -/
  schedStaging : Bool
  parse : List Byte → Option (Edn D)
  inetPton : List Byte → Option (BitVec 32)

section Messages

variable {D : Type*} [CDouble D]

/-! ## Field access -/

/-- The `get_i16` of the note handlers. -/
def getI16 (m : List (Edn D × Edn D)) (kw : String) (dflt : BitVec 16) : BitVec 16 :=
  match Edn.findKw kw m with
  | some (.int n) => BitVec.ofInt 16 n
  | _ => dflt

/-- `get_i`. -/
def getI (m : List (Edn D × Edn D)) (kw : String) (dflt : Int) : Int :=
  match Edn.findKw kw m with
  | some (.int n) => n
  | _ => dflt

/-- A number, integer or double, as a double. -/
def asDouble (v : Option (Edn D)) (dflt : D) : D :=
  match v with
  | some (.double x) => x
  | some (.int n) => CDouble.ofInt n
  | _ => dflt

/-- `get_dbl`, `get_d`. -/
def getDbl (m : List (Edn D × Edn D)) (kw : String) (dflt : D) : D :=
  asDouble (Edn.findKw kw m) dflt

/-! ## Events from EDN -/

/-- `make_note_event`. -/
def makeNoteEvent (isOn : Bool) (key channel port noteId : BitVec 16) (velocity : D) :
    ClapEvent D :=
  .note isOn noteId port channel key velocity

/-- `resolve_osc_endpoint`. -/
def resolveOscEndpoint (cfg : Config D) (host : List Byte) : Option (BitVec 32) :=
  if host.length ≥ 64 then none
  else cfg.inetPton (if host = ascii "localhost" then ascii "127.0.0.1" else host)

/-- `build_osc_event`. -/
def buildOscEvent (cfg : Config D) (host : List Byte) (port : BitVec 16) (address : List Byte)
    (args : List Arg) : Option OscEvent :=
  match resolveOscEndpoint cfg host with
  | none => none
  | some addr =>
      match encode (⟨[], Nat.zero_le _⟩ : SmallVector Byte oscEventMaxBytes) address args with
      | (true, bytes) => some ⟨addr, port, bytes⟩
      | (false, _) => none

/-- One item of `:args`; other types are dropped. -/
def argOfEdn : Edn D → Option Arg
  | .int n => some (.makeI (BitVec.ofInt 32 n))
  | .double x => some (.makeF (CDouble.toFloatBits x))
  | .string s => some (.makeS s)
  | _ => none

/-- `build_osc_event_from_edn`. -/
def buildOscEventFromEdn (cfg : Config D) (m : List (Edn D × Edn D)) : Option OscEvent :=
  match Edn.findKw "address" m, Edn.findKw "port" m with
  | some (.string address), some (.int port) =>
      let host := match Edn.findKw "host" m with
        | some (.string host) => host
        | _ => ascii "127.0.0.1"
      let args := match Edn.findKw "args" m with
        | some (.vector items) => items.filterMap argOfEdn
        | _ => []
      buildOscEvent cfg host (BitVec.ofInt 16 port) address args
  | _, _ => none

/-! ## The cases of `dispatch_message` -/

/-- `msg_param_set`. -/
def paramSet (m : List (Edn D × Edn D)) : List (Enqueue D) :=
  match Edn.findKw "path" m, Edn.findKw "value" m with
  | some path, some value => [.param ⟨path, value⟩]
  | _, _ => []

/-- `msg_note_on`, `msg_note_off`. -/
def noteOnOff (cfg : Config D) (isOn : Bool) (m : List (Edn D × Edn D)) : List (Enqueue D) :=
  let ev := makeNoteEvent isOn (getI16 m "key" 60) (getI16 m "channel" 0) (getI16 m "port" 0)
    (getI16 m "note-id" (-1)) (getDbl m "velocity" (CDouble.ofInt 0))
  if (Edn.findKw "beat" m).isSome ∧ cfg.schedStaging then
    [.sched ⟨getDbl m "beat" (CDouble.ofInt 0), .clap, ev, default⟩]
  else [.input ev]

/-- One item of a bundle's `:events`. -/
def bundleItem (cfg : Config D) (anchor : D) : Edn D → List (Enqueue D)
  | .map em =>
      let beat := CDouble.add anchor
        (CDouble.div (CDouble.ofInt (getI em "at-tick" 0)) (CDouble.ofInt 24))
      let type := match Edn.findKw "type" em with
        | some (.keyword name) => some name
        | _ => none
      if type = some "osc" then
        match buildOscEventFromEdn cfg em with
        | some oe => [.sched ⟨beat, .osc, default, oe⟩]
        | none => []
      else
        let ev := makeNoteEvent (type ≠ some "note-off") (BitVec.ofInt 16 (getI em "key" 60))
          (BitVec.ofInt 16 (getI em "channel" 0)) (BitVec.ofInt 16 (getI em "port" 0))
          (BitVec.ofInt 16 (getI em "note-id" (-1))) (getDbl em "velocity" (CDouble.ofInt 0))
        [.sched ⟨beat, .clap, ev, default⟩]
  | _ => []

/-- `msg_schedule_bundle`. -/
def scheduleBundle (cfg : Config D) (m : List (Edn D × Edn D)) : List (Enqueue D) :=
  match Edn.findKw "at-beat" m, Edn.findKw "events" m with
  | some beat, some (.vector items) =>
      items.flatMap (bundleItem cfg (asDouble (some beat) (CDouble.ofInt 0)))
  | _, _ => []

/-- Byte `i` of a `:data` vector; a missing or mistyped one stays 0. -/
def midiByte (items : List (Edn D)) (i : Nat) : Byte :=
  match items[i]? with
  | some (.int n) => BitVec.ofInt 8 n
  | _ => 0

/-- `msg_midi_in`. -/
def midiIn (m : List (Edn D × Edn D)) : List (Enqueue D) :=
  match Edn.findKw "data" m with
  | some (.vector items) =>
      [.input (.midi (getI16 m "port" 0) (midiByte items 0) (midiByte items 1)
        (midiByte items 2))]
  | _ => []

def msgParamSet : Byte := 0x40
def msgNoteOn : Byte := 0x41
def msgNoteOff : Byte := 0x42
def msgMidiIn : Byte := 0x43
def msgScheduleBundle : Byte := 0x45

/-- The pushes of `dispatch_message`, in order. -/
def dispatchMessage (cfg : Config D) (type : Byte) (payload : List Byte) : List (Enqueue D) :=
  if payload.isEmpty then []
  else
    match cfg.parse payload with
    | some (.map m) =>
        if type = msgParamSet then paramSet m
        else if type = msgNoteOn ∨ type = msgNoteOff then noteOnOff cfg (type = msgNoteOn) m
        else if type = msgScheduleBundle then
          if cfg.schedStaging then scheduleBundle cfg m else []
        else if type = msgMidiIn then midiIn m
        else []
    | _ => []

/-- `dispatch_ctrl_frame`: header and payload from one buffer. -/
def dispatchCtrlFrame (cfg : Config D) (buf : List Byte) : List (Enqueue D) :=
  if buf.length < Ipc.headerSize then []
  else
    let payloadLen := (bswap32 (loadWord buf)).toNat
    let type := buf.getD 4 0
    if payloadLen > buf.length - Ipc.headerSize then []
    else dispatchMessage cfg type ((buf.drop Ipc.headerSize).take payloadLen)

end Messages

end NomosRt.Control
