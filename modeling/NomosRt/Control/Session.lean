/-
  NomosRt.Control.Session

  The session of a connection: MSG-SESSION-OPEN, MSG-SESSION-CLOSE, MSG-REGISTER-SOURCE
  and MSG-TX-LOG of `dispatch_message`.

  `handle_connection` keeps an optional `session`.  An open assigns the result of
  `session::open`, which is empty if the database cannot be opened; the session that was
  there is gone either way.  Registrations and log entries without a session are dropped.

  `edn::parse` and the `txlog` library are outside the repository: a message brings
  whether the database could be opened, and what reaches the log is a list of its calls.
-/

import NomosRt.Edn
import NomosRt.Control.Dispatch
import NomosRt.Lib.Trace

namespace NomosRt.Control

open NomosRt.Lib

/-! ## Log entries -/

/-- A hexadecimal digit as `parse_uuid` reads it; `char` is signed. -/
def hexValue (c : Byte) : Byte :=
  if c.sle 0x39 then c - 0x30 else (c ||| 32) - 0x61 + 10

/-- The loop of `parse_uuid` over the rest of the text, with the bytes written so far.  Behind the
    last character stands a NUL. -/
def parseUuidLoop : List Byte → List Byte → List Byte
  | [], bytes => bytes
  | [c], bytes =>
      if bytes.length ≥ 16 ∨ c = 0x2D then bytes
      else bytes ++ [hexValue c <<< 4 ||| hexValue 0]
  | c :: d :: rest, bytes =>
      if bytes.length ≥ 16 then bytes
      else if c = 0x2D then parseUuidLoop (d :: rest) bytes
      else parseUuidLoop rest (bytes ++ [hexValue c <<< 4 ||| hexValue d])

/-- `parse_uuid`: bytes that are not written stay 0. -/
def parseUuid (s : List Byte) : List Byte :=
  if s.length ≠ 36 then List.replicate 16 0
  else
    let bytes := parseUuidLoop s []
    bytes ++ List.replicate (16 - bytes.length) 0

/-- `txlog::entry`; a field without a value is left as the library constructs it. -/
structure TxEntry (D : Type*) where
  id : Option (List Byte)
  beat : Option D
  wallNs : Option Int
  source : Option String
  path : Option (Edn D)
  before : Option (Edn D)
  after : Option (Edn D)
  parent : Option (Edn D)

/-- A call on the log. -/
inductive LogCall (D : Type*) where
  | emit (e : TxEntry D)
  | registerSource (id : String) (name description : List Byte)

section Messages

variable {D : Type*} [CDouble D]

/-- A field that is present and not nil. -/
def notNil (v : Option (Edn D)) : Option (Edn D) :=
  match v with
  | some .nil => none
  | v => v

/-- The entry of `msg_tx_log`. -/
def txEntry (m : List (Edn D × Edn D)) : TxEntry D where
  id := match Edn.findKw "id" m with
    | some (.tagged tag (.string text)) => if tag = "uuid" then some (parseUuid text) else none
    | _ => none
  beat := match Edn.findKw "beat" m with
    | some (.double x) => some x
    | some (.int n) => some (CDouble.ofInt n)
    | _ => none
  wallNs := match Edn.findKw "wall-ns" m with
    | some (.int n) => some n
    | _ => none
  source := match Edn.findKw "source" m with
    | some (.keyword name) => some name
    | _ => none
  path := Edn.findKw "path" m
  before := notNil (Edn.findKw "before" m)
  after := notNil (Edn.findKw "after" m)
  parent := notNil (Edn.findKw "parent" m)

/-- A string field, or the empty string. -/
def stringOr (v : Option (Edn D)) : List Byte :=
  match v with
  | some (.string s) => s
  | _ => []

/-- The source of `msg_register_source`. -/
def sourceInfo (m : List (Edn D × Edn D)) : List (LogCall D) :=
  match Edn.findKw "id" m with
  | some (.keyword id) =>
      [.registerSource id (stringOr (Edn.findKw "name" m)) (stringOr (Edn.findKw "description" m))]
  | _ => []

/-! ## `session` -/

/-- `session`: whether it holds a log. -/
structure Session where
  log : Bool
  deriving DecidableEq, Repr

/-- `session::open`. -/
def Session.open (opens : Bool) : Option Session := if opens then some ⟨true⟩ else none

/-- `session::register_source` and `session::emit`: the calls on the log, if there is one. -/
def Session.forward (s : Session) (calls : List (LogCall D)) : List (LogCall D) :=
  if s.log then calls else []

def msgTxLog : Byte := 0x30
def msgSessionOpen : Byte := 0x31
def msgSessionClose : Byte := 0x32
def msgRegisterSource : Byte := 0x33

/-- A message, and whether `txlog::log` can be constructed when it is dispatched. -/
structure SessionMessage where
  type : Byte
  payload : List Byte
  opens : Bool
  deriving DecidableEq, Repr

variable (parse : List Byte → Option (Edn D))

/-- What a message asks of an open log. -/
def logCalls (msg : SessionMessage) : List (LogCall D) :=
  if msg.payload.isEmpty then []
  else
    match parse msg.payload with
    | some (.map m) =>
        if msg.type = msgRegisterSource then sourceInfo m
        else if msg.type = msgTxLog then [.emit (txEntry m)]
        else []
    | _ => []

/-- `dispatch_message` on the session. -/
def dispatchSession (sess : Option Session) (msg : SessionMessage) :
    List (LogCall D) × Option Session :=
  if msg.type = msgSessionOpen then ([], Session.open msg.opens)
  -- the session is closed and then reset
  else if msg.type = msgSessionClose then ([], none)
  else
    match sess with
    | none => ([], none)
    | some s => (s.forward (logCalls parse msg), some s)

/-- The calls on the log of a connection, in order. -/
def connectionLog (msgs : List SessionMessage) : List (LogCall D) :=
  (Trace.events (dispatchSession parse) none msgs).flatten

/-- The session behind the messages of a connection. -/
def sessionAfter (msgs : List SessionMessage) : Option Session :=
  Trace.after (dispatchSession parse) none msgs

/-! ## A failed open -/

/-- The message opens or closes the session. -/
def switchesSession (msg : SessionMessage) : Bool :=
  msg.type = msgSessionOpen ∨ msg.type = msgSessionClose

variable {parse}

theorem dispatchSession_switch {msg : SessionMessage} (h : switchesSession msg = true)
    (sess sess' : Option Session) :
    dispatchSession parse sess msg = dispatchSession parse sess' msg := by
  rw [switchesSession, decide_eq_true_iff] at h
  rw [dispatchSession.eq_def, dispatchSession.eq_def]
  rcases h with hopen | hclose
  · rw [if_pos hopen, if_pos hopen]
  · split_ifs <;> rfl

theorem dispatchSession_none {msg : SessionMessage} (h : switchesSession msg = false) :
    dispatchSession parse none msg = ([], none) := by
  rw [switchesSession, decide_eq_false_iff_not, not_or] at h
  rw [dispatchSession, if_neg h.1, if_neg h.2]

theorem dispatchSession_some {msg : SessionMessage} (h : switchesSession msg = false) :
    dispatchSession parse (some ⟨true⟩) msg = (logCalls parse msg, some ⟨true⟩) := by
  rw [switchesSession, decide_eq_false_iff_not, not_or] at h
  rw [dispatchSession, if_neg h.1, if_neg h.2]
  rfl

/-- A session that the connection holds has its log. -/
theorem sessionAfter_eq (parse : List Byte → Option (Edn D)) (msgs : List SessionMessage) :
    sessionAfter parse msgs = none ∨ sessionAfter parse msgs = some ⟨true⟩ := by
  have hstep : ∀ (sess : Option Session) (msg : SessionMessage),
      (sess = none ∨ sess = some ⟨true⟩) → True →
      (dispatchSession parse sess msg).2 = none ∨
        (dispatchSession parse sess msg).2 = some ⟨true⟩ := by
    intro sess msg hsess _
    rw [dispatchSession.eq_def]
    split_ifs
    · cases msg.opens
      · exact .inl rfl
      · exact .inr rfl
    · exact .inl rfl
    · rcases hsess with rfl | rfl
      · exact .inl rfl
      · exact .inr rfl
  exact Trace.after_invariant hstep (.inl rfl) (fun _ _ => trivial)

/-- What an open session logs more than none does: everything before it is switched next. -/
theorem events_open_session (msgs : List SessionMessage) :
    (Trace.events (dispatchSession parse) (some ⟨true⟩) msgs).flatten =
      (msgs.takeWhile fun msg => !switchesSession msg).flatMap (logCalls parse) ++
        (Trace.events (dispatchSession parse) none msgs).flatten := by
  induction msgs with
  | nil => rfl
  | cons msg msgs ih =>
      rw [Trace.events, Trace.events, List.takeWhile_cons]
      cases hswitch : switchesSession msg with
      | true =>
          rw [dispatchSession_switch hswitch (some ⟨true⟩) none]
          rfl
      | false =>
          rw [dispatchSession_some hswitch, dispatchSession_none hswitch, List.flatten_cons, ih]
          simp

/-- An open that fails, inserted at any point, leaves the log of the connection as it was if and only
    if there is no session at that point, or nothing is logged before the session is opened or
    closed next. -/
theorem failed_open_keeps_log_iff (parse : List Byte → Option (Edn D))
    (pre post : List SessionMessage) (payload : List Byte) :
    connectionLog parse (pre ++ ⟨msgSessionOpen, payload, false⟩ :: post) =
        connectionLog parse (pre ++ post) ↔
      sessionAfter parse pre = none ∨
        ∀ msg ∈ post.takeWhile fun msg => !switchesSession msg, logCalls parse msg = [] := by
  have hfailed : ∀ sess, dispatchSession parse sess ⟨msgSessionOpen, payload, false⟩ = ([], none) :=
    fun _ => rfl
  rw [connectionLog, connectionLog, Trace.events_append, Trace.events_append, Trace.events, hfailed,
    List.flatten_append, List.flatten_append, List.append_cancel_left_eq, List.flatten_cons,
    List.nil_append]
  show _ = (Trace.events (dispatchSession parse) (sessionAfter parse pre) post).flatten ↔ _
  rcases sessionAfter_eq parse pre with hnone | hsome
  · rw [hnone]
    exact iff_of_true rfl (.inl rfl)
  · rw [hsome, events_open_session, List.self_eq_append_left, List.flatMap_eq_nil_iff]
    constructor
    · exact .inr
    · rintro (hnone | hquiet)
      · cases hnone
      · exact hquiet

end Messages

/-! ## A lost session -/

section Lost

/-- `edn::parse` on the text of an empty map. -/
def parseEmptyMap (text : List Byte) : Option (Edn Int) :=
  if text = ascii "\x7b\x7d" then some (.map []) else none

attribute [local instance] Osc.countingDouble

/-- An entry without fields. -/
def emptyEntry : SessionMessage := ⟨msgTxLog, ascii "\x7b\x7d", true⟩

/-- A session is open, an open fails, an entry arrives: it is dropped. -/
theorem failed_open_loses_session :
    connectionLog parseEmptyMap ([⟨msgSessionOpen, [], true⟩] ++ [emptyEntry]) =
      [.emit (txEntry [])] ∧
    connectionLog parseEmptyMap
        ([⟨msgSessionOpen, [], true⟩] ++ ⟨msgSessionOpen, [], false⟩ :: [emptyEntry]) = [] ∧
    connectionLog parseEmptyMap
        ([⟨msgSessionOpen, [], true⟩] ++ ⟨msgSessionOpen, [], false⟩ :: [emptyEntry]) ≠
      connectionLog parseEmptyMap ([⟨msgSessionOpen, [], true⟩] ++ [emptyEntry]) := by
  refine ⟨rfl, rfl, ?_⟩
  intro h
  cases h

end Lost

end NomosRt.Control
