/-
  NomosRt.Control.HandleConnection

  `handle_connection`: frames from the socket, one `dispatch_message` for each, replies
  back to the socket.

  What a connection does is a matter of the bytes its client sends.  The kernel may split
  and interrupt the transfers in any way; a transfer that fails ends the connection
  behind some frame.  From any family of messages a connection looks like one that
  carries that family's messages alone.
-/

import NomosRt.Control.Handler
import NomosRt.Ipc.Stream

namespace NomosRt.Control

open NomosRt.Lib NomosRt.Lib.EdnText NomosRt.Modulator NomosRt.Ipc

/-! ## The loop -/

/-- What a round of the loop finds: `running_`, and whether the database could be opened. -/
structure Round where
  running : Bool
  opens : Bool
  deriving DecidableEq, Repr

/-- The frames a message's effects write. -/
def replies {D : Type*} (effects : List (Effect D)) : List (Byte × Text) :=
  effects.filterMap fun e => match e with
    | .reply type payload => some (type, payload)
    | _ => none

/-- The writes of `dispatch_message`; their results are dropped. -/
def writeReplies (out : WriteEnd) (frames : List (Byte × Text)) : WriteEnd :=
  frames.foldl (fun out f => (writeMessage out f.1 f.2).2) out

section Loop

variable {D F M O L : Type*} [CDouble D] [PitchMath D] [CMath F] [CNarrow D F] [CTrunc D]
  (cfg : ThreadConfig D F M O L) (connFd : Int)

/-- `handle_connection`, in the state `s` of the thread with the session of the connection; `none` if
    it is still in its loop behind the rounds. -/
def serveRounds : List Round → ReadEnd → WriteEnd → Served M O L →
    Option (List (Effect D) × WriteEnd × Served M O L)
  | [], _, _, _ => none
  | r :: rounds, fd, out, s =>
      if r.running then
        match readMessage fd with
        | (.error _, _) => some ([], out, s)
        | (.ok msg, fd) =>
            let (effects, s) := dispatch cfg connFd s ⟨msg.hdr.type, msg.payload, r.opens⟩
            (serveRounds rounds fd (writeReplies out (replies effects)) s).map fun done =>
              (effects ++ done.1, done.2)
      else some ([], out, s)

/-- `handle_connection`: the connection starts without a session. -/
def handleConnection (rounds : List Round) (fd : ReadEnd) (out : WriteEnd) (s : Served M O L) :
    Option (List (Effect D) × WriteEnd × Served M O L) :=
  serveRounds cfg connFd rounds fd out { s with session := none }

/-- The messages in a stream, as the rounds that are run meet them. -/
def arrivals (rounds : List Round) (inbox : List Byte) : List SessionMessage :=
  List.zipWith (fun f r => ⟨f.1, f.2, r.opens⟩) (streamFrames inbox)
    (rounds.takeWhile (·.running))

end Loop

/-! ## What is served -/

theorem replies_append {D : Type*} (es es' : List (Effect D)) :
    replies (es ++ es') = replies es ++ replies es' :=
  List.filterMap_append

theorem writeReplies_append (out : WriteEnd) (fs fs' : List (Byte × Text)) :
    writeReplies out (fs ++ fs') = writeReplies (writeReplies out fs) fs' :=
  List.foldl_append

theorem arrivals_stopped {r : Round} (h : r.running = false) (rounds : List Round)
    (inbox : List Byte) : arrivals (r :: rounds) inbox = [] := by
  rw [arrivals, List.takeWhile_cons_of_neg (by simp [h]), List.zipWith_nil_right]

theorem arrivals_none {inbox : List Byte} (h : nextFrame inbox = none) (rounds : List Round) :
    arrivals rounds inbox = [] := by
  rw [arrivals, streamFrames_none h, List.zipWith_nil_left]

theorem arrivals_some {r : Round} (hr : r.running = true) {inbox rest : List Byte}
    {f : Byte × List Byte} (h : nextFrame inbox = some (f, rest)) (rounds : List Round) :
    arrivals (r :: rounds) inbox = ⟨f.1, f.2, r.opens⟩ :: arrivals rounds rest := by
  rw [arrivals, streamFrames_some h, List.takeWhile_cons_of_pos hr, List.zipWith_cons_cons]
  rfl

section Served

variable {D F M O L : Type*} [CDouble D] [PitchMath D] [CMath F] [CNarrow D F] [CTrunc D]
  {cfg : ThreadConfig D F M O L} {connFd : Int}

/-- The messages have been dispatched in order, with these effects, replies and end. -/
structure Dispatched (cfg : ThreadConfig D F M O L) (connFd : Int) (out : WriteEnd)
    (s : Served M O L) (msgs : List SessionMessage)
    (done : List (Effect D) × WriteEnd × Served M O L) : Prop where
  effects : done.1 = (Trace.events (dispatch cfg connFd) s msgs).flatten
  written : done.2.1 = writeReplies out (replies done.1)
  state : done.2.2 = Trace.after (dispatch cfg connFd) s msgs

theorem dispatched_nil (out : WriteEnd) (s : Served M O L) :
    Dispatched cfg connFd out s [] ([], out, s) :=
  ⟨rfl, rfl, rfl⟩

theorem Dispatched.cons {out : WriteEnd} {s : Served M O L} {msg : SessionMessage}
    {msgs : List SessionMessage} {done : List (Effect D) × WriteEnd × Served M O L}
    (h : Dispatched cfg connFd (writeReplies out (replies (dispatch cfg connFd s msg).1))
      (dispatch cfg connFd s msg).2 msgs done) :
    Dispatched cfg connFd out s (msg :: msgs) ((dispatch cfg connFd s msg).1 ++ done.1, done.2) where
  effects := by rw [Trace.events, List.flatten_cons, h.effects]
  written := by rw [replies_append, writeReplies_append, ← h.written]
  state := h.state

/-- Whatever the kernel does, what is dispatched is a front part of the stream's messages. -/
theorem serveRounds_prefix {rounds : List Round} {fd : ReadEnd} {out : WriteEnd} {s : Served M O L}
    {done : List (Effect D) × WriteEnd × Served M O L}
    (h : serveRounds cfg connFd rounds fd out s = some done) :
    ∃ msgs, msgs <+: arrivals rounds fd.inbox ∧ Dispatched cfg connFd out s msgs done := by
  induction rounds generalizing fd out s done with
  | nil => cases h
  | cons r rounds ih =>
      rw [serveRounds] at h
      split at h
      · next hr =>
          split at h
          · cases h
            exact ⟨[], List.nil_prefix, dispatched_nil out s⟩
          · next msg fd' hread =>
              obtain ⟨done', hdone, rfl⟩ := Option.map_eq_some_iff.mp h
              obtain ⟨msgs, hpre, hdisp⟩ := ih hdone
              refine ⟨_ :: msgs, ?_, hdisp.cons⟩
              rw [arrivals_some hr (readMessage_took hread)]
              exact List.cons_prefix_cons.mpr ⟨rfl, hpre⟩
      · cases h
        exact ⟨[], List.nil_prefix, dispatched_nil out s⟩

/-- A benign kernel and enough rounds: everything is dispatched and the loop ends. -/
theorem serveRounds_all {rounds : List Round} {fd : ReadEnd} (hb : Benign fd.sched)
    (hrounds : (streamFrames fd.inbox).length < rounds.length ∨ ∃ r ∈ rounds, r.running = false)
    (out : WriteEnd) (s : Served M O L) :
    ∃ done, serveRounds cfg connFd rounds fd out s = some done ∧
      Dispatched cfg connFd out s (arrivals rounds fd.inbox) done := by
  induction rounds generalizing fd out s with
  | nil =>
      rcases hrounds with hlen | ⟨r, hr, -⟩
      · cases hlen
      · cases hr
  | cons r rounds ih =>
      rw [serveRounds]
      cases hr : r.running with
      | false =>
          rw [arrivals_stopped hr]
          exact ⟨_, rfl, dispatched_nil out s⟩
      | true =>
          cases hnext : nextFrame fd.inbox with
          | none =>
              rw [arrivals_none hnext]
              cases hread : readMessage fd with
              | mk res fd' =>
                  cases res with
                  | error e => exact ⟨_, rfl, dispatched_nil out s⟩
                  | ok msg =>
                      -- a message would be a frame
                      rw [readMessage_took hread] at hnext
                      cases hnext
          | some next =>
              obtain ⟨f, rest⟩ := next
              obtain ⟨msg, fd', hread, hb', hf, hrest⟩ := readMessage_next hb fd.errno hnext
              have hrounds' : (streamFrames fd'.inbox).length < rounds.length ∨
                  ∃ r ∈ rounds, r.running = false := by
                rcases hrounds with hlen | ⟨r', hr', hstop⟩
                · left
                  rw [streamFrames_some hnext, List.length_cons, List.length_cons] at hlen
                  rw [hrest]
                  omega
                · right
                  rcases List.mem_cons.mp hr' with rfl | hr'
                  · rw [hr] at hstop
                    cases hstop
                  · exact ⟨r', hr', hstop⟩
              obtain ⟨done, hdone, hdisp⟩ := ih hb' hrounds'
                (writeReplies out (replies
                  (dispatch cfg connFd s ⟨msg.hdr.type, msg.payload, r.opens⟩).1))
                (dispatch cfg connFd s ⟨msg.hdr.type, msg.payload, r.opens⟩).2
              have heq : readMessage fd = (.ok msg, fd') := hread
              simp only [heq, hdone, if_true, Option.map_some]
              refine ⟨_, rfl, ?_⟩
              rw [arrivals_some hr hnext, ← hf]
              rw [hrest] at hdisp
              exact hdisp.cons

/-- Where the loop has ended there were rounds enough. -/
theorem rounds_of_serveRounds {rounds : List Round} {fd : ReadEnd} (hb : Benign fd.sched)
    {out : WriteEnd} {s : Served M O L} {done : List (Effect D) × WriteEnd × Served M O L}
    (h : serveRounds cfg connFd rounds fd out s = some done) :
    (streamFrames fd.inbox).length < rounds.length ∨ ∃ r ∈ rounds, r.running = false := by
  induction rounds generalizing fd out s done with
  | nil => cases h
  | cons r rounds ih =>
      rw [serveRounds] at h
      split at h
      · cases hnext : nextFrame fd.inbox with
        | none =>
            left
            rw [streamFrames_none hnext]
            exact Nat.zero_lt_succ _
        | some next =>
            obtain ⟨f, rest⟩ := next
            obtain ⟨msg, fd', hread, hb', -, hrest⟩ := readMessage_next hb fd.errno hnext
            have heq : readMessage fd = (.ok msg, fd') := hread
            simp only [heq] at h
            obtain ⟨done', hdone, -⟩ := Option.map_eq_some_iff.mp h
            rcases ih hb' hdone with hlen | ⟨r', hr', hstop⟩
            · left
              rw [hrest] at hlen
              rw [streamFrames_some hnext]
              exact Nat.succ_lt_succ hlen
            · exact .inr ⟨r', List.mem_cons_of_mem _ hr', hstop⟩
      · next hr => exact .inr ⟨r, List.mem_cons_self .., by simpa using hr⟩

/-- With a benign kernel everything has been dispatched where the loop has ended. -/
theorem serveRounds_benign {rounds : List Round} {fd : ReadEnd} (hb : Benign fd.sched)
    {out : WriteEnd} {s : Served M O L} {done : List (Effect D) × WriteEnd × Served M O L}
    (h : serveRounds cfg connFd rounds fd out s = some done) :
    Dispatched cfg connFd out s (arrivals rounds fd.inbox) done := by
  have hall : ∃ done', serveRounds cfg connFd rounds fd out s = some done' ∧ _ :=
    serveRounds_all hb (rounds_of_serveRounds hb h) out s
  obtain ⟨done', hdone, hdisp⟩ := hall
  rw [h] at hdone
  cases hdone
  exact hdisp

end Served

/-! ## Answers -/

section Answers

variable {D F M O L : Type*} {cfg : ThreadConfig D F M O L} {connFd : Int}

/-- The message is one that is answered: a request to evaluate, or to swap something. -/
def asks (cfg : ThreadConfig D F M O L) (msg : SessionMessage) : Bool :=
  match msg.payload.isEmpty, cfg.parse msg.payload with
  | false, some (.map m) =>
      msg.type = msgReplEval || (msg.type = msgWasmHotSwap && stringField m "wasm-path" ≠ [])
  | _, _ => false

/-- A frame that answers a message, and names what it answers. -/
def Answers (cfg : ThreadConfig D F M O L) (msg : SessionMessage) (f : Byte × Text) : Prop :=
  f.1 = msg.type ∧ ∃ m, cfg.parse msg.payload = some (.map m) ∧
    (msg.type = msgReplEval ∧ (∃ result, f.2 = replyText (stringField m "id") result) ∨
      msg.type = msgWasmHotSwap ∧ ∃ ok, f.2 = swapResponse (nodeIdOf m) ok)

theorem isMap_cases {parse : List Byte → Option (Edn D)} {payload : List Byte}
    (h : isMap parse payload = true) : payload ≠ [] ∧ ∃ m, parse payload = some (.map m) := by
  unfold isMap at h
  split at h
  · next m hne hm => exact ⟨by simpa using hne, m, hm⟩
  · cases h

theorem asks_eq_false {msg : SessionMessage} (h : isMap cfg.parse msg.payload = false) :
    asks cfg msg = false := by
  unfold asks
  split
  · next m hne hm => exact absurd hm ((not_isMap h).resolve_left (by simpa using hne) m)
  · rfl

theorem asks_eq {msg : SessionMessage} {m : List (Edn D × Edn D)} (hne : msg.payload ≠ [])
    (hm : cfg.parse msg.payload = some (.map m)) :
    asks cfg msg = (decide (msg.type = msgReplEval) ||
      (decide (msg.type = msgWasmHotSwap) && decide (stringField m "wasm-path" ≠ []))) := by
  have hempty : msg.payload.isEmpty = false := by simpa using hne
  rw [asks, hempty, hm]

theorem replies_dispatchRepl (hfd : 0 ≤ connFd) {msg : SessionMessage} {m : List (Edn D × Edn D)}
    (hne : msg.payload ≠ []) (hm : cfg.parse msg.payload = some (.map m)) (l : L) :
    ∃ result, replies (dispatchRepl cfg connFd msg.payload l).1 =
      [(msgReplEval, replyText (stringField m "id") result)] := by
  refine ⟨resultEdn (cfg.repl l) (destOf m) (stringField m "payload"), ?_⟩
  have hparse : (cfg.repl l).parse msg.payload = some (.map m) := hm
  rw [dispatchRepl, replEval, if_neg hne]
  simp only [hparse]
  rw [if_pos hfd, replies_append]
  split_ifs <;> rfl

theorem replies_dispatchExtension (hfd : 0 ≤ connFd) {msg : SessionMessage}
    {m : List (Edn D × Edn D)} (hne : msg.payload ≠ [])
    (hm : cfg.parse msg.payload = some (.map m)) (hpath : stringField m "wasm-path" ≠ []) (l : L) :
    ∃ ok, replies (dispatchExtension cfg connFd msgWasmHotSwap msg.payload l).1 =
      [(msgWasmHotSwap, swapResponse (nodeIdOf m) ok)] := by
  refine ⟨(swap cfg (nodeIdOf m) (stringField m "wasm-path") l).1, ?_⟩
  rw [dispatchExtension, if_neg (by simpa using hne)]
  simp only [hm]
  rw [if_neg hpath]
  dsimp only
  rw [if_pos hfd]
  rfl

theorem replies_map {α : Type*} {f : α → Effect D} (hf : ∀ x, (f x).family ≠ .scripts)
    (xs : List α) : replies (xs.map f) = [] := by
  rw [replies, List.filterMap_eq_nil_iff]
  intro e he
  obtain ⟨x, -, rfl⟩ := List.mem_map.mp he
  have hx := hf x
  cases hfx : f x with
  | reply type payload =>
      rw [hfx] at hx
      exact absurd rfl hx
  | _ => rfl

theorem familyOf_of_asks {msg : SessionMessage} (h : asks cfg msg = true) :
    familyOf msg.type = some .scripts := by
  unfold asks at h
  split at h
  · rw [Bool.or_eq_true, Bool.and_eq_true, decide_eq_true_iff, decide_eq_true_iff] at h
    rcases h with hrepl | ⟨hswap, -⟩
    · rw [hrepl]
      decide
    · rw [hswap]
      decide
  · cases h

theorem type_of_scripts {type : Byte} (h : familyOf type = some .scripts) :
    type = msgReplEval ∨ type = msgWasmHotSwap := by
  unfold familyOf at h
  split_ifs at h with h₁ h₂ h₃ h₄ h₅ hscripts
  all_goals first | exact hscripts | cases h

/-- The messages for the scripts are answered one by one. -/
theorem answers_dispatchScripts (hfd : 0 ≤ connFd) {msg : SessionMessage}
    (htype : msg.type = msgReplEval ∨ msg.type = msgWasmHotSwap) (l : L) :
    List.Forall₂ (Answers cfg) ([msg].filter (asks cfg))
      (replies (dispatchScripts cfg connFd msg.type msg.payload l).1) := by
  cases hmap : isMap cfg.parse msg.payload with
  | false =>
      rw [List.filter_cons_of_neg (by simp [asks_eq_false hmap]), dispatchScripts_quiet hmap]
      exact .nil
  | true =>
      obtain ⟨hne, m, hm⟩ := isMap_cases hmap
      rcases htype with hrepl | hswap
      · obtain ⟨result, hreply⟩ := replies_dispatchRepl hfd hne hm l
        rw [List.filter_cons_of_pos (by simp [asks_eq hne hm, hrepl]), dispatchScripts, if_pos hrepl,
          hreply]
        exact .cons ⟨hrepl.symm, m, hm, .inl ⟨hrepl, result, rfl⟩⟩ .nil
      · have hrepl : msgWasmHotSwap ≠ msgReplEval := by decide
        rw [dispatchScripts, hswap, if_neg hrepl]
        by_cases hpath : stringField m "wasm-path" = []
        · have hasks : asks cfg msg = false := by simp [asks_eq hne hm, hswap, hpath, hrepl]
          rw [List.filter_cons_of_neg (by simp [hasks]), dispatchExtension,
            if_neg (by simpa using hne)]
          simp only [hm, if_pos hpath]
          exact .nil
        · obtain ⟨ok, hreply⟩ := replies_dispatchExtension hfd hne hm hpath l
          rw [List.filter_cons_of_pos (by simp [asks_eq hne hm, hswap, hpath]), hreply]
          exact .cons ⟨hswap.symm, m, hm, .inr ⟨hswap, ok, rfl⟩⟩ .nil

variable [CDouble D] [PitchMath D] [CMath F] [CNarrow D F] [CTrunc D]

/-- A message is answered once if it asks, and not at all otherwise. -/
theorem answers_dispatch (hfd : 0 ≤ connFd) (s : Served M O L) (msg : SessionMessage) :
    List.Forall₂ (Answers cfg) ([msg].filter (asks cfg))
      (replies (dispatch cfg connFd s msg).1) := by
  rw [dispatch_eq]
  by_cases hscripts : familyOf msg.type = some .scripts
  · rw [hscripts]
    exact answers_dispatchScripts hfd (type_of_scripts hscripts) s.scripts
  · have hasks : asks cfg msg ≠ true := fun h => hscripts (familyOf_of_asks h)
    rw [List.filter_cons_of_neg hasks, List.filter_nil]
    cases hfam : familyOf msg.type with
    | none => exact .nil
    | some d =>
        cases d with
        | scripts => exact absurd hfam hscripts
        | modulators => exact .nil
        | session | events | midi | osc =>
            dsimp only
            rw [replies_map fun x => by simp [Effect.family]]
            exact .nil

/-- Along a run the answers come in the order of the questions. -/
theorem answers_events (hfd : 0 ≤ connFd) (s : Served M O L) (msgs : List SessionMessage) :
    List.Forall₂ (Answers cfg) (msgs.filter (asks cfg))
      (replies (Trace.events (dispatch cfg connFd) s msgs).flatten) := by
  induction msgs generalizing s with
  | nil => exact .nil
  | cons msg msgs ih =>
      rw [Trace.events, List.flatten_cons, replies_append, ← List.singleton_append,
        List.filter_append]
      exact List.rel_append (answers_dispatch hfd s msg) (ih _)

end Answers

/-! ## The client's side -/

/-- Replies that fit are written whole, one behind the other. -/
theorem writeReplies_spec {frames : List (Byte × Text)}
    (hlen : ∀ f ∈ frames, f.2.length ≤ maxPayloadBytes) {out : WriteEnd} (hb : Benign out.sched) :
    (writeReplies out frames).sent = out.sent ++ (frames.map fun f => frameBytes f.1 f.2).flatten := by
  induction frames generalizing out with
  | nil => simp [writeReplies]
  | cons f frames ih =>
      obtain ⟨out', hb', heq, hsent⟩ := writeMessage_spec hb f.1 (hlen f (List.mem_cons_self ..))
      have hnext := ih (fun g hg => hlen g (List.mem_cons_of_mem _ hg)) hb'
      rw [List.map_cons, List.flatten_cons, ← List.append_assoc, ← hsent, ← hnext]
      rw [writeReplies, List.foldl_cons, heq]
      rfl

/-! ## A connection -/

section Connection

variable {D F M O L : Type*} [CDouble D] [PitchMath D] [CMath F] [CNarrow D F] [CTrunc D]

/-- A connection dispatches the messages of its stream in order, each once: a front part of them
    whatever the kernel does, and, if the kernel only splits and interrupts transfers, all of them
    up to where the thread is stopped; then the loop ends.  Each question has one answer, in the
    order of the questions, and a client that reads with any such kernel gets the answers whole. -/
theorem handle_connection_serves_stream (cfg : ThreadConfig D F M O L) {connFd : Int}
    (hfd : 0 ≤ connFd) (rounds : List Round) (fd : ReadEnd) (out : WriteEnd) (s : Served M O L) :
    (∀ done, handleConnection cfg connFd rounds fd out s = some done →
      ∃ msgs, msgs <+: arrivals rounds fd.inbox ∧
        Dispatched cfg connFd out { s with session := none } msgs done ∧
        List.Forall₂ (Answers cfg) (msgs.filter (asks cfg)) (replies done.1)) ∧
    (Benign fd.sched →
      ((streamFrames fd.inbox).length < rounds.length ∨ ∃ r ∈ rounds, r.running = false) →
      ∃ done, handleConnection cfg connFd rounds fd out s = some done ∧
        Dispatched cfg connFd out { s with session := none } (arrivals rounds fd.inbox) done ∧
        (Benign out.sched → out.sent = [] →
          (∀ f ∈ replies done.1, f.2.length ≤ maxPayloadBytes) →
          ∀ reads errno, Benign reads →
            readAll ((replies done.1).length + 1) ⟨reads, done.2.1.sent, errno⟩ =
              (replies done.1).map (fun f => .ok (frameMessage f)) ++ [.error .eof])) := by
  refine ⟨fun done hdone => ?_, fun hb hrounds => ?_⟩
  · obtain ⟨msgs, hpre, hdisp⟩ := serveRounds_prefix hdone
    refine ⟨msgs, hpre, hdisp, ?_⟩
    rw [hdisp.effects]
    exact answers_events hfd _ msgs
  · have hall : ∃ done, handleConnection cfg connFd rounds fd out s = some done ∧ _ :=
      serveRounds_all hb hrounds out { s with session := none }
    obtain ⟨done, hdone, hdisp⟩ := hall
    refine ⟨done, hdone, hdisp, fun hbout hsent hfit reads errno hreads => ?_⟩
    rw [hdisp.written, writeReplies_spec hfit hbout, hsent, List.nil_append]
    exact readAll_frames hfit hreads errno

/-- From any family, two connections whose streams have the same messages of that family look the
    same, whatever else is sent on them, well-formed or not, and however the transfers are split. -/
theorem connection_families_independent (cfg : ThreadConfig D F M O L) (connFd : Int) (d : Family)
    {rounds rounds' : List Round} {fd fd' : ReadEnd} {out out' : WriteEnd} {s s' : Served M O L}
    {done done' : List (Effect D) × WriteEnd × Served M O L}
    (hb : Benign fd.sched) (hb' : Benign fd'.sched)
    (hdone : handleConnection cfg connFd rounds fd out s = some done)
    (hdone' : handleConnection cfg connFd rounds' fd' out' s' = some done')
    (hstart : Served.Alike d { s with session := none } { s' with session := none })
    (hsame : (arrivals rounds fd.inbox).filter (concerns cfg · = some d) =
      (arrivals rounds' fd'.inbox).filter (concerns cfg · = some d)) :
    done.1.filter (Effect.family · = d) = done'.1.filter (Effect.family · = d) ∧
      Served.Alike d done.2.2 done'.2.2 := by
  have hdisp := serveRounds_benign hb hdone
  have hdisp' := serveRounds_benign hb' hdone'
  rw [hdisp.effects, hdisp.state, hdisp'.effects, hdisp'.state]
  exact (dispatch_separated cfg connFd).agree d hstart hsame

end Connection

/-! ## A note and a question -/

section Question

attribute [local instance] exactMath

local instance : CNarrow Frequency ℚ := ⟨fun _ => 0⟩

local instance : CTrunc Frequency := ⟨fun _ => 0⟩

/-- `edn::parse` on an empty map and on a question for Fennel. -/
def parseQuestion (text : Text) : Option (Edn Frequency) :=
  if text = ascii "\x7b\x7d" then some (.map [])
  else if text = ascii "\x7b:dest :fennel\x7d" then
    some (.map [(.keyword "dest", .keyword "fennel")])
  else none

/-- A thread with a Lua state that counts its evaluations. -/
def countingConfig : ThreadConfig Frequency ℚ Unit Unit Nat where
  schedStaging := false
  parse := parseQuestion
  inetPton := fun _ => none
  modEngine := false
  sem := ⟨fun _ _ _ _ => ((), ()), fun _ _ _ => ()⟩
  ofBuiltin := fun _ => ()
  make := fun _ => none
  midi := false
  osc := false
  lua := some fun src n => (.returned (.string src), n + 1)
  ttySink := false
  wasmSwapFn := none

/-- No session, no modulators, nothing evaluated. -/
def freshlyServed : Served Unit Unit Nat := ⟨none, ⟨[], ⟨∅, []⟩, fun _ => none⟩, 0⟩

/-- Frames as a client writes them. -/
def clientBytes (frames : List (Byte × Text)) : List Byte :=
  (frames.map fun f => frameBytes f.1 f.2).flatten

/-- A note, a note that is cut off, and a question. -/
def noteAndQuestion : List (Byte × Text) :=
  [(msgNoteOn, ascii "\x7b\x7d"), (msgNoteOn, ascii "\x7b"),
    (msgReplEval, ascii "\x7b:dest :fennel\x7d")]

theorem streamFrames_clientBytes {frames : List (Byte × Text)}
    (hlen : ∀ f ∈ frames, f.2.length ≤ maxPayloadBytes) :
    streamFrames (clientBytes frames) = frames := by
  have hcut := streamFrames_frameBytes hlen []
  have hnil : streamFrames [] = [] := streamFrames_none rfl
  rwa [List.append_nil, hnil, List.append_nil] at hcut

theorem arrivals_clientBytes {frames : List (Byte × Text)}
    (hlen : ∀ f ∈ frames, f.2.length ≤ maxPayloadBytes) (rounds : List Round) :
    arrivals rounds (clientBytes frames) =
      List.zipWith (fun f r => ⟨f.1, f.2, r.opens⟩) frames (rounds.takeWhile (·.running)) := by
  rw [arrivals, streamFrames_clientBytes hlen]

/-- Four rounds, which is one more than the frames. -/
def fourRounds : List Round := List.replicate 4 ⟨true, true⟩

theorem fourRounds_enough {frames : List (Byte × Text)}
    (hlen : ∀ f ∈ frames, f.2.length ≤ maxPayloadBytes) (hfour : frames.length < 4) :
    (streamFrames (clientBytes frames)).length < fourRounds.length ∨
      ∃ r ∈ fourRounds, r.running = false := by
  rw [streamFrames_clientBytes hlen]
  exact .inl hfour

/-- The note is pushed, the cut note does nothing, the question is answered. -/
theorem note_and_question_served :
    ∃ done, handleConnection countingConfig 3 fourRounds
        ⟨[.moved 3, .fail .eintr, .moved 1], clientBytes noteAndQuestion, .clear⟩
        ⟨[.moved 5, .fail .eintr], [], .clear⟩ freshlyServed = some done ∧
      replies done.1 = [(msgReplEval, replyText [] (ascii "\"\""))] ∧
      done.2.2.scripts = 1 ∧
      readAll 2 ⟨[.moved 2], done.2.1.sent, .clear⟩ =
        [.ok (frameMessage (msgReplEval, replyText [] (ascii "\"\""))), .error .eof] := by
  have hfit : ∀ f ∈ noteAndQuestion, f.2.length ≤ maxPayloadBytes := by decide
  obtain ⟨done, hdone, hdisp, hclient⟩ := (handle_connection_serves_stream countingConfig
    (by decide : (0 : Int) ≤ 3) fourRounds
    ⟨[.moved 3, .fail .eintr, .moved 1], clientBytes noteAndQuestion, .clear⟩
    ⟨[.moved 5, .fail .eintr], [], .clear⟩ freshlyServed).2 (by decide)
    (fourRounds_enough hfit (by decide))
  have harrive := arrivals_clientBytes hfit fourRounds
  have hreplies : replies done.1 = [(msgReplEval, replyText [] (ascii "\"\""))] := by
    rw [hdisp.effects, harrive]
    rfl
  refine ⟨done, hdone, hreplies, ?_, ?_⟩
  · rw [hdisp.state, harrive]
    rfl
  · have hread := hclient (by decide) rfl (by rw [hreplies]; decide) [.moved 2] .clear (by decide)
    rw [hreplies] at hread
    exact hread

/-- The cut note and the question leave no trace in the queues. -/
theorem note_alone_independent :
    ∃ done done', handleConnection countingConfig 3 fourRounds
        ⟨[.moved 3, .fail .eintr, .moved 1], clientBytes noteAndQuestion, .clear⟩
        ⟨[], [], .clear⟩ freshlyServed = some done ∧
      handleConnection countingConfig 3 fourRounds
        ⟨[], clientBytes (noteAndQuestion.take 1), .clear⟩ ⟨[], [], .clear⟩ freshlyServed =
          some done' ∧
      done.1.filter (Effect.family · = .events) = done'.1.filter (Effect.family · = .events) := by
  have hfit : ∀ f ∈ noteAndQuestion, f.2.length ≤ maxPayloadBytes := by decide
  have hfit' : ∀ f ∈ noteAndQuestion.take 1, f.2.length ≤ maxPayloadBytes := by decide
  have hb : Benign [.moved 3, .fail .eintr, .moved 1] := by decide
  have hb' : Benign [] := by decide
  have hall : ∃ done, handleConnection countingConfig 3 fourRounds
      ⟨[.moved 3, .fail .eintr, .moved 1], clientBytes noteAndQuestion, .clear⟩ ⟨[], [], .clear⟩
      freshlyServed = some done ∧ _ :=
    serveRounds_all hb (fourRounds_enough hfit (by decide)) _ _
  have hall' : ∃ done, handleConnection countingConfig 3 fourRounds
      ⟨[], clientBytes (noteAndQuestion.take 1), .clear⟩ ⟨[], [], .clear⟩ freshlyServed =
        some done ∧ _ :=
    serveRounds_all hb' (fourRounds_enough hfit' (by decide)) _ _
  obtain ⟨done, hdone, -⟩ := hall
  obtain ⟨done', hdone', -⟩ := hall'
  refine ⟨done, done', hdone, hdone', ?_⟩
  refine (connection_families_independent countingConfig 3 .events hb hb' hdone hdone' trivial ?_).1
  rw [arrivals_clientBytes hfit, arrivals_clientBytes hfit']
  rfl

end Question

end NomosRt.Control
