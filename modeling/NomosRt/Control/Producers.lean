/-
  NomosRt.Control.Producers

  The threads that dispatch messages, at the granularity of the atomic accesses
  inside `spsc_queue::push`.

  The control thread dispatches what it reads from the socket; any other thread
  may call `dispatch_ctrl_frame`, whose declaration says that it is thread-safe.
  All of them push into the same three single-producer queues.  A dispatching
  thread makes the pushes of its message one after the other and ignores their
  results; the audio thread pops.
-/

import Mathlib.Data.Fintype.Option
import NomosRt.Control.Dispatch
import NomosRt.Spsc.Fifo

namespace NomosRt.Control

open NomosRt.Lib NomosRt.Scheduler NomosRt.Spsc

/-- The dispatching threads: the control thread (`none`) and the callers of
    `dispatch_ctrl_frame`. -/
abbrev Producer (P : Type*) := Option P

/-- The three queues with every thread's position in them, and the pushes each
    thread still has to make for the message it dispatches. -/
structure CtrlState (P D : Type*) where
  paramQ : QueueState (Producer P) (ParamEvent D)
  inQ : QueueState (Producer P) (ClapEvent D)
  schedQ : QueueState (Producer P) (SchedEvent D)
  todo : Producer P → List (Enqueue D)

/-- The steps of the system. -/
inductive CtrlAct (P D : Type*) where
  /-- The control thread enters `dispatch_message`. -/
  | socketMessage (type : Byte) (payload : List Byte)
  /-- Another thread enters `dispatch_ctrl_frame`. -/
  | ctrlFrame (p : P) (buf : List Byte)
  /-- A thread starts its next push. -/
  | nextPush (p : Producer P)
  | param (a : QueueAct (Producer P) (ParamEvent D))
  | input (a : QueueAct (Producer P) (ClapEvent D))
  | sched (a : QueueAct (Producer P) (SchedEvent D))

/-- Outside of `push`. -/
def isIdle {T : Type*} : PushPc T → Bool
  | .idle => true
  | _ => false

section System

variable {P D : Type*} [DecidableEq P] [CDouble D]

/-- The thread is inside no push. -/
def CtrlState.between (s : CtrlState P D) (p : Producer P) : Bool :=
  isIdle (s.paramQ.prod p) && isIdle (s.inQ.prod p) && isIdle (s.schedQ.prod p)

/-- A thread that has finished its message starts on the pushes of the next. -/
def CtrlState.enter (s : CtrlState P D) (p : Producer P) (pushes : List (Enqueue D)) :
    Option (CtrlState P D) :=
  if s.between p ∧ (s.todo p).isEmpty then
    some { s with todo := Function.update s.todo p pushes }
  else none

/-- The first step of a push: `head_` is loaded. -/
def CtrlState.begin (s : CtrlState P D) (p : Producer P) : Option (CtrlState P D) :=
  if s.between p then
    match s.todo p with
    | [] => none
    | .param ev :: rest =>
        (queueStep paramQueueCapacity s.paramQ (.pushLoadHead p ev)).map fun q =>
          { s with paramQ := q, todo := Function.update s.todo p rest }
    | .input ev :: rest =>
        (queueStep inQueueCapacity s.inQ (.pushLoadHead p ev)).map fun q =>
          { s with inQ := q, todo := Function.update s.todo p rest }
    | .sched ev :: rest =>
        (queueStep schedQueueCapacity s.schedQ (.pushLoadHead p ev)).map fun q =>
          { s with schedQ := q, todo := Function.update s.todo p rest }
  else none

/-- A later step of a push, or a step of the consumer. -/
def innerStep {T : Type*} (c : Capacity) (q : QueueState (Producer P) T) :
    QueueAct (Producer P) T → Option (QueueState (Producer P) T)
  | .pushLoadHead _ _ => none
  | a => queueStep c q a

/-- One step. -/
def ctrlStep (cfg : Config D) (s : CtrlState P D) : CtrlAct P D → Option (CtrlState P D)
  | .socketMessage type payload => s.enter none (dispatchMessage cfg type payload)
  | .ctrlFrame p buf => s.enter (some p) (dispatchCtrlFrame cfg buf)
  | .nextPush p => s.begin p
  | .param a => (innerStep paramQueueCapacity s.paramQ a).map fun q => { s with paramQ := q }
  | .input a => (innerStep inQueueCapacity s.inQ a).map fun q => { s with inQ := q }
  | .sched a => (innerStep schedQueueCapacity s.schedQ a).map fun q => { s with schedQ := q }

/-- The system before the first message. -/
def ctrlMachine (P : Type*) [DecidableEq P] (cfg : Config D) :
    Machine (CtrlState P D) (CtrlAct P D) where
  start := ⟨(queueMachine _ _ paramQueueCapacity).start, (queueMachine _ _ inQueueCapacity).start,
    (queueMachine _ _ schedQueueCapacity).start, fun _ => []⟩
  step := ctrlStep cfg

/-- No two threads are past the room test of the same queue at once, and a push
    that finds room has loaded the current head. -/
def PushesApart (s : CtrlState P D) : CtrlAct P D → Prop
  | .param a => NoOverlap paramQueueCapacity s.paramQ a
  | .input a => NoOverlap inQueueCapacity s.inQ a
  | .sched a => NoOverlap schedQueueCapacity s.schedQ a
  | _ => True

instance [Fintype P] {T : Type*} (c : Capacity) (q : QueueState (Producer P) T) :
    (a : QueueAct (Producer P) T) → Decidable (NoOverlap c q a)
  | .pushLoadTail p =>
      match hpc : q.prod p with
      | .loadedHead _ head =>
          decidable_of_iff ((head + 1) &&& c.mask ≠ q.q.tail →
            head = q.q.head ∧ ∀ p', (q.prod p').pastTest = false) (by simp only [NoOverlap, hpc])
      | .idle | .room .. | .written .. => .isTrue (by simp only [NoOverlap, hpc])
  | .pushLoadHead _ _ | .pushWriteSlot _ | .pushStoreHead _ | .popLoadTail | .popLoadHead
  | .popReadSlot | .popStoreTail => .isTrue trivial

instance [Fintype P] (s : CtrlState P D) : (a : CtrlAct P D) → Decidable (PushesApart s a)
  | .param a => inferInstanceAs (Decidable (NoOverlap paramQueueCapacity s.paramQ a))
  | .input a => inferInstanceAs (Decidable (NoOverlap inQueueCapacity s.inQ a))
  | .sched a => inferInstanceAs (Decidable (NoOverlap schedQueueCapacity s.schedQ a))
  | .socketMessage _ _ | .ctrlFrame _ _ | .nextPush _ => .isTrue trivial

/-! ## Delivery -/

/-- Each queue is a bounded FIFO. -/
structure CtrlInv (s : CtrlState P D) : Prop where
  paramQ : Inv paramQueueCapacity s.paramQ
  inQ : Inv inQueueCapacity s.inQ
  schedQ : Inv schedQueueCapacity s.schedQ

variable {cfg : Config D} {s s' : CtrlState P D}

theorem inv_innerStep {T : Type*} {c : Capacity} {q q' : QueueState (Producer P) T}
    {a : QueueAct (Producer P) T} (h : Inv c q) (hG : NoOverlap c q a)
    (hs : innerStep c q a = some q') : Inv c q' := by
  cases a with
  | pushLoadHead p item => cases hs
  | pushLoadTail p => exact inv_step _ h hG hs
  | pushWriteSlot p => exact inv_step _ h hG hs
  | pushStoreHead p => exact inv_step _ h hG hs
  | popLoadTail => exact inv_step _ h hG hs
  | popLoadHead => exact inv_step _ h hG hs
  | popReadSlot => exact inv_step _ h hG hs
  | popStoreTail => exact inv_step _ h hG hs

omit [CDouble D] in
theorem inv_enter {p : Producer P} {pushes : List (Enqueue D)} (h : CtrlInv s)
    (hs : s.enter p pushes = some s') : CtrlInv s' := by
  rw [CtrlState.enter] at hs
  split at hs
  · cases hs
    exact ⟨h.paramQ, h.inQ, h.schedQ⟩
  · cases hs

omit [CDouble D] in
theorem inv_begin {p : Producer P} (h : CtrlInv s) (hs : s.begin p = some s') : CtrlInv s' := by
  rw [CtrlState.begin] at hs
  split at hs
  · split at hs
    · cases hs
    · obtain ⟨q, hq, rfl⟩ := Option.map_eq_some_iff.mp hs
      exact ⟨inv_pushLoadHead h.paramQ hq, h.inQ, h.schedQ⟩
    · obtain ⟨q, hq, rfl⟩ := Option.map_eq_some_iff.mp hs
      exact ⟨h.paramQ, inv_pushLoadHead h.inQ hq, h.schedQ⟩
    · obtain ⟨q, hq, rfl⟩ := Option.map_eq_some_iff.mp hs
      exact ⟨h.paramQ, h.inQ, inv_pushLoadHead h.schedQ hq⟩
  · cases hs

theorem ctrlInv_step {a : CtrlAct P D} (h : CtrlInv s) (hG : PushesApart s a)
    (hs : ctrlStep cfg s a = some s') : CtrlInv s' := by
  cases a with
  | socketMessage type payload => exact inv_enter h hs
  | ctrlFrame p buf => exact inv_enter h hs
  | nextPush p => exact inv_begin h hs
  | param a =>
      obtain ⟨q, hq, rfl⟩ := Option.map_eq_some_iff.mp hs
      exact ⟨inv_innerStep h.paramQ hG hq, h.inQ, h.schedQ⟩
  | input a =>
      obtain ⟨q, hq, rfl⟩ := Option.map_eq_some_iff.mp hs
      exact ⟨h.paramQ, inv_innerStep h.inQ hG hq, h.schedQ⟩
  | sched a =>
      obtain ⟨q, hq, rfl⟩ := Option.map_eq_some_iff.mp hs
      exact ⟨h.paramQ, h.inQ, inv_innerStep h.schedQ hG hq⟩

theorem ctrlInv_start : CtrlInv (ctrlMachine P cfg).start := ⟨inv_start, inv_start, inv_start⟩

/-- In every run in which no two pushes into one queue overlap, every accepted
    parameter, input and scheduled event is delivered exactly once and in order. -/
theorem dispatched_events_delivered (cfg : Config D) (as : List (CtrlAct P D))
    (s : CtrlState P D) (h : (ctrlMachine P cfg).Reached PushesApart as s) :
    s.paramQ.Delivers paramQueueCapacity ∧ s.inQ.Delivers inQueueCapacity ∧
      s.schedQ.Delivers schedQueueCapacity := by
  have hI : CtrlInv s :=
    h.invariant ctrlInv_start fun _ _ _ hI hG hs => ctrlInv_step hI hG hs
  exact ⟨hI.paramQ.delivers, hI.inQ.delivers, hI.schedQ.delivers⟩

end System

/-! ## Two threads and one input queue -/

section TwoThreads

/-- `edn::parse` on the two payloads used below. -/
def parseKey (text : List Byte) : Option (Edn Int) :=
  if text = ascii "\x7b:key 60\x7d" then some (.map [(.keyword "key", .int 60)])
  else if text = ascii "\x7b:key 64\x7d" then some (.map [(.keyword "key", .int 64)])
  else none

/-- No scheduler wired: notes go straight to `in_queue_`. -/
def immediateConfig : Config Int := ⟨false, parseKey, fun _ => none⟩

/-- A whole `msg_note_on` frame, as handed to `dispatch_ctrl_frame`. -/
def noteFrame : List Byte := Ipc.frameBytes msgNoteOn (ascii "\x7b:key 64\x7d")

attribute [local instance] Osc.countingDouble

/-- The note-on event with the given key. -/
def noteKey (key : BitVec 16) : ClapEvent Int := .note true (-1) 0 0 key 0

/-- Both threads dispatch a note; the second starts its push when the first has
    stored the head. -/
def apartSchedule : List (CtrlAct Unit Int) :=
  [.socketMessage msgNoteOn (ascii "\x7b:key 60\x7d"), .ctrlFrame () noteFrame,
   .nextPush none, .input (.pushLoadTail none), .input (.pushWriteSlot none),
   .input (.pushStoreHead none),
   .nextPush (some ()), .input (.pushLoadTail (some ())), .input .popLoadTail,
   .input (.pushWriteSlot (some ())), .input (.pushStoreHead (some ()))]

/-- The same two notes, the two pushes in step with each other; then the consumer
    pops until the queue is empty. -/
def overlapSchedule : List (CtrlAct Unit Int) :=
  [.socketMessage msgNoteOn (ascii "\x7b:key 60\x7d"), .ctrlFrame () noteFrame,
   .nextPush none, .nextPush (some ()),
   .input (.pushLoadTail none), .input (.pushLoadTail (some ())),
   .input (.pushWriteSlot none), .input (.pushWriteSlot (some ())),
   .input (.pushStoreHead none), .input (.pushStoreHead (some ())),
   .input .popLoadTail, .input .popLoadHead, .input .popReadSlot, .input .popStoreTail,
   .input .popLoadTail, .input .popLoadHead]

theorem dispatched_events_apartSchedule :
    ∃ s, (ctrlMachine Unit immediateConfig).Reached PushesApart apartSchedule s ∧
      s.inQ.pushed = [noteKey 60, noteKey 64] ∧ s.inQ.Delivers inQueueCapacity := by
  have hrun : ((ctrlMachine Unit immediateConfig).runIf PushesApart
      (ctrlMachine Unit immediateConfig).start apartSchedule).map (fun s => s.inQ.pushed) =
        some [noteKey 60, noteKey 64] := by decide
  obtain ⟨s, hs, hpushed⟩ := Option.map_eq_some_iff.mp hrun
  have hreached := Machine.reached_of_runIf hs
  have hdeliv := dispatched_events_delivered immediateConfig apartSchedule s hreached
  exact ⟨s, hreached, hpushed, hdeliv.2.1⟩

/-- Both pushes return true, both threads are done, the consumer has found the
    queue empty, and the first note was never popped. -/
theorem dispatched_events_lost :
    ∃ s, (ctrlMachine Unit immediateConfig).Reached Machine.free overlapSchedule s ∧
      s.inQ.pushed = [noteKey 60, noteKey 64] ∧ s.inQ.popped = [noteKey 64] ∧
      s.inQ.q.head = s.inQ.q.tail ∧ ¬ s.inQ.Delivers inQueueCapacity := by
  have hrun : ((ctrlMachine Unit immediateConfig).run (ctrlMachine Unit immediateConfig).start
      overlapSchedule).map (fun s => (s.inQ.pushed, s.inQ.popped, s.inQ.q.head, s.inQ.q.tail)) =
        some ([noteKey 60, noteKey 64], [noteKey 64], 1, 1) := by decide
  obtain ⟨s, hs, hview⟩ := Option.map_eq_some_iff.mp hrun
  simp only [Prod.mk.injEq] at hview
  obtain ⟨hpushed, hpopped, hhead, htail⟩ := hview
  refine ⟨s, Machine.reached_of_run hs, hpushed, hpopped, hhead.trans htail.symm, ?_⟩
  intro hdeliv
  have hprefix := hdeliv.in_order
  rw [hpushed, hpopped] at hprefix
  exact absurd hprefix (by decide)

end TwoThreads

end NomosRt.Control
