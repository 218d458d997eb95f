/-
  NomosRt.Control.Connection

  The client connection of `rt_control_thread`: who owns its descriptor, and who
  writes to it.

  The control thread accepts a client, publishes the descriptor in `conn_fd_write_`
  under `write_mutex_`, serves the client, withdraws the descriptor under the same
  mutex and closes it.  Any number of threads call `push_frame`, and one call of
  `stop()` gets past the exchange of `running_` (the others return at once).

  The kernel is a table from descriptor numbers to what they name.  `::accept`
  returns any free number, and the rest of the process opens and closes descriptors
  of its own, so a number that was closed may come back as anything.  One action is
  one system call or one step between two of them; an interrupted `::read` or
  `::write` is called again and is no action.  The bytes of a frame that is being
  written are `Ipc.Outbound`'s subject: here a `write_message` is what is left of
  its two buffers.
-/

import Mathlib.Logic.Function.Basic
import NomosRt.Lib.Machine
import NomosRt.Lib.Mutex
import NomosRt.Ipc.Channel

namespace NomosRt.Control

open NomosRt.Lib NomosRt.Ipc

/-! ## The kernel's side -/

abbrev Fd := Nat

/-- A connection: `shutdown` was called on it, the client closed its end, bytes the client
    sent that are not read yet, bytes the client's receive buffer still takes. -/
structure Conn where
  shut : Bool
  gone : Bool
  inbox : List Byte
  room : Nat
  deriving DecidableEq

/-- What a descriptor names. -/
inductive Desc where
  | listener (shut : Bool)
  | conn (c : Conn)
  | other
  deriving DecidableEq

/-- A `::write` that moves `k` bytes; `none` if it does not. -/
def Desc.write (k : Nat) : Desc → Option Desc
  | .conn c =>
      if c.shut = false ∧ c.gone = false ∧ k ≤ c.room then
        some (.conn { c with room := c.room - k })
      else none
  | .other => some .other
  | .listener _ => none

/-- Whether a `::write` fails at once. -/
def writeFails : Option Desc → Bool
  | some (.conn c) => c.shut || c.gone
  | some .other => false
  | _ => true

/-- A `::read` that moves `k` bytes. -/
def Desc.read (k : Nat) : Desc → Option (List Byte × Desc)
  | .conn c =>
      if k ≤ c.inbox.length then some (c.inbox.take k, .conn { c with inbox := c.inbox.drop k })
      else none
  | _ => none

/-- Whether a `::read` returns nothing or fails at once. -/
def readFails : Option Desc → Bool
  | some (.conn c) => c.inbox.isEmpty && (c.shut || c.gone)
  | _ => true

/-- `::shutdown`. -/
def Desc.shutdown : Desc → Desc
  | .conn c => .conn { c with shut := true }
  | .listener _ => .listener true
  | .other => .other

/-! ## Positions -/

/-- What is left of the two buffers of a `write_message`. -/
structure Rest where
  hdr : Nat
  payload : Nat
  deriving DecidableEq

namespace Rest

/-- A frame with a payload of `n` bytes. -/
def frame (n : Nat) : Rest := ⟨headerSize, n⟩

/-- What the next `::write` is given. -/
def buf (r : Rest) : Nat := if r.hdr = 0 then r.payload else r.hdr

/-- After a `::write` of `k` bytes. -/
def write (r : Rest) (k : Nat) : Rest :=
  if r.hdr = 0 then ⟨0, r.payload - k⟩ else ⟨r.hdr - k, r.payload⟩

/-- All that is left. -/
def left (r : Rest) : Nat := r.hdr + r.payload

end Rest

/-- What `read_message` does with the bytes it has: ask for more, give up on an oversized
    frame, or return the message. -/
inductive ReadNext where
  | need (n : Nat)
  | tooLarge
  | message
  deriving DecidableEq

def readNext (got : List Byte) : ReadNext :=
  if got.length < headerSize then .need (headerSize - got.length)
  else
    let len := (bswap32 (Header.ofImage (got.take headerSize)).payloadLen).toNat
    if len > maxPayloadBytes then .tooLarge
    else if got.length < headerSize + len then .need (headerSize + len - got.length)
    else .message

/-- Where the control thread is in `run` and `handle_connection`. -/
inductive CtrlPc where
  | top
  /-- `running_` found set; about to call `::accept`. -/
  | calling
  | accepting (listenFd : Option Fd)
  /-- In `handle_connection`, before its first lock. -/
  | entering (fd : Fd)
  | publishing (fd : Fd)
  | published (fd : Fd)
  /-- At the test of `running_` in `handle_connection`. -/
  | testing (fd : Fd)
  | reading (fd : Fd) (got : List Byte)
  | dispatching (fd : Fd)
  /-- `dispatch_message` writes a reply, without the mutex. -/
  | replying (fd : Fd) (rest : Rest)
  /-- Out of the loop, before the second lock. -/
  | leaving (fd : Fd)
  | withdrawing (fd : Fd)
  | withdrawn (fd : Fd)
  /-- Back in `run`, before `::close`. -/
  | closing (fd : Fd)
  | exited
  deriving DecidableEq

/-- Where a thread is in `push_frame`. -/
inductive PushFramePc where
  | idle
  | locked (rest : Rest)
  | writing (fd : Fd) (rest : Rest)
  | unlocking
  deriving DecidableEq

/-- Where `stop()` is. -/
inductive StopPc where
  | idle
  /-- `running_` cleared, before the lock. -/
  | cleared
  | locked
  | shutting (fd : Fd)
  | unlocking
  | shutListener
  | closeListener
  | joining
  | returned
  deriving DecidableEq

/-- Holding `write_mutex_`. -/
def CtrlPc.locked : CtrlPc → Bool
  | .publishing _ | .published _ | .withdrawing _ | .withdrawn _ => true
  | _ => false

def PushFramePc.inside : PushFramePc → Bool
  | .idle => false
  | _ => true

def StopPc.inside : StopPc → Bool
  | .locked | .shutting _ | .unlocking => true
  | _ => false

/-- The descriptor `conn_fd_write_` holds while the control thread is here. -/
def CtrlPc.fdWrite : CtrlPc → Option Fd
  | .published fd | .testing fd | .reading fd _ | .dispatching fd | .replying fd _ | .leaving fd
  | .withdrawing fd => some fd
  | _ => none

/-- The connection being served: the control thread is inside `handle_connection` for it. -/
def CtrlPc.serving : CtrlPc → Option Fd
  | .entering fd | .publishing fd | .withdrawn fd => some fd
  | pc => pc.fdWrite

/-- The connection accepted and not yet closed. -/
def CtrlPc.accepted : CtrlPc → Option Fd
  | .closing fd => some fd
  | pc => pc.serving

/-- The threads that take `write_mutex_`. -/
inductive Who (P : Type*) where
  | ctrl
  | push (p : P)
  | stop
  deriving DecidableEq

/-! ## The machine -/

/-- The calls on client descriptors that are recorded; `left` is the return from
    `handle_connection`. -/
inductive Call where
  | accepted (fd : Fd)
  | left (fd : Fd)
  | closed (fd : Fd)
  | pushWrite (fd : Fd)
  | stopShutdown (fd : Fd)
  deriving DecidableEq

/-- The descriptor a `::write` of `push_frame` or a `::shutdown` of `stop()` targets. -/
def Call.target : Call → Option Fd
  | .pushWrite fd | .stopShutdown fd => some fd
  | _ => none

/-- The members of `rt_control_thread`, the threads' positions, the kernel's table, the
    clients waiting to be accepted, and the record of calls. -/
structure ConnState (P : Type*) where
  running : Bool
  mutex : Option (Who P)
  connFdWrite : Option Fd
  listenFd : Option Fd
  ctrl : CtrlPc
  push : P → PushFramePc
  stop : StopPc
  table : Fd → Option Desc
  waiting : Nat
  log : List Call

/-- Steps; `next` is a thread's step where nothing is left to choose. -/
inductive ConnAct (P : Type*) where
  | ctrlNext
  | accept (fd : Fd) (room : Nat)
  | read (k : Nat)
  | reply (n : Nat)
  | replyWrite (k : Nat)
  | pushCall (p : P) (n : Nat)
  | pushNext (p : P)
  | pushWrite (p : P) (k : Nat)
  | stopNext
  -- clients
  | connect
  | send (fd : Fd) (bs : List Byte)
  | recv (fd : Fd) (k : Nat)
  | disconnect (fd : Fd)
  -- signals, kernel failures, the rest of the process
  | acceptIntr
  | acceptErr
  | openOther (fd : Fd)
  | closeOther (fd : Fd)

namespace ConnState

variable {P : Type*}

/-- `::accept` on this number blocks when no client waits. -/
def listens (s : ConnState P) (l : Option Fd) : Bool := l.bind s.table == some (.listener false)

/-- A descriptor's entry replaced. -/
def setDesc (s : ConnState P) (fd : Fd) (d : Option Desc) : ConnState P :=
  { s with table := Function.update s.table fd d }

/-- A client's own step on its connection. -/
def onConn (s : ConnState P) (fd : Fd) (f : Conn → Conn) : Option (ConnState P) :=
  match s.table fd with
  | some (.conn c) => some (s.setDesc fd (some (.conn (f c))))
  | _ => none

/-- The control thread: `run` and `handle_connection`. -/
def ctrlNext (s : ConnState P) : Option (ConnState P) :=
  match s.ctrl with
  | .top => some { s with ctrl := if s.running then .calling else .exited }
  | .calling => some { s with ctrl := .accepting s.listenFd }
  | .accepting l =>
      -- a failed `::accept` that was not interrupted ends the loop
      if s.listens l then none else some { s with ctrl := .exited }
  | .entering fd =>
      if s.mutex.isNone then some { s with mutex := some .ctrl, ctrl := .publishing fd } else none
  | .publishing fd => some { s with connFdWrite := some fd, ctrl := .published fd }
  -- published first, `running_` tested afterwards: a `stop()` in between sees the descriptor
  | .published fd => some { s with mutex := none, ctrl := .testing fd }
  | .testing fd => some { s with ctrl := if s.running then .reading fd [] else .leaving fd }
  | .reading fd got =>
      match readNext got with
      | .need _ => if readFails (s.table fd) then some { s with ctrl := .leaving fd } else none
      | .tooLarge => some { s with ctrl := .leaving fd }
      | .message => some { s with ctrl := .dispatching fd }
  | .dispatching fd => some { s with ctrl := .testing fd }
  | .replying fd rest =>
      -- what `write_message` returns is not looked at
      if rest.left = 0 ∨ writeFails (s.table fd) then some { s with ctrl := .dispatching fd }
      else none
  | .leaving fd =>
      if s.mutex.isNone then some { s with mutex := some .ctrl, ctrl := .withdrawing fd } else none
  | .withdrawing fd => some { s with connFdWrite := none, ctrl := .withdrawn fd }
  | .withdrawn fd => some { s with mutex := none, ctrl := .closing fd, log := s.log ++ [.left fd] }
  | .closing fd =>
      -- from here on the kernel may give the number to anybody
      some { s.setDesc fd none with ctrl := .top, log := s.log ++ [.closed fd] }
  | .exited => none

/-- `stop()`. -/
def stopNext (s : ConnState P) : Option (ConnState P) :=
  match s.stop with
  -- `running_.exchange(false)`
  | .idle => if s.running then some { s with running := false, stop := .cleared } else none
  | .cleared =>
      if s.mutex.isNone then some { s with mutex := some .stop, stop := .locked } else none
  | .locked =>
      match s.connFdWrite with
      | some fd => some { s with stop := .shutting fd }
      | none => some { s with stop := .unlocking }
  | .shutting fd =>
      some { s.setDesc fd ((s.table fd).map Desc.shutdown) with
        stop := .unlocking, log := s.log ++ [.stopShutdown fd] }
  | .unlocking => some { s with mutex := none, stop := .shutListener }
  -- the listener is handled outside the mutex
  | .shutListener =>
      match s.listenFd with
      | some l =>
          some { s.setDesc l ((s.table l).map Desc.shutdown) with stop := .closeListener }
      | none => some { s with stop := .joining }
  | .closeListener =>
      match s.listenFd with
      | some l => some { s.setDesc l none with listenFd := none, stop := .joining }
      | none => some { s with stop := .joining }
  -- `thread_.join()`
  | .joining => if s.ctrl = .exited then some { s with stop := .returned } else none
  | .returned => none

variable [DecidableEq P]

/-- `push_frame`, after its lock and between its `::write`s. -/
def pushNext (s : ConnState P) (p : P) : Option (ConnState P) :=
  match s.push p with
  | .idle => none
  | .locked rest =>
      match s.connFdWrite with
      | some fd => some { s with push := Function.update s.push p (.writing fd rest) }
      | none => some { s with push := Function.update s.push p .unlocking }
  | .writing fd rest =>
      -- `write_message` returns when all is written or a `::write` fails
      if rest.left = 0 then some { s with push := Function.update s.push p .unlocking }
      else if writeFails (s.table fd) then
        some { s with
          push := Function.update s.push p .unlocking, log := s.log ++ [.pushWrite fd] }
      else none
  | .unlocking => some { s with mutex := none, push := Function.update s.push p .idle }

end ConnState

/-- One step. -/
def connStep {P : Type*} [DecidableEq P] (s : ConnState P) : ConnAct P → Option (ConnState P)
  | .ctrlNext => s.ctrlNext
  | .accept fd room =>
      match s.ctrl with
      | .accepting l =>
          -- the kernel's choice of a free number, with the client's buffer as it is
          if s.listens l ∧ 0 < s.waiting ∧ s.table fd = none then
            some { s.setDesc fd (some (.conn ⟨false, false, [], room⟩)) with
              waiting := s.waiting - 1, ctrl := .entering fd, log := s.log ++ [.accepted fd] }
          else none
      | _ => none
  | .read k =>
      match s.ctrl with
      | .reading fd got =>
          match readNext got with
          | .need n =>
              if 1 ≤ k ∧ k ≤ n then
                ((s.table fd).bind (Desc.read k)).map fun r =>
                  { s.setDesc fd (some r.2) with ctrl := .reading fd (got ++ r.1) }
              else none
          | _ => none
      | _ => none
  | .reply n =>
      match s.ctrl with
      | .dispatching fd => some { s with ctrl := .replying fd (.frame n) }
      | _ => none
  | .replyWrite k =>
      match s.ctrl with
      | .replying fd rest =>
          if 1 ≤ k ∧ k ≤ rest.buf then
            ((s.table fd).bind (Desc.write k)).map fun d =>
              { s.setDesc fd (some d) with ctrl := .replying fd (rest.write k) }
          else none
      | _ => none
  | .pushCall p n =>
      if s.push p = .idle ∧ s.mutex.isNone then
        some { s with
          mutex := some (.push p), push := Function.update s.push p (.locked (.frame n)) }
      else none
  | .pushNext p => s.pushNext p
  | .pushWrite p k =>
      match s.push p with
      | .writing fd rest =>
          if 1 ≤ k ∧ k ≤ rest.buf then
            ((s.table fd).bind (Desc.write k)).map fun d =>
              { s.setDesc fd (some d) with
                push := Function.update s.push p (.writing fd (rest.write k))
                log := s.log ++ [.pushWrite fd] }
          else none
      | _ => none
  | .stopNext => s.stopNext
  | .connect => some { s with waiting := s.waiting + 1 }
  | .send fd bs => s.onConn fd fun c => { c with inbox := c.inbox ++ bs }
  | .recv fd k => s.onConn fd fun c => { c with room := c.room + k }
  | .disconnect fd => s.onConn fd fun c => { c with gone := true }
  | .acceptIntr =>
      match s.ctrl with
      | .accepting _ => some { s with ctrl := .top }
      | _ => none
  | .acceptErr =>
      match s.ctrl with
      | .accepting _ => some { s with ctrl := .exited }
      | _ => none
  | .openOther fd => if s.table fd = none then some (s.setDesc fd (some .other)) else none
  | .closeOther fd => if s.table fd = some .other then some (s.setDesc fd none) else none

/-- After `start()`: the listener is open and the control thread enters `run`. -/
def connMachine (P : Type*) [DecidableEq P] (listenFd : Fd) :
    Machine (ConnState P) (ConnAct P) :=
  ⟨⟨true, none, none, some listenFd, .top, fun _ => .idle, .idle,
    fun fd => if fd = listenFd then some (.listener false) else none, 0, []⟩, connStep⟩

/-! ## The record of calls -/

/-- The last thing the control thread did was to accept `fd`: since then there were only
    `push_frame`s and the `stop()`. -/
def InService (log : List Call) (fd : Fd) : Prop :=
  ∃ a b, log = a ++ .accepted fd :: b ∧ ∀ e ∈ b, e.target.isSome

/-- Every recorded `::write` of `push_frame` and `::shutdown` of `stop()` met the
    connection in service. -/
def CallsServed (log : List Call) : Prop :=
  ∀ pre e post fd, log = pre ++ e :: post → e.target = some fd → InService pre fd

theorem InService.snoc {log : List Call} {fd : Fd} {e : Call} (h : InService log fd)
    (he : e.target.isSome) : InService (log ++ [e]) fd := by
  obtain ⟨a, b, rfl, hb⟩ := h
  refine ⟨a, b ++ [e], by simp, fun x hx => ?_⟩
  rcases List.mem_append.mp hx with hx | hx
  · exact hb x hx
  · rw [List.mem_singleton.mp hx]
    exact he

theorem CallsServed.snoc {log : List Call} {e : Call} (h : CallsServed log)
    (he : ∀ fd, e.target = some fd → InService log fd) : CallsServed (log ++ [e]) := by
  intro pre x post fd hlog hx
  -- the call is the new one, or one of the old ones
  rcases List.eq_nil_or_concat post with rfl | ⟨post', y, rfl⟩
  · obtain ⟨rfl, hxe⟩ := List.append_inj' hlog rfl
    rw [List.cons.injEq] at hxe
    exact he fd (hxe.1 ▸ hx)
  · rw [List.concat_eq_append, ← List.cons_append, ← List.append_assoc] at hlog
    obtain ⟨hlog, -⟩ := List.append_inj' hlog rfl
    exact h pre x post' fd hlog hx

/-- A number that was closed is met again only after it was accepted again. -/
theorem CallsServed.accepted_between {log pre mid post : List Call} {fd : Fd}
    (h : CallsServed log)
    (hlog : log = pre ++ .closed fd :: (mid ++ .pushWrite fd :: post)) :
    .accepted fd ∈ mid := by
  obtain ⟨a, b, hab, hb⟩ := h (pre ++ .closed fd :: mid) (.pushWrite fd) post fd
    (by rw [hlog]; simp) rfl
  -- nothing after the accept is a close, so the accept comes after this one
  rcases List.append_eq_append_iff.mp hab with ⟨c, rfl, hc⟩ | ⟨c, rfl, hc⟩
  · rcases c with _ | ⟨x, c⟩
    · exact absurd (List.cons.inj hc).1 (by simp)
    · rw [List.cons_append, List.cons.injEq] at hc
      rw [hc.2]
      simp
  · rcases c with _ | ⟨x, c⟩
    · exact absurd (List.cons.inj hc).1 (by simp)
    · rw [List.cons_append, List.cons.injEq] at hc
      have hclosed := hb (.closed fd) (by rw [hc.2]; simp)
      exact absurd hclosed (by simp [Call.target])

/-! ## The invariant -/

section Invariant

variable {P : Type*}

/-- Inside a region that `write_mutex_` locks. -/
def Inside (ctrl : CtrlPc) (push : P → PushFramePc) (stop : StopPc) : Who P → Prop
  | .ctrl => ctrl.locked
  | .push p => (push p).inside
  | .stop => stop.inside

/-- `conn_fd_write_` follows the control thread; who uses it holds the mutex; the
    connection being served is open and the last one accepted. -/
structure ConnInv (mutex : Option (Who P)) (listenFd connFdWrite : Option Fd) (ctrl : CtrlPc)
    (push : P → PushFramePc) (stop : StopPc) (table : Fd → Option Desc) (log : List Call) :
    Prop where
  held : Held mutex (Inside ctrl push stop)
  fdWrite : connFdWrite = ctrl.fdWrite
  writing : ∀ p fd rest, push p = .writing fd rest → connFdWrite = some fd
  shutting : ∀ fd, stop = .shutting fd → connFdWrite = some fd
  opened : ∀ fd, ctrl.accepted = some fd → ∃ c, table fd = some (.conn c)
  inService : ∀ fd, ctrl.serving = some fd → InService log fd
  served : CallsServed log
  listener : ∀ l, listenFd = some l → ∃ b, table l = some (.listener b)

variable {mutex : Option (Who P)} {listenFd connFdWrite : Option Fd} {ctrl : CtrlPc}
  {push : P → PushFramePc} {stop : StopPc} {table : Fd → Option Desc} {log : List Call}

theorem inside_ctrl {x : CtrlPc} (q : Who P) (hq : q ≠ .ctrl) :
    Inside x push stop q ↔ Inside ctrl push stop q := by
  rcases q with _ | p | _
  · exact absurd rfl hq
  · exact Iff.rfl
  · exact Iff.rfl

theorem inside_stop {x : StopPc} (q : Who P) (hq : q ≠ .stop) :
    Inside ctrl push x q ↔ Inside ctrl push stop q := by
  rcases q with _ | p | _
  · exact Iff.rfl
  · exact Iff.rfl
  · exact absurd rfl hq

theorem inside_push [DecidableEq P] {p : P} {x : PushFramePc} (q : Who P) (hq : q ≠ .push p) :
    Inside ctrl (Function.update push p x) stop q ↔ Inside ctrl push stop q := by
  rcases q with _ | r | _
  · exact Iff.rfl
  · have hrp : r ≠ p := fun heq => hq (heq ▸ rfl)
    simp only [Inside, Function.update_of_ne hrp]
  · exact Iff.rfl

/-- What `conn_fd_write_` names is being served. -/
theorem CtrlPc.serving_of_fdWrite {pc : CtrlPc} {fd : Fd} (h : pc.fdWrite = some fd) :
    pc.serving = some fd := by
  rcases pc <;> simp_all [CtrlPc.fdWrite, CtrlPc.serving]

theorem CtrlPc.accepted_of_serving {pc : CtrlPc} {fd : Fd} (h : pc.serving = some fd) :
    pc.accepted = some fd := by
  rcases pc <;> simp_all [CtrlPc.fdWrite, CtrlPc.serving, CtrlPc.accepted]

namespace ConnInv

/-- The descriptor in `conn_fd_write_` is the one being served, and open. -/
theorem serves {fd : Fd} (h : ConnInv mutex listenFd connFdWrite ctrl push stop table log)
    (hfd : connFdWrite = some fd) :
    ctrl.serving = some fd ∧ ∃ c, table fd = some (.conn c) := by
  have hserving := CtrlPc.serving_of_fdWrite (h.fdWrite.symm.trans hfd)
  exact ⟨hserving, h.opened fd (CtrlPc.accepted_of_serving hserving)⟩

/-- While the control thread holds the mutex nobody uses `conn_fd_write_`. -/
theorem alone (h : ConnInv mutex listenFd connFdWrite ctrl push stop table log) (hc : ctrl.locked) :
    (∀ p, push p = .idle) ∧ stop.inside = false := by
  have hm := (h.held .ctrl).mpr hc
  constructor
  · intro p
    by_contra hp
    have hin : Inside ctrl push stop (.push p) := by
      rcases hpp : push p <;> simp_all [Inside, PushFramePc.inside]
    exact absurd (h.held.eq_of_inside hm hin) (by simp)
  · by_contra hs
    have hin : Inside ctrl push stop .stop := by simpa [Inside] using hs
    exact absurd (h.held.eq_of_inside hm hin) (by simp)

/-- The control thread moves on and leaves `conn_fd_write_`. -/
theorem moveCtrl {mutex' : Option (Who P)} {x : CtrlPc}
    (h : ConnInv mutex listenFd connFdWrite ctrl push stop table log)
    (hheld : Held mutex' (Inside x push stop)) (hw : x.fdWrite = ctrl.fdWrite)
    (hs : ∀ fd, x.serving = some fd → ctrl.serving = some fd)
    (ha : ∀ fd, x.accepted = some fd → ctrl.accepted = some fd) :
    ConnInv mutex' listenFd connFdWrite x push stop table log :=
  ⟨hheld, h.fdWrite.trans hw.symm, h.writing, h.shutting,
    fun fd hfd => h.opened fd (ha fd hfd), fun fd hfd => h.inService fd (hs fd hfd), h.served,
    h.listener⟩

/-- It moves without crossing the border of a locked region. -/
theorem keepCtrl {x : CtrlPc} (h : ConnInv mutex listenFd connFdWrite ctrl push stop table log)
    (hlock : x.locked = ctrl.locked) (hw : x.fdWrite = ctrl.fdWrite)
    (hs : x.serving = ctrl.serving) (ha : x.accepted = ctrl.accepted) :
    ConnInv mutex listenFd connFdWrite x push stop table log :=
  h.moveCtrl (h.held.keep inside_ctrl (by simp only [Inside, hlock])) hw
    (fun _ hfd => hs ▸ hfd) (fun _ hfd => ha ▸ hfd)

/-- It takes the mutex. -/
theorem lockCtrl {x : CtrlPc} (h : ConnInv mutex listenFd connFdWrite ctrl push stop table log)
    (hm : mutex.isNone) (hx : x.locked) (hw : x.fdWrite = ctrl.fdWrite)
    (hs : x.serving = ctrl.serving) (ha : x.accepted = ctrl.accepted) :
    ConnInv (some .ctrl) listenFd connFdWrite x push stop table log :=
  h.moveCtrl (h.held.acquire (Option.isNone_iff_eq_none.mp hm) inside_ctrl hx) hw
    (fun _ hfd => hs ▸ hfd) (fun _ hfd => ha ▸ hfd)

/-- It gives the mutex back. -/
theorem unlockCtrl {x : CtrlPc} (h : ConnInv mutex listenFd connFdWrite ctrl push stop table log)
    (hc : ctrl.locked) (hx : x.locked = false) (hw : x.fdWrite = ctrl.fdWrite)
    (hs : ∀ fd, x.serving = some fd → ctrl.serving = some fd) (ha : x.accepted = ctrl.accepted) :
    ConnInv none listenFd connFdWrite x push stop table log :=
  h.moveCtrl (h.held.release (p := .ctrl) hc inside_ctrl (by simp [Inside, hx])) hw hs
    (fun _ hfd => ha ▸ hfd)

/-- The control thread, holding the mutex, sets `conn_fd_write_`. -/
theorem setFdWrite {x : CtrlPc} (h : ConnInv mutex listenFd connFdWrite ctrl push stop table log)
    (hc : ctrl.locked) (hx : x.locked) (hs : x.serving = ctrl.serving)
    (ha : x.accepted = ctrl.accepted) :
    ConnInv mutex listenFd x.fdWrite x push stop table log := by
  obtain ⟨hidle, hstop⟩ := h.alone hc
  refine ⟨h.held.keep inside_ctrl (iff_of_true hx hc), rfl, fun p fd rest hp => ?_,
    fun fd hfd => ?_, fun fd hfd => h.opened fd (ha ▸ hfd),
    fun fd hfd => h.inService fd (hs ▸ hfd), h.served, h.listener⟩
  · exact absurd ((hidle p).symm.trans hp) (by simp)
  · rw [hfd] at hstop
    exact absurd hstop (by simp [StopPc.inside])

/-- A thread calling `push_frame` moves on. -/
theorem movePush [DecidableEq P] {mutex' : Option (Who P)} {p : P} {x : PushFramePc}
    (h : ConnInv mutex listenFd connFdWrite ctrl push stop table log)
    (hheld : Held mutex' (Inside ctrl (Function.update push p x) stop))
    (hw : ∀ fd rest, x = .writing fd rest → connFdWrite = some fd) :
    ConnInv mutex' listenFd connFdWrite ctrl (Function.update push p x) stop table log := by
  refine ⟨hheld, h.fdWrite, fun q fd rest hq => ?_, h.shutting, h.opened, h.inService, h.served,
    h.listener⟩
  by_cases hqp : q = p
  · rw [hqp, Function.update_self] at hq
    exact hw fd rest hq
  · rw [Function.update_of_ne hqp] at hq
    exact h.writing q fd rest hq

/-- `stop()` moves on. -/
theorem moveStop {mutex' : Option (Who P)} {x : StopPc}
    (h : ConnInv mutex listenFd connFdWrite ctrl push stop table log)
    (hheld : Held mutex' (Inside ctrl push x))
    (hs : ∀ fd, x = .shutting fd → connFdWrite = some fd) :
    ConnInv mutex' listenFd connFdWrite ctrl push x table log :=
  ⟨hheld, h.fdWrite, h.writing, hs, h.opened, h.inService, h.served, h.listener⟩

/-- An entry of the table other than the listener's changes: an accepted connection stays
    one. -/
theorem setDesc {fd : Fd} {d : Option Desc}
    (h : ConnInv mutex listenFd connFdWrite ctrl push stop table log)
    (hl : ∀ b, table fd ≠ some (.listener b))
    (hd : ctrl.accepted = some fd → ∃ c, d = some (.conn c)) :
    ConnInv mutex listenFd connFdWrite ctrl push stop (Function.update table fd d) log := by
  refine ⟨h.held, h.fdWrite, h.writing, h.shutting, fun fd' hfd' => ?_, h.inService, h.served,
    fun l hlisten => ?_⟩
  · by_cases heq : fd' = fd
    · rw [heq, Function.update_self]
      exact hd (heq ▸ hfd')
    · rw [Function.update_of_ne heq]
      exact h.opened fd' hfd'
  · obtain ⟨b, hb⟩ := h.listener l hlisten
    have hne : l ≠ fd := fun heq => hl b (heq ▸ hb)
    exact ⟨b, by rw [Function.update_of_ne hne, hb]⟩

/-- The listener's entry changes, with or without the member. -/
theorem setListener {l : Fd} {d : Option Desc} {listenFd' : Option Fd}
    (h : ConnInv mutex listenFd connFdWrite ctrl push stop table log) (hlisten : listenFd = some l)
    (hd : ∀ l', listenFd' = some l' → l' = l ∧ ∃ b, d = some (.listener b)) :
    ConnInv mutex listenFd' connFdWrite ctrl push stop (Function.update table l d) log := by
  obtain ⟨b, hb⟩ := h.listener l hlisten
  refine ⟨h.held, h.fdWrite, h.writing, h.shutting, fun fd hfd => ?_, h.inService, h.served,
    fun l' hl' => ?_⟩
  · obtain ⟨c, hc⟩ := h.opened fd hfd
    have hne : fd ≠ l := fun heq => by
      rw [heq, hb] at hc
      exact absurd hc (by simp)
    exact ⟨c, by rw [Function.update_of_ne hne, hc]⟩
  · obtain ⟨rfl, hb'⟩ := hd l' hl'
    rw [Function.update_self]
    exact hb'

/-- A call on the connection being served is recorded. -/
theorem record {fd : Fd} {e : Call}
    (h : ConnInv mutex listenFd connFdWrite ctrl push stop table log)
    (he : e.target = some fd) (hfd : connFdWrite = some fd) :
    ConnInv mutex listenFd connFdWrite ctrl push stop table (log ++ [e]) := by
  have hin := h.inService fd (h.serves hfd).1
  refine ⟨h.held, h.fdWrite, h.writing, h.shutting, h.opened,
    fun fd' hfd' => (h.inService fd' hfd').snoc (by simp [he]), h.served.snoc fun fd' hfd' => ?_,
    h.listener⟩
  rw [he, Option.some.injEq] at hfd'
  exact hfd' ▸ hin

/-- A call that is no use of `conn_fd_write_` is recorded while nothing is served. -/
theorem recordIdle {e : Call} (h : ConnInv mutex listenFd connFdWrite ctrl push stop table log)
    (he : e.target = none) (hs : ctrl.serving = none) :
    ConnInv mutex listenFd connFdWrite ctrl push stop table (log ++ [e]) := by
  refine ⟨h.held, h.fdWrite, h.writing, h.shutting, h.opened, fun fd hfd => ?_,
    h.served.snoc fun fd hfd => ?_, h.listener⟩
  · exact absurd (hs.symm.trans hfd) (by simp)
  · exact absurd (he.symm.trans hfd) (by simp)

/-- A client is accepted on a free number. -/
theorem accept {fd : Fd} {l : Option Fd} (c : Conn)
    (h : ConnInv mutex listenFd connFdWrite (.accepting l) push stop table log)
    (hfree : table fd = none) :
    ConnInv mutex listenFd connFdWrite (.entering fd) push stop
      (Function.update table fd (some (.conn c))) (log ++ [.accepted fd]) := by
  have hset : ConnInv _ _ _ _ _ _ (Function.update table fd (some (.conn c))) _ :=
    h.setDesc (by simp [hfree]) fun _ => ⟨c, rfl⟩
  refine ⟨h.held.keep inside_ctrl Iff.rfl, h.fdWrite, h.writing, h.shutting, fun fd' hfd' => ?_,
    fun fd' hfd' => ?_, h.served.snoc fun fd' hfd' => ?_, hset.listener⟩
  · obtain rfl := Option.some.inj hfd'
    exact ⟨c, Function.update_self _ _ _⟩
  · obtain rfl := Option.some.inj hfd'
    exact ⟨log, [], rfl, by simp⟩
  · exact absurd hfd' (by simp [Call.target])

end ConnInv

end Invariant

/-- The invariant of the members, the positions, the table and the record. -/
abbrev ConnState.Inv {P : Type*} (s : ConnState P) : Prop :=
  ConnInv s.mutex s.listenFd s.connFdWrite s.ctrl s.push s.stop s.table s.log

section Steps

variable {P : Type*} {s s' : ConnState P}

theorem inv_ctrlNext (h : s.Inv) (hstep : s.ctrlNext = some s') : s'.Inv := by
  -- one case per position, in the order of the definition
  unfold ConnState.Inv at h
  unfold ConnState.ctrlNext at hstep
  split at hstep <;> rename_i hc <;> rw [hc] at h
  · -- the test of `running_`
    obtain rfl := Option.some.inj hstep
    change ConnInv _ _ _ (if s.running then CtrlPc.calling else CtrlPc.exited) _ _ _ _
    split
    · exact h.keepCtrl rfl rfl rfl rfl
    · exact h.keepCtrl rfl rfl rfl rfl
  · obtain rfl := Option.some.inj hstep
    exact h.keepCtrl rfl rfl rfl rfl
  · split at hstep
    · exact absurd hstep (by simp)
    · obtain rfl := Option.some.inj hstep
      exact h.keepCtrl rfl rfl rfl rfl
  · simp only [Option.ite_none_right_eq_some, Option.some.injEq] at hstep
    obtain ⟨hm, rfl⟩ := hstep
    exact h.lockCtrl hm rfl rfl rfl rfl
  · obtain rfl := Option.some.inj hstep
    exact h.setFdWrite (x := .published _) rfl rfl rfl rfl
  · obtain rfl := Option.some.inj hstep
    exact h.unlockCtrl rfl rfl rfl (fun _ hfd => hfd) rfl
  · -- the test of `running_` in `handle_connection`
    rename_i fd
    obtain rfl := Option.some.inj hstep
    change ConnInv _ _ _ (if s.running then CtrlPc.reading fd [] else CtrlPc.leaving fd) _ _ _ _
    split
    · exact h.keepCtrl rfl rfl rfl rfl
    · exact h.keepCtrl rfl rfl rfl rfl
  · split at hstep
    · simp only [Option.ite_none_right_eq_some, Option.some.injEq] at hstep
      obtain ⟨-, rfl⟩ := hstep
      exact h.keepCtrl rfl rfl rfl rfl
    · obtain rfl := Option.some.inj hstep
      exact h.keepCtrl rfl rfl rfl rfl
    · obtain rfl := Option.some.inj hstep
      exact h.keepCtrl rfl rfl rfl rfl
  · obtain rfl := Option.some.inj hstep
    exact h.keepCtrl rfl rfl rfl rfl
  · simp only [Option.ite_none_right_eq_some, Option.some.injEq] at hstep
    obtain ⟨-, rfl⟩ := hstep
    exact h.keepCtrl rfl rfl rfl rfl
  · simp only [Option.ite_none_right_eq_some, Option.some.injEq] at hstep
    obtain ⟨hm, rfl⟩ := hstep
    exact h.lockCtrl hm rfl rfl rfl rfl
  · obtain rfl := Option.some.inj hstep
    exact h.setFdWrite (x := .withdrawn _) rfl rfl rfl rfl
  · obtain rfl := Option.some.inj hstep
    have hleft := h.unlockCtrl (x := .closing _) rfl rfl rfl
      (by simp [CtrlPc.serving, CtrlPc.fdWrite]) rfl
    exact hleft.recordIdle rfl rfl
  · rename_i fd
    obtain rfl := Option.some.inj hstep
    obtain ⟨c, hopen⟩ := h.opened fd rfl
    have htop := h.moveCtrl (x := .top) (h.held.keep inside_ctrl Iff.rfl) rfl
      (by simp [CtrlPc.serving, CtrlPc.fdWrite])
      (by simp [CtrlPc.accepted, CtrlPc.serving, CtrlPc.fdWrite])
    have hclosed : ConnInv _ _ _ .top _ _ (Function.update s.table fd none) _ :=
      htop.setDesc (by simp [hopen]) (by simp [CtrlPc.accepted, CtrlPc.serving, CtrlPc.fdWrite])
    exact hclosed.recordIdle rfl rfl
  · exact absurd hstep (by simp)

theorem inv_stopNext (h : s.Inv) (hstep : s.stopNext = some s') : s'.Inv := by
  unfold ConnState.Inv at h
  unfold ConnState.stopNext at hstep
  split at hstep <;> rename_i hst <;> rw [hst] at h
  · simp only [Option.ite_none_right_eq_some, Option.some.injEq] at hstep
    obtain ⟨-, rfl⟩ := hstep
    exact h.moveStop (h.held.keep inside_stop Iff.rfl) (by simp)
  · simp only [Option.ite_none_right_eq_some, Option.some.injEq] at hstep
    obtain ⟨hm, rfl⟩ := hstep
    exact h.moveStop (h.held.acquire (Option.isNone_iff_eq_none.mp hm) inside_stop rfl) (by simp)
  · split at hstep
    · rename_i fd hfd
      obtain rfl := Option.some.inj hstep
      refine h.moveStop (h.held.keep inside_stop Iff.rfl) fun fd' hfd' => ?_
      rw [hfd, StopPc.shutting.inj hfd']
    · obtain rfl := Option.some.inj hstep
      exact h.moveStop (h.held.keep inside_stop Iff.rfl) (by simp)
  · -- the published connection is shut down
    rename_i fd
    obtain rfl := Option.some.inj hstep
    have hfd := h.shutting fd rfl
    obtain ⟨-, c, hc⟩ := h.serves hfd
    have hdone := (h.record (e := .stopShutdown fd) rfl hfd).moveStop (x := .unlocking)
      (h.held.keep inside_stop Iff.rfl) (by simp)
    refine hdone.setDesc (by simp [hc]) fun _ => ⟨{ c with shut := true }, ?_⟩
    simp [hc, Desc.shutdown]
  · obtain rfl := Option.some.inj hstep
    exact h.moveStop (h.held.release (p := .stop) rfl inside_stop (by simp [Inside, StopPc.inside]))
      (by simp)
  · split at hstep
    · rename_i l hl
      obtain rfl := Option.some.inj hstep
      obtain ⟨b, hb⟩ := h.listener l hl
      have hshut := h.moveStop (x := .closeListener) (h.held.keep inside_stop Iff.rfl) (by simp)
      refine hshut.setListener hl fun l' hl' => ⟨?_, true, by simp [hb, Desc.shutdown]⟩
      exact Option.some.inj (hl'.symm.trans hl)
    · obtain rfl := Option.some.inj hstep
      exact h.moveStop (h.held.keep inside_stop Iff.rfl) (by simp)
  · split at hstep
    · rename_i l hl
      obtain rfl := Option.some.inj hstep
      have hclosed := h.moveStop (x := .joining) (h.held.keep inside_stop Iff.rfl) (by simp)
      exact hclosed.setListener hl (by simp)
    · obtain rfl := Option.some.inj hstep
      exact h.moveStop (h.held.keep inside_stop Iff.rfl) (by simp)
  · simp only [Option.ite_none_right_eq_some, Option.some.injEq] at hstep
    obtain ⟨-, rfl⟩ := hstep
    exact h.moveStop (h.held.keep inside_stop Iff.rfl) (by simp)
  · exact absurd hstep (by simp)

/-- What a `::write` that moves bytes leaves of a connection. -/
theorem write_conn {c : Conn} {k : Nat} {d : Desc} (h : Desc.write k (.conn c) = some d) :
    c.shut = false ∧ c.gone = false ∧ k ≤ c.room ∧ d = .conn { c with room := c.room - k } := by
  simp only [Desc.write, Option.ite_none_right_eq_some, Option.some.injEq] at h
  exact ⟨h.1.1, h.1.2.1, h.1.2.2, h.2.symm⟩

theorem read_conn {c : Conn} {k : Nat} {r : List Byte × Desc}
    (h : Desc.read k (.conn c) = some r) :
    k ≤ c.inbox.length ∧ r = (c.inbox.take k, .conn { c with inbox := c.inbox.drop k }) := by
  simp only [Desc.read, Option.ite_none_right_eq_some, Option.some.injEq] at h
  exact ⟨h.1, h.2.symm⟩

theorem onConn_cases {fd : Fd} {f : Conn → Conn} (h : s.onConn fd f = some s') :
    ∃ c, s.table fd = some (.conn c) ∧ s' = s.setDesc fd (some (.conn (f c))) := by
  unfold ConnState.onConn at h
  split at h
  · exact ⟨_, ‹_›, (Option.some.inj h).symm⟩
  · exact absurd h (by simp)

theorem inv_onConn {fd : Fd} {f : Conn → Conn} (h : s.Inv) (hstep : s.onConn fd f = some s') :
    s'.Inv := by
  obtain ⟨c, hc, rfl⟩ := onConn_cases hstep
  exact ConnInv.setDesc h (by simp [hc]) fun _ => ⟨f c, rfl⟩

variable [DecidableEq P]

theorem inv_pushNext {p : P} (h : s.Inv) (hstep : s.pushNext p = some s') : s'.Inv := by
  unfold ConnState.Inv at h
  unfold ConnState.pushNext at hstep
  -- moving on inside the locked region
  have hmove : ∀ x : PushFramePc, (s.push p).inside → x.inside →
      Held s.mutex (Inside s.ctrl (Function.update s.push p x) s.stop) := fun x hp hx =>
    h.held.keep inside_push (by simp [Inside, hp, hx])
  split at hstep
  · exact absurd hstep (by simp)
  · rename_i rest hp
    split at hstep
    · rename_i fd hfd
      obtain rfl := Option.some.inj hstep
      refine h.movePush (hmove _ (by rw [hp]; rfl) rfl) fun fd' rest' hx => ?_
      rw [hfd, (PushFramePc.writing.inj hx).1]
    · obtain rfl := Option.some.inj hstep
      exact h.movePush (hmove _ (by rw [hp]; rfl) rfl) (by simp)
  · rename_i fd rest hp
    have hdone := h.movePush (x := .unlocking) (hmove _ (by rw [hp]; rfl) rfl) (by simp)
    split at hstep
    · obtain rfl := Option.some.inj hstep
      exact hdone
    · simp only [Option.ite_none_right_eq_some, Option.some.injEq] at hstep
      obtain ⟨-, rfl⟩ := hstep
      exact hdone.record rfl (h.writing p fd rest hp)
  · rename_i hp
    obtain rfl := Option.some.inj hstep
    have hin : Inside s.ctrl s.push s.stop (.push p) := by
      simp [Inside, hp, PushFramePc.inside]
    refine h.movePush (h.held.release hin inside_push ?_) (by simp)
    simp [Inside, PushFramePc.inside]

/-! What each of the other steps does, given the invariant. -/

theorem accept_cases {fd : Fd} {room : Nat} (h : connStep s (.accept fd room) = some s') :
    ∃ l, s.ctrl = .accepting l ∧ s.table fd = none ∧
      s' = { s.setDesc fd (some (.conn ⟨false, false, [], room⟩)) with
        waiting := s.waiting - 1, ctrl := .entering fd, log := s.log ++ [.accepted fd] } := by
  simp only [connStep] at h
  split at h
  · simp only [Option.ite_none_right_eq_some, Option.some.injEq] at h
    exact ⟨_, ‹_›, h.1.2.2, h.2.symm⟩
  · exact absurd h (by simp)

theorem read_cases {k : Nat} (hinv : s.Inv) (h : connStep s (.read k) = some s') :
    ∃ fd got c, s.ctrl = .reading fd got ∧ s.table fd = some (.conn c) ∧
      s' = { s.setDesc fd (some (.conn { c with inbox := c.inbox.drop k })) with
        ctrl := .reading fd (got ++ c.inbox.take k) } := by
  simp only [connStep] at h
  split at h
  · rename_i fd got hc
    split at h
    · simp only [Option.ite_none_right_eq_some] at h
      obtain ⟨r, hr, rfl⟩ := Option.map_eq_some_iff.mp h.2
      obtain ⟨c, hopen⟩ := hinv.opened fd (by rw [hc]; rfl)
      rw [hopen, Option.bind_some] at hr
      obtain ⟨-, rfl⟩ := read_conn hr
      exact ⟨fd, got, c, hc, hopen, rfl⟩
    · exact absurd h (by simp)
  · exact absurd h (by simp)

theorem reply_cases {n : Nat} (h : connStep s (.reply n) = some s') :
    ∃ fd, s.ctrl = .dispatching fd ∧ s' = { s with ctrl := .replying fd (.frame n) } := by
  simp only [connStep] at h
  split at h
  · exact ⟨_, ‹_›, (Option.some.inj h).symm⟩
  · exact absurd h (by simp)

theorem replyWrite_cases {k : Nat} (hinv : s.Inv) (h : connStep s (.replyWrite k) = some s') :
    ∃ fd rest c, s.ctrl = .replying fd rest ∧ s.table fd = some (.conn c) ∧ k ≤ c.room ∧
      s' = { s.setDesc fd (some (.conn { c with room := c.room - k })) with
        ctrl := .replying fd (rest.write k) } := by
  simp only [connStep] at h
  split at h
  · rename_i fd rest hc
    simp only [Option.ite_none_right_eq_some] at h
    obtain ⟨d, hd, rfl⟩ := Option.map_eq_some_iff.mp h.2
    obtain ⟨c, hopen⟩ := hinv.opened fd (by rw [hc]; rfl)
    rw [hopen, Option.bind_some] at hd
    obtain ⟨-, -, hk, rfl⟩ := write_conn hd
    exact ⟨fd, rest, c, hc, hopen, hk, rfl⟩
  · exact absurd h (by simp)

theorem pushWrite_cases {p : P} {k : Nat} (hinv : s.Inv)
    (h : connStep s (.pushWrite p k) = some s') :
    ∃ fd rest c, s.push p = .writing fd rest ∧ s.connFdWrite = some fd ∧
      s.table fd = some (.conn c) ∧ k ≤ rest.buf ∧ k ≤ c.room ∧
      s' = { s.setDesc fd (some (.conn { c with room := c.room - k })) with
        push := Function.update s.push p (.writing fd (rest.write k))
        log := s.log ++ [.pushWrite fd] } := by
  simp only [connStep] at h
  split at h
  · rename_i fd rest hp
    simp only [Option.ite_none_right_eq_some] at h
    obtain ⟨d, hd, rfl⟩ := Option.map_eq_some_iff.mp h.2
    have hfd := hinv.writing p fd rest hp
    obtain ⟨-, c, hopen⟩ := hinv.serves hfd
    rw [hopen, Option.bind_some] at hd
    obtain ⟨-, -, hk, rfl⟩ := write_conn hd
    exact ⟨fd, rest, c, hp, hfd, hopen, h.1.2, hk, rfl⟩
  · exact absurd h (by simp)

theorem acceptIntr_cases (h : connStep s .acceptIntr = some s') :
    ∃ l, s.ctrl = .accepting l ∧ s' = { s with ctrl := .top } := by
  simp only [connStep] at h
  split at h
  · exact ⟨_, ‹_›, (Option.some.inj h).symm⟩
  · exact absurd h (by simp)

theorem acceptErr_cases (h : connStep s .acceptErr = some s') :
    ∃ l, s.ctrl = .accepting l ∧ s' = { s with ctrl := .exited } := by
  simp only [connStep] at h
  split at h
  · exact ⟨_, ‹_›, (Option.some.inj h).symm⟩
  · exact absurd h (by simp)

theorem pushCall_cases {p : P} {n : Nat} (h : connStep s (.pushCall p n) = some s') :
    (s.push p = .idle ∧ s.mutex.isNone) ∧ s' = { s with
      mutex := some (.push p), push := Function.update s.push p (.locked (.frame n)) } := by
  simp only [connStep, Option.ite_none_right_eq_some, Option.some.injEq] at h
  exact ⟨h.1, h.2.symm⟩

theorem openOther_cases {fd : Fd} (h : connStep s (.openOther fd) = some s') :
    s.table fd = none ∧ s' = s.setDesc fd (some .other) := by
  simp only [connStep, Option.ite_none_right_eq_some, Option.some.injEq] at h
  exact ⟨h.1, h.2.symm⟩

theorem closeOther_cases {fd : Fd} (h : connStep s (.closeOther fd) = some s') :
    s.table fd = some .other ∧ s' = s.setDesc fd none := by
  simp only [connStep, Option.ite_none_right_eq_some, Option.some.injEq] at h
  exact ⟨h.1, h.2.symm⟩

theorem inv_connStep {a : ConnAct P} (h : s.Inv) (hstep : connStep s a = some s') : s'.Inv := by
  have hinv := h
  unfold ConnState.Inv at h
  cases a with
  | ctrlNext => exact inv_ctrlNext h hstep
  | pushNext p => exact inv_pushNext h hstep
  | stopNext => exact inv_stopNext h hstep
  | send fd bs => exact inv_onConn h hstep
  | recv fd k => exact inv_onConn h hstep
  | disconnect fd => exact inv_onConn h hstep
  | accept fd room =>
      obtain ⟨l, hc, hfree, rfl⟩ := accept_cases hstep
      rw [hc] at h
      exact h.accept _ hfree
  | read k =>
      obtain ⟨fd, got, c, hc, hopen, rfl⟩ := read_cases hinv hstep
      rw [hc] at h
      exact (h.setDesc (by simp [hopen]) fun _ => ⟨_, rfl⟩).keepCtrl rfl rfl rfl rfl
  | reply n =>
      obtain ⟨fd, hc, rfl⟩ := reply_cases hstep
      rw [hc] at h
      exact h.keepCtrl rfl rfl rfl rfl
  | replyWrite k =>
      obtain ⟨fd, rest, c, hc, hopen, -, rfl⟩ := replyWrite_cases hinv hstep
      rw [hc] at h
      exact (h.setDesc (by simp [hopen]) fun _ => ⟨_, rfl⟩).keepCtrl rfl rfl rfl rfl
  | pushCall p n =>
      obtain ⟨⟨-, hm⟩, rfl⟩ := pushCall_cases hstep
      -- `push_frame` enters with the mutex, which the step finds free
      refine h.movePush (h.held.acquire (Option.isNone_iff_eq_none.mp hm) inside_push ?_) (by simp)
      simp [Inside, PushFramePc.inside]
  | pushWrite p k =>
      obtain ⟨fd, rest, c, hp, hfd, hopen, -, -, rfl⟩ := pushWrite_cases hinv hstep
      have hmove := h.movePush (x := .writing fd (rest.write k))
        (h.held.keep (p := .push p) inside_push (by simp [Inside, hp, PushFramePc.inside]))
        fun fd' rest' hx => by rw [hfd, (PushFramePc.writing.inj hx).1]
      exact (hmove.record rfl hfd).setDesc (by simp [hopen]) fun _ => ⟨_, rfl⟩
  | connect =>
      obtain rfl := Option.some.inj hstep
      exact h
  | acceptIntr =>
      obtain ⟨l, hc, rfl⟩ := acceptIntr_cases hstep
      rw [hc] at h
      exact h.keepCtrl rfl rfl rfl rfl
  | acceptErr =>
      obtain ⟨l, hc, rfl⟩ := acceptErr_cases hstep
      rw [hc] at h
      exact h.keepCtrl rfl rfl rfl rfl
  | openOther fd =>
      obtain ⟨hfree, rfl⟩ := openOther_cases hstep
      -- the descriptor was free, so it is not the one the control thread accepted
      refine h.setDesc (by simp [hfree]) fun hfd => ?_
      obtain ⟨c, hc⟩ := h.opened fd hfd
      exact absurd (hfree.symm.trans hc) (by simp)
  | closeOther fd =>
      obtain ⟨hother, rfl⟩ := closeOther_cases hstep
      refine h.setDesc (by simp [hother]) fun hfd => ?_
      obtain ⟨c, hc⟩ := h.opened fd hfd
      exact absurd (hother.symm.trans hc) (by simp)

theorem inv_connStart (P : Type*) [DecidableEq P] (listenFd : Fd) :
    (connMachine P listenFd).start.Inv := by
  refine ⟨fun q => ?_, rfl, by simp [connMachine], by simp [connMachine], fun fd hfd => ?_,
    fun fd hfd => ?_, fun pre e post fd hlog => ?_, fun l hl => ?_⟩
  · rcases q with _ | p | _ <;>
      simp [connMachine, Inside, CtrlPc.locked, PushFramePc.inside, StopPc.inside]
  · exact absurd hfd (by simp [connMachine, CtrlPc.accepted, CtrlPc.serving, CtrlPc.fdWrite])
  · exact absurd hfd (by simp [connMachine, CtrlPc.serving, CtrlPc.fdWrite])
  · exact absurd hlog (by simp [connMachine])
  · refine ⟨false, ?_⟩
    rw [← Option.some.inj hl]
    simp [connMachine]

theorem inv_of_connReached {listenFd : Fd} {G : ConnState P → ConnAct P → Prop}
    {as : List (ConnAct P)} {s : ConnState P} (h : (connMachine P listenFd).Reached G as s) :
    s.Inv :=
  h.invariant (I := ConnState.Inv) (inv_connStart P listenFd)
    fun _ _ _ hinv _ hstep => inv_connStep hinv hstep

end Steps

/-! ## Only the connection being served -/

/-- The control thread is inside `handle_connection` for `fd`, which is open. -/
def ConnState.Serves {P : Type*} (s : ConnState P) (fd : Fd) : Prop :=
  s.ctrl.serving = some fd ∧ ∃ c, s.table fd = some (.conn c)

/-- In every run, a `push_frame` in its `::write` and a `stop()` in its `::shutdown` are on
    the connection being served, each such call of the record met the connection accepted
    last and not left since, and none met a closed number that was not accepted again. -/
theorem push_frame_meets_served {P : Type*} [DecidableEq P] (listenFd : Fd)
    (as : List (ConnAct P)) (s : ConnState P)
    (h : (connMachine P listenFd).Reached Machine.free as s) :
    (∀ p fd rest, s.push p = .writing fd rest → s.Serves fd) ∧
      (∀ fd, s.stop = .shutting fd → s.Serves fd) ∧
      (∀ pre e post fd, s.log = pre ++ e :: post → e.target = some fd → InService pre fd) ∧
      ∀ pre mid post fd, s.log = pre ++ .closed fd :: (mid ++ .pushWrite fd :: post) →
        .accepted fd ∈ mid := by
  have hinv := inv_of_connReached h
  refine ⟨fun p fd rest hp => ?_, fun fd hst => ?_, hinv.served, fun pre mid post fd hlog => ?_⟩
  · exact hinv.serves (hinv.writing p fd rest hp)
  · exact hinv.serves (hinv.shutting fd hst)
  · exact hinv.served.accepted_between hlog

/-- Two clients in turn on descriptor 5, which the rest of the process has in between; a
    `push_frame` to each; `stop()` shuts the second one down. -/
def reuseSchedule : List (ConnAct Unit) :=
  [.ctrlNext, .ctrlNext, .connect, .accept 5 64, .ctrlNext, .ctrlNext, .ctrlNext,
   .pushCall () 1, .pushNext (), .pushWrite () 8, .pushWrite () 1, .pushNext (), .pushNext (),
   .ctrlNext, .disconnect 5, .ctrlNext, .ctrlNext, .ctrlNext, .ctrlNext, .ctrlNext,
   .openOther 5, .closeOther 5,
   .ctrlNext, .ctrlNext, .connect, .accept 5 4, .ctrlNext, .ctrlNext, .ctrlNext,
   .pushCall () 1, .pushNext (), .pushWrite () 4, .recv 5 16, .pushWrite () 4, .pushWrite () 1,
   .pushNext (), .pushNext (), .stopNext, .stopNext, .stopNext, .stopNext]

theorem push_frame_meets_reuseSchedule :
    ∃ s, (connMachine Unit 3).Reached Machine.free reuseSchedule s ∧
      s.log = [.accepted 5, .pushWrite 5, .pushWrite 5, .left 5, .closed 5, .accepted 5,
        .pushWrite 5, .pushWrite 5, .pushWrite 5, .stopShutdown 5] ∧
      InService [.accepted 5, .pushWrite 5, .pushWrite 5, .left 5, .closed 5, .accepted 5,
        .pushWrite 5, .pushWrite 5, .pushWrite 5] 5 := by
  have hrun : ((connMachine Unit 3).run (connMachine Unit 3).start reuseSchedule).map
      ConnState.log = some [.accepted 5, .pushWrite 5, .pushWrite 5, .left 5, .closed 5,
        .accepted 5, .pushWrite 5, .pushWrite 5, .pushWrite 5, .stopShutdown 5] := by
    decide
  obtain ⟨s, hs, hlog⟩ := Option.map_eq_some_iff.mp hrun
  have hreached := Machine.reached_of_run hs
  have hserved := (push_frame_meets_served 3 reuseSchedule s hreached).2.2.1
  exact ⟨s, hreached, hlog, hserved _ (.stopShutdown 5) [] 5 hlog rfl⟩

end NomosRt.Control
