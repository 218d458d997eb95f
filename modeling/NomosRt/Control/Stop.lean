/-
  NomosRt.Control.Stop

  Whether `rt_control_thread::stop()` can finish by itself.

  The machine is that of `Control.Connection`.  A `::write` blocks while the client's
  receive buffer is full, a `::read` while nothing has come, an `::accept` while no
  client waits; on a connection that was shut down, and on a listener that was shut
  down or closed, they return at once.

  `stop()` has to take `write_mutex_` before it can shut the connection down, and
  `push_frame` holds that mutex in its `::write`.  So what decides is the push in
  progress: whether the client's buffer has room for what is left of its frame.
-/

import NomosRt.Control.Connection

namespace NomosRt.Control

open NomosRt.Lib NomosRt.Ipc

/-! ## What `stop()` has done -/

/-- `stop()` is past its look at `conn_fd_write_`. -/
def StopPc.past : StopPc → Bool
  | .unlocking | .shutListener | .closeListener | .joining | .returned => true
  | _ => false

/-- `stop()` is past the shutdown of the listener. -/
def StopPc.listenerShut : StopPc → Bool
  | .closeListener | .joining | .returned => true
  | _ => false

/-- The connection the control thread reads from or writes to. -/
def CtrlPc.busy : CtrlPc → Option Fd
  | .reading fd _ | .dispatching fd | .replying fd _ => some fd
  | _ => none

/-- After its look at `conn_fd_write_` whatever the control thread may block on is shut
    down. -/
structure StopInv (running : Bool) (listenFd : Option Fd) (ctrl : CtrlPc) (stop : StopPc)
    (table : Fd → Option Desc) : Prop where
  cleared : stop ≠ .idle → running = false
  shut : stop.past → ∀ fd c, ctrl.busy = some fd → table fd = some (.conn c) → c.shut
  listening : ∀ fd, table fd = some (.listener false) →
    listenFd = some fd ∧ stop.listenerShut = false
  joined : stop = .returned → ctrl = .exited

abbrev ConnState.StopInv {P : Type*} (s : ConnState P) : Prop :=
  Control.StopInv s.running s.listenFd s.ctrl s.stop s.table

namespace StopInv

variable {running : Bool} {listenFd : Option Fd} {ctrl : CtrlPc} {stop : StopPc}
  {table : Fd → Option Desc}

/-- The control thread starts to read only while `running_` is set. -/
theorem moveCtrl {x : CtrlPc} (h : StopInv running listenFd ctrl stop table)
    (hb : ∀ fd, x.busy = some fd → running ∨ ctrl.busy = some fd) (hx : ctrl ≠ .exited) :
    StopInv running listenFd x stop table := by
  refine ⟨h.cleared, fun hpast fd c hfd hc => ?_, h.listening, fun hret => ?_⟩
  · rcases hb fd hfd with hrun | hbusy
    · have hidle : stop ≠ .idle := fun heq => by simp [heq, StopPc.past] at hpast
      rw [h.cleared hidle] at hrun
      exact absurd hrun (by simp)
    · exact h.shut hpast fd c hbusy hc
  · exact absurd (h.joined hret) hx

/-- An entry changes and does not become a connection or a listener that can block. -/
theorem setDesc {fd : Fd} {d : Option Desc} (h : StopInv running listenFd ctrl stop table)
    (hconn : ∀ c, d = some (.conn c) → ctrl.busy = some fd →
      ∃ c₀, table fd = some (.conn c₀) ∧ (c₀.shut → c.shut))
    (hl : d ≠ some (.listener false)) :
    StopInv running listenFd ctrl stop (Function.update table fd d) := by
  refine ⟨h.cleared, fun hpast fd' c hfd hc => ?_, fun fd' hd => ?_, h.joined⟩
  · by_cases heq : fd' = fd
    · rw [heq, Function.update_self] at hc
      obtain ⟨c₀, hc₀, hshut⟩ := hconn c hc (heq ▸ hfd)
      exact hshut (h.shut hpast fd c₀ (heq ▸ hfd) hc₀)
    · rw [Function.update_of_ne heq] at hc
      exact h.shut hpast fd' c hfd hc
  · by_cases heq : fd' = fd
    · rw [heq, Function.update_self] at hd
      exact absurd hd hl
    · rw [Function.update_of_ne heq] at hd
      exact h.listening fd' hd

/-- `stop()` moves on where neither of its two shutdowns happens. -/
theorem moveStop {x : StopPc} {running' : Bool} (h : StopInv running listenFd ctrl stop table)
    (hclear : x ≠ .idle → running' = false) (hpast : x.past → stop.past)
    (hlisten : x.listenerShut = stop.listenerShut) (hret : x = .returned → ctrl = .exited) :
    StopInv running' listenFd ctrl x table :=
  ⟨hclear, fun hx fd c hfd hc => h.shut (hpast hx) fd c hfd hc, fun fd hd => by
    rw [hlisten]
    exact h.listening fd hd, hret⟩

/-- `stop()` is done with `conn_fd_write_`. -/
theorem look (h : StopInv running listenFd ctrl stop table) (hstop : stop ≠ .idle)
    (hshut : ∀ fd c, ctrl.busy = some fd → table fd = some (.conn c) → c.shut) :
    StopInv running listenFd ctrl .unlocking table :=
  ⟨fun _ => h.cleared hstop, fun _ => hshut, fun fd hd => ⟨(h.listening fd hd).1, rfl⟩, by simp⟩

/-- `stop()` is done with the listener, which was the only one. -/
theorem closeListener {x : StopPc} {d : Option Desc} {l : Fd} {listenFd' : Option Fd}
    (h : StopInv running listenFd ctrl stop table) (hl : listenFd = some l)
    (hd : ∀ b, d = some (.listener b) → b = true) (hconn : ∀ c, d ≠ some (.conn c))
    (hx : x ≠ .returned) (hstop : stop.past) :
    StopInv running listenFd' ctrl x (Function.update table l d) := by
  refine ⟨fun _ => h.cleared fun heq => ?_, fun _ fd c hfd hc => ?_, fun fd hfd => ?_,
    fun heq => absurd heq hx⟩
  · simp [heq, StopPc.past] at hstop
  · by_cases heq : fd = l
    · rw [heq, Function.update_self] at hc
      exact absurd hc (hconn c)
    · rw [Function.update_of_ne heq] at hc
      exact h.shut hstop fd c hfd hc
  · by_cases heq : fd = l
    · rw [heq, Function.update_self] at hfd
      exact absurd (hd false hfd) (by simp)
    · rw [Function.update_of_ne heq] at hfd
      have hfl := (h.listening fd hfd).1
      rw [hl, Option.some.injEq] at hfl
      exact absurd hfl.symm heq

end StopInv

/-! ## What steps leave alone -/

/-- What a step of the control thread changes, beside its position. -/
structure CtrlFrame {P : Type*} (s s' : ConnState P) : Prop where
  push : s'.push = s.push
  stop : s'.stop = s.stop
  running : s'.running = s.running
  listenFd : s'.listenFd = s.listenFd
  fdWrite : s'.connFdWrite = s.connFdWrite ∨ s.ctrl.locked
  table : s'.table = s.table ∨
    ∃ fd, s.ctrl = .closing fd ∧ s'.table = Function.update s.table fd none
  busy : ∀ fd, s'.ctrl.busy = some fd → s.running ∨ s.ctrl.busy = some fd
  live : s.ctrl ≠ .exited

/-- A step that only moves it, and may take or give back the mutex. -/
theorem ctrlFrame_move {P : Type*} {s : ConnState P} {x : CtrlPc} (m : Option (Who P))
    (hb : ∀ fd, x.busy = some fd → s.running ∨ s.ctrl.busy = some fd) (hx : s.ctrl ≠ .exited) :
    CtrlFrame s { s with mutex := m, ctrl := x } :=
  ⟨rfl, rfl, rfl, rfl, .inl rfl, .inl rfl, hb, hx⟩

theorem ctrlNext_frame {P : Type*} {s s' : ConnState P} (h : s.ctrlNext = some s') :
    CtrlFrame s s' := by
  unfold ConnState.ctrlNext at h
  split at h <;> rename_i hc
  · obtain rfl := Option.some.inj h
    refine ctrlFrame_move s.mutex ?_ (by simp [hc])
    split <;> simp [CtrlPc.busy]
  · obtain rfl := Option.some.inj h
    exact ctrlFrame_move s.mutex (by simp [CtrlPc.busy]) (by simp [hc])
  · split at h
    · exact absurd h (by simp)
    · obtain rfl := Option.some.inj h
      exact ctrlFrame_move s.mutex (by simp [CtrlPc.busy]) (by simp [hc])
  · simp only [Option.ite_none_right_eq_some, Option.some.injEq] at h
    obtain ⟨-, rfl⟩ := h
    exact ctrlFrame_move _ (by simp [CtrlPc.busy]) (by simp [hc])
  · obtain rfl := Option.some.inj h
    have hlocked : s.ctrl.locked = true := by rw [hc]; rfl
    exact ⟨rfl, rfl, rfl, rfl, .inr hlocked, .inl rfl, by simp [CtrlPc.busy], by simp [hc]⟩
  · obtain rfl := Option.some.inj h
    exact ctrlFrame_move _ (by simp [CtrlPc.busy]) (by simp [hc])
  · -- the test of `running_` lets it read
    obtain rfl := Option.some.inj h
    refine ctrlFrame_move s.mutex (fun fd hfd => .inl ?_) (by simp [hc])
    by_contra hrun
    rw [if_neg hrun] at hfd
    exact absurd hfd (by simp [CtrlPc.busy])
  · split at h
    · simp only [Option.ite_none_right_eq_some, Option.some.injEq] at h
      obtain ⟨-, rfl⟩ := h
      exact ctrlFrame_move s.mutex (by simp [CtrlPc.busy]) (by simp [hc])
    · obtain rfl := Option.some.inj h
      exact ctrlFrame_move s.mutex (by simp [CtrlPc.busy]) (by simp [hc])
    · obtain rfl := Option.some.inj h
      exact ctrlFrame_move s.mutex (by simp [hc, CtrlPc.busy]) (by simp [hc])
  · obtain rfl := Option.some.inj h
    exact ctrlFrame_move s.mutex (by simp [CtrlPc.busy]) (by simp [hc])
  · simp only [Option.ite_none_right_eq_some, Option.some.injEq] at h
    obtain ⟨-, rfl⟩ := h
    exact ctrlFrame_move s.mutex (by simp [hc, CtrlPc.busy]) (by simp [hc])
  · simp only [Option.ite_none_right_eq_some, Option.some.injEq] at h
    obtain ⟨-, rfl⟩ := h
    exact ctrlFrame_move _ (by simp [CtrlPc.busy]) (by simp [hc])
  · obtain rfl := Option.some.inj h
    have hlocked : s.ctrl.locked = true := by rw [hc]; rfl
    exact ⟨rfl, rfl, rfl, rfl, .inr hlocked, .inl rfl, by simp [CtrlPc.busy], by simp [hc]⟩
  · obtain rfl := Option.some.inj h
    exact ⟨rfl, rfl, rfl, rfl, .inl rfl, .inl rfl, by simp [CtrlPc.busy], by simp [hc]⟩
  · obtain rfl := Option.some.inj h
    exact ⟨rfl, rfl, rfl, rfl, .inl rfl, .inr ⟨_, hc, rfl⟩, by simp [CtrlPc.busy], by simp [hc]⟩
  · exact absurd h (by simp)

/-- What a step of `stop()` changes, as far as a push sees it. -/
structure StopFrame {P : Type*} (s s' : ConnState P) : Prop where
  push : s'.push = s.push
  fdWrite : s'.connFdWrite = s.connFdWrite
  table : s'.table = s.table ∨
    (∃ fd, s.stop = .shutting fd ∧
      s'.table = Function.update s.table fd ((s.table fd).map Desc.shutdown)) ∨
    ∃ l d, s.listenFd = some l ∧ s'.table = Function.update s.table l d

theorem stopNext_frame {P : Type*} {s s' : ConnState P} (h : s.stopNext = some s') :
    StopFrame s s' := by
  unfold ConnState.stopNext at h
  -- only the shutdown of the connection and the two steps on the listener touch the table
  split at h <;> rename_i hst
  · simp only [Option.ite_none_right_eq_some, Option.some.injEq] at h
    obtain ⟨-, rfl⟩ := h
    exact ⟨rfl, rfl, .inl rfl⟩
  · simp only [Option.ite_none_right_eq_some, Option.some.injEq] at h
    obtain ⟨-, rfl⟩ := h
    exact ⟨rfl, rfl, .inl rfl⟩
  · split at h <;> obtain rfl := Option.some.inj h <;> exact ⟨rfl, rfl, .inl rfl⟩
  · obtain rfl := Option.some.inj h
    exact ⟨rfl, rfl, .inr (.inl ⟨_, hst, rfl⟩)⟩
  · obtain rfl := Option.some.inj h
    exact ⟨rfl, rfl, .inl rfl⟩
  · split at h <;> rename_i hl <;> obtain rfl := Option.some.inj h
    · exact ⟨rfl, rfl, .inr (.inr ⟨_, _, hl, rfl⟩)⟩
    · exact ⟨rfl, rfl, .inl rfl⟩
  · split at h <;> rename_i hl <;> obtain rfl := Option.some.inj h
    · exact ⟨rfl, rfl, .inr (.inr ⟨_, _, hl, rfl⟩)⟩
    · exact ⟨rfl, rfl, .inl rfl⟩
  · simp only [Option.ite_none_right_eq_some, Option.some.injEq] at h
    obtain ⟨-, rfl⟩ := h
    exact ⟨rfl, rfl, .inl rfl⟩
  · exact absurd h (by simp)

/-! ## Steps -/

section Steps

variable {P : Type*} {s s' : ConnState P}

theorem CtrlPc.fdWrite_of_busy {pc : CtrlPc} {fd : Fd} (h : pc.busy = some fd) :
    pc.fdWrite = some fd := by
  rcases pc <;> simp_all [CtrlPc.busy, CtrlPc.fdWrite]

theorem stopInv_ctrlNext (h : s.StopInv) (hstep : s.ctrlNext = some s') : s'.StopInv := by
  have hf := ctrlNext_frame hstep
  have hmove := h.moveCtrl hf.busy hf.live
  unfold ConnState.StopInv
  rw [hf.running, hf.listenFd, hf.stop]
  rcases hf.table with ht | ⟨fd, -, ht⟩
  · rw [ht]
    exact hmove
  · rw [ht]
    exact hmove.setDesc (by simp) (by simp)

theorem stopInv_stopNext (hinv : s.Inv) (h : s.StopInv) (hstep : s.stopNext = some s') :
    s'.StopInv := by
  unfold ConnState.StopInv at h
  unfold ConnState.stopNext at hstep
  split at hstep <;> rename_i hst <;> rw [hst] at h
  · simp only [Option.ite_none_right_eq_some, Option.some.injEq] at hstep
    obtain ⟨-, rfl⟩ := hstep
    exact h.moveStop (fun _ => rfl) (by simp [StopPc.past]) rfl (by simp)
  · simp only [Option.ite_none_right_eq_some, Option.some.injEq] at hstep
    obtain ⟨-, rfl⟩ := hstep
    exact h.moveStop (fun _ => h.cleared (by simp)) (by simp [StopPc.past]) rfl (by simp)
  · split at hstep
    · obtain rfl := Option.some.inj hstep
      exact h.moveStop (fun _ => h.cleared (by simp)) (by simp [StopPc.past]) rfl (by simp)
    · -- nothing is published, so the control thread is not in a call
      rename_i hnone
      obtain rfl := Option.some.inj hstep
      refine h.look (by simp) fun fd c hfd => ?_
      have hw := hinv.fdWrite
      rw [hnone, CtrlPc.fdWrite_of_busy hfd] at hw
      exact absurd hw (by simp)
  · -- what is published is shut down
    rename_i fd
    obtain rfl := Option.some.inj hstep
    have hfd := hinv.shutting fd hst
    obtain ⟨-, c₀, hc₀⟩ := hinv.serves hfd
    have hset : StopInv _ _ _ _ (Function.update s.table fd ((s.table fd).map Desc.shutdown)) :=
      h.setDesc (fun c hc _ => ⟨c₀, hc₀, fun _ => by
        rw [hc₀, Option.map_some, Option.some.injEq] at hc
        rw [← Desc.conn.inj hc]⟩) (by simp [hc₀, Desc.shutdown])
    refine hset.look (by simp) fun fd' c hfd' hc => ?_
    have hw := hinv.fdWrite
    rw [hfd, CtrlPc.fdWrite_of_busy hfd', Option.some.injEq] at hw
    rw [← hw, Function.update_self, hc₀, Option.map_some, Option.some.injEq] at hc
    rw [← Desc.conn.inj hc]
  · obtain rfl := Option.some.inj hstep
    exact h.moveStop (fun _ => h.cleared (by simp)) (by simp [StopPc.past]) rfl (by simp)
  · split at hstep
    · rename_i l hl
      obtain rfl := Option.some.inj hstep
      obtain ⟨b, hb⟩ := hinv.listener l hl
      exact h.closeListener hl (by simp [hb, Desc.shutdown]) (by simp [hb, Desc.shutdown]) (by simp)
        rfl
    · -- `start()` made a listener
      rename_i hnone
      obtain rfl := Option.some.inj hstep
      refine ⟨fun _ => h.cleared (by simp), fun _ => h.shut rfl, fun fd hd => ?_, by simp⟩
      exact absurd (hnone.symm.trans (h.listening fd hd).1) (by simp)
  · split at hstep
    · rename_i l hl
      obtain rfl := Option.some.inj hstep
      exact h.closeListener hl (by simp) (by simp) (by simp) rfl
    · obtain rfl := Option.some.inj hstep
      exact h.moveStop (fun _ => h.cleared (by simp)) (by simp [StopPc.past]) rfl (by simp)
  · simp only [Option.ite_none_right_eq_some, Option.some.injEq] at hstep
    obtain ⟨hexit, rfl⟩ := hstep
    exact h.moveStop (fun _ => h.cleared (by simp)) (by simp [StopPc.past]) rfl fun _ => hexit
  · exact absurd hstep (by simp)

/-- A step on an open connection that does not undo its shutdown. -/
theorem StopInv.setConn {fd : Fd} {c : Conn} (c' : Conn) (h : s.StopInv)
    (hc : s.table fd = some (.conn c)) (hshut : c.shut → c'.shut) :
    Control.StopInv s.running s.listenFd s.ctrl s.stop
      (Function.update s.table fd (some (.conn c'))) :=
  StopInv.setDesc h (fun x hx _ => ⟨c, hc, fun hs => by
    rw [Option.some.injEq, Desc.conn.injEq] at hx
    exact hx ▸ hshut hs⟩) (by simp)

variable [DecidableEq P]

/-- `push_frame` leaves `running_`, the listener and the others' positions alone, and between
    its `::write`s the table too. -/
theorem pushNext_frame {p : P} (h : s.pushNext p = some s') :
    s'.running = s.running ∧ s'.listenFd = s.listenFd ∧ s'.connFdWrite = s.connFdWrite ∧
      s'.ctrl = s.ctrl ∧ s'.stop = s.stop ∧ s'.table = s.table := by
  unfold ConnState.pushNext at h
  split at h
  · exact absurd h (by simp)
  · split at h <;> obtain rfl := Option.some.inj h <;> exact ⟨rfl, rfl, rfl, rfl, rfl, rfl⟩
  · split at h
    · obtain rfl := Option.some.inj h
      exact ⟨rfl, rfl, rfl, rfl, rfl, rfl⟩
    · simp only [Option.ite_none_right_eq_some, Option.some.injEq] at h
      obtain ⟨-, rfl⟩ := h
      exact ⟨rfl, rfl, rfl, rfl, rfl, rfl⟩
  · obtain rfl := Option.some.inj h
    exact ⟨rfl, rfl, rfl, rfl, rfl, rfl⟩

theorem stopInv_connStep {a : ConnAct P} (hinv : s.Inv) (h : s.StopInv)
    (hstep : connStep s a = some s') : s'.StopInv := by
  cases a with
  | ctrlNext => exact stopInv_ctrlNext h hstep
  | stopNext => exact stopInv_stopNext hinv h hstep
  -- a push moves its own place and the mutex, and the invariant reads neither
  | pushNext p =>
      obtain ⟨hrun, hlisten, -, hctrl, hstop, htable⟩ := pushNext_frame hstep
      unfold ConnState.StopInv
      rw [hrun, hlisten, hctrl, hstop, htable]
      exact h
  | accept fd room =>
      obtain ⟨l, hc, hfree, rfl⟩ := accept_cases hstep
      have hmove := h.moveCtrl (x := .entering fd) (by simp [CtrlPc.busy]) (by simp [hc])
      exact hmove.setDesc (by simp [CtrlPc.busy]) (by simp)
  | read k =>
      obtain ⟨fd, got, c, hc, hopen, rfl⟩ := read_cases hinv hstep
      have hset := StopInv.setConn { c with inbox := c.inbox.drop k } h hopen fun hs => hs
      exact hset.moveCtrl (fun _ hfd => .inr (by rw [hc]; exact hfd)) (by simp [hc])
  | reply n =>
      obtain ⟨fd, hc, rfl⟩ := reply_cases hstep
      exact h.moveCtrl (by simp [hc, CtrlPc.busy]) (by simp [hc])
  | replyWrite k =>
      obtain ⟨fd, rest, c, hc, hopen, -, rfl⟩ := replyWrite_cases hinv hstep
      have hset := StopInv.setConn { c with room := c.room - k } h hopen fun hs => hs
      exact hset.moveCtrl (fun _ hfd => .inr (by rw [hc]; exact hfd)) (by simp [hc])
  | pushCall p n =>
      obtain ⟨-, rfl⟩ := pushCall_cases hstep
      exact h
  | pushWrite p k =>
      obtain ⟨fd, rest, c, hp, -, hopen, -, -, rfl⟩ := pushWrite_cases hinv hstep
      exact StopInv.setConn _ h hopen fun hs => hs
  | connect =>
      obtain rfl := Option.some.inj hstep
      exact h
  | send fd bs =>
      obtain ⟨c, hopen, rfl⟩ := onConn_cases hstep
      exact StopInv.setConn _ h hopen fun hs => hs
  | recv fd k =>
      obtain ⟨c, hopen, rfl⟩ := onConn_cases hstep
      exact StopInv.setConn _ h hopen fun hs => hs
  | disconnect fd =>
      obtain ⟨c, hopen, rfl⟩ := onConn_cases hstep
      exact StopInv.setConn _ h hopen fun hs => hs
  -- after a failed `accept` the control thread is on no connection
  | acceptIntr =>
      obtain ⟨l, hc, rfl⟩ := acceptIntr_cases hstep
      exact h.moveCtrl (by simp [CtrlPc.busy]) (by simp [hc])
  | acceptErr =>
      obtain ⟨l, hc, rfl⟩ := acceptErr_cases hstep
      exact h.moveCtrl (by simp [CtrlPc.busy]) (by simp [hc])
  | openOther fd =>
      obtain ⟨-, rfl⟩ := openOther_cases hstep
      exact StopInv.setDesc h (by simp) (by simp)
  | closeOther fd =>
      obtain ⟨-, rfl⟩ := closeOther_cases hstep
      exact StopInv.setDesc h (by simp) (by simp)

theorem stopInv_connStart (P : Type*) [DecidableEq P] (listenFd : Fd) :
    (connMachine P listenFd).start.StopInv := by
  refine ⟨by simp [connMachine], by simp [connMachine, StopPc.past], fun fd hd => ?_,
    by simp [connMachine]⟩
  by_cases heq : fd = listenFd
  · exact ⟨congrArg some heq.symm, rfl⟩
  · exact absurd hd (by simp [connMachine, heq])

/-- Both invariants, in every state reached. -/
theorem stopInv_of_connReached {listenFd : Fd} {G : ConnState P → ConnAct P → Prop}
    {as : List (ConnAct P)} {s : ConnState P} (h : (connMachine P listenFd).Reached G as s) :
    s.Inv ∧ s.StopInv :=
  h.invariant (I := fun s => s.Inv ∧ s.StopInv)
    ⟨inv_connStart P listenFd, stopInv_connStart P listenFd⟩
    fun _ _ _ hinv _ hstep =>
      ⟨inv_connStep hinv.1 hstep, stopInv_connStep hinv.1 hinv.2 hstep⟩

end Steps

/-! ## Room for the push in progress -/

/-- What a `push_frame` that holds the mutex has still to write, and where. -/
def owes (connFdWrite : Option Fd) : PushFramePc → Option (Fd × Rest)
  | .locked rest => connFdWrite.map (·, rest)
  | .writing fd rest => some (fd, rest)
  | _ => none

/-- `::write`s of `n` bytes in all return without a step of the client. -/
def Conn.Takes (c : Conn) (n : Nat) : Prop := c.shut ∨ c.gone ∨ n ≤ c.room

instance (c : Conn) (n : Nat) : Decidable (c.Takes n) :=
  inferInstanceAs (Decidable (_ ∨ _ ∨ _))

theorem Conn.Takes.mono {c c' : Conn} {n n' : Nat} (h : c.Takes n) (hs : c.shut → c'.shut)
    (hg : c.gone → c'.gone) (hroom : n ≤ c.room → n' ≤ c'.room) : c'.Takes n' := by
  rcases h with h | h | h
  · exact .inl (hs h)
  · exact .inr (.inl (hg h))
  · exact .inr (.inr (hroom h))

/-- The client's buffer has room for what is left of the frame being pushed. -/
def PushHasRoom {P : Type*} (connFdWrite : Option Fd) (push : P → PushFramePc)
    (table : Fd → Option Desc) : Prop :=
  ∀ p fd rest c, owes connFdWrite (push p) = some (fd, rest) → table fd = some (.conn c) →
    c.Takes rest.left

abbrev ConnState.HasRoom {P : Type*} (s : ConnState P) : Prop :=
  PushHasRoom s.connFdWrite s.push s.table

/-- The condition on a step: `push_frame` is entered when the client's buffer has room for
    the frame, and a reply leaves room for the push in progress. -/
def PushFits {P : Type*} (s : ConnState P) : ConnAct P → Prop
  | .pushCall _ n => ∀ fd c, s.connFdWrite = some fd → s.table fd = some (.conn c) →
      c.Takes (Rest.frame n).left
  | .replyWrite k => ∀ p fd rest c, owes s.connFdWrite (s.push p) = some (fd, rest) →
      s.table fd = some (.conn c) → c.Takes (rest.left + k)
  | _ => True

section Room

variable {P : Type*} {s s' : ConnState P}

theorem Rest.left_write {r : Rest} {k : Nat} (hk : k ≤ r.buf) : (r.write k).left = r.left - k := by
  unfold Rest.buf at hk
  unfold Rest.write Rest.left
  split at hk
  · next h0 =>
    rw [if_pos h0, h0]
    change 0 + (r.payload - k) = 0 + r.payload - k
    omega
  · next h0 =>
    rw [if_neg h0]
    change r.hdr - k + r.payload = r.hdr + r.payload - k
    omega

theorem Rest.buf_le_left (r : Rest) : r.buf ≤ r.left := by
  unfold Rest.buf Rest.left
  split <;> omega

theorem Rest.buf_pos {r : Rest} (h : r.left ≠ 0) : 1 ≤ r.buf := by
  unfold Rest.left at h
  unfold Rest.buf
  split <;> omega

theorem owes_idle (w : Option Fd) : owes w .idle = none := rfl

/-- Whoever owes bytes is inside, and owes them to the published connection. -/
theorem ConnInv.of_owes {p : P} {fd : Fd} {rest : Rest} (h : s.Inv)
    (howes : owes s.connFdWrite (s.push p) = some (fd, rest)) :
    s.mutex = some (.push p) ∧ s.connFdWrite = some fd ∧ ∃ c, s.table fd = some (.conn c) := by
  have hin : Inside s.ctrl s.push s.stop (.push p) := by
    unfold Inside
    rcases hp : s.push p with _ | r | ⟨fd', r⟩ | _ <;> rw [hp] at howes <;>
      simp_all [owes, PushFramePc.inside]
  have hfd : s.connFdWrite = some fd := by
    rcases hp : s.push p with _ | r | ⟨fd', r⟩ | _ <;> rw [hp] at howes
    · exact absurd howes (by simp [owes])
    · simp only [owes, Option.map_eq_some_iff, Prod.mk.injEq] at howes
      obtain ⟨fd', hfd', rfl, -⟩ := howes
      exact hfd'
    · simp only [owes, Option.some.injEq, Prod.mk.injEq] at howes
      exact howes.1 ▸ h.writing p fd' r hp
    · exact absurd howes (by simp [owes])
  exact ⟨(h.held _).mpr hin, hfd, (h.serves hfd).2⟩

/-- Room is kept by a change of the table that takes no more than is owed. -/
theorem PushHasRoom.setDesc {w : Option Fd} {push : P → PushFramePc} {table : Fd → Option Desc}
    {fd : Fd} {d : Option Desc} (h : PushHasRoom w push table)
    (hd : ∀ p rest c, owes w (push p) = some (fd, rest) → d = some (.conn c) → c.Takes rest.left) :
    PushHasRoom w push (Function.update table fd d) := by
  intro p fd' rest c howes hc
  by_cases heq : fd' = fd
  · rw [heq, Function.update_self] at hc
    exact hd p rest c (heq ▸ howes) hc
  · rw [Function.update_of_ne heq] at hc
    exact h p fd' rest c howes hc

/-- A connection that takes at least what it took. -/
theorem ConnState.HasRoom.setConn {fd : Fd} {c : Conn} (c' : Conn) (h : s.HasRoom)
    (hc : s.table fd = some (.conn c)) (htakes : ∀ n, c.Takes n → c'.Takes n) :
    PushHasRoom s.connFdWrite s.push (Function.update s.table fd (some (.conn c'))) := by
  refine PushHasRoom.setDesc h fun p rest x howes hx => ?_
  rw [Option.some.injEq, Desc.conn.injEq] at hx
  exact hx ▸ htakes _ (h p fd rest c howes hc)

/-- A number nobody owes bytes to. -/
theorem ConnState.HasRoom.setOther {fd : Fd} (d : Option Desc) (hinv : s.Inv) (h : s.HasRoom)
    (hfd : ∀ c, s.table fd ≠ some (.conn c)) :
    PushHasRoom s.connFdWrite s.push (Function.update s.table fd d) := by
  refine PushHasRoom.setDesc h fun p rest x howes _ => ?_
  obtain ⟨-, -, c, hc⟩ := hinv.of_owes howes
  exact absurd hc (hfd c)

/-- One thread's push moves. -/
theorem PushHasRoom.movePush [DecidableEq P] {w : Option Fd} {push : P → PushFramePc}
    {table : Fd → Option Desc} {p : P} {x : PushFramePc} (h : PushHasRoom w push table)
    (hx : ∀ fd rest c, owes w x = some (fd, rest) → table fd = some (.conn c) → c.Takes rest.left) :
    PushHasRoom w (Function.update push p x) table := by
  intro q fd rest c howes hc
  by_cases hqp : q = p
  · rw [hqp, Function.update_self] at howes
    exact hx fd rest c howes hc
  · rw [Function.update_of_ne hqp] at howes
    exact h q fd rest c howes hc

theorem hasRoom_ctrlNext (hinv : s.Inv) (h : s.HasRoom) (hstep : s.ctrlNext = some s') :
    s'.HasRoom := by
  have hf := ctrlNext_frame hstep
  unfold ConnState.HasRoom
  rw [hf.push]
  intro p fd rest c howes hc
  by_cases hlock : s.ctrl.locked = true
  · -- the control thread holds the mutex, so nobody is pushing
    rw [(hinv.alone hlock).1 p, owes_idle] at howes
    exact absurd howes (by simp)
  · have hw : s'.connFdWrite = s.connFdWrite := hf.fdWrite.resolve_right hlock
    rw [hw] at howes
    rcases hf.table with ht | ⟨fd', hclosing, ht⟩
    · rw [ht] at hc
      exact h p fd rest c howes hc
    · have hfd := (hinv.of_owes howes).2.1
      rw [hinv.fdWrite, hclosing] at hfd
      exact absurd hfd (by simp [CtrlPc.fdWrite])

theorem hasRoom_stopNext (hinv : s.Inv) (h : s.HasRoom) (hstep : s.stopNext = some s') :
    s'.HasRoom := by
  have hf := stopNext_frame hstep
  unfold ConnState.HasRoom
  rw [hf.push, hf.fdWrite]
  rcases hf.table with ht | ⟨fd, hst, ht⟩ | ⟨l, d, hl, ht⟩
  · rw [ht]
    exact h
  · -- on a connection that was shut down a `::write` returns
    obtain ⟨-, c, hc⟩ := hinv.serves (hinv.shutting fd hst)
    rw [ht, hc]
    exact h.setConn { c with shut := true } hc fun n _ => .inl rfl
  · obtain ⟨b, hb⟩ := hinv.listener l hl
    rw [ht]
    exact h.setOther d hinv (by simp [hb])

variable [DecidableEq P]

/-- What the next step of a push in progress leaves owed was owed before. -/
theorem pushNext_push {p : P} (h : s.pushNext p = some s') :
    ∃ x, s'.push = Function.update s.push p x ∧
      ∀ fd rest, owes s.connFdWrite x = some (fd, rest) →
        owes s.connFdWrite (s.push p) = some (fd, rest) := by
  unfold ConnState.pushNext at h
  split at h <;> rename_i hp
  · exact absurd h (by simp)
  · split at h <;> rename_i hw <;> obtain rfl := Option.some.inj h
    · exact ⟨_, rfl, fun fd rest howes => by simpa [hp, hw, owes] using howes⟩
    · exact ⟨_, rfl, by simp [owes]⟩
  · split at h
    · obtain rfl := Option.some.inj h
      exact ⟨_, rfl, by simp [owes]⟩
    · simp only [Option.ite_none_right_eq_some, Option.some.injEq] at h
      obtain ⟨-, rfl⟩ := h
      exact ⟨_, rfl, by simp [owes]⟩
  · obtain rfl := Option.some.inj h
    exact ⟨_, rfl, by simp [owes]⟩

/-- A write of a producer takes as many bytes off its frame as off the room. -/
theorem hasRoom_pushWrite {p : P} {k : Nat} (hinv : s.Inv) (h : s.HasRoom)
    (hstep : connStep s (.pushWrite p k) = some s') : s'.HasRoom := by
  obtain ⟨fd, rest, c, hp, hfd, hopen, hk, hroom, rfl⟩ := pushWrite_cases hinv hstep
  have hmine : owes s.connFdWrite (s.push p) = some (fd, rest) := by rw [hp]; rfl
  intro q fd' owed x howes hx
  -- the mutex keeps every other thread out
  have hqp : q = p := by
    by_contra hne
    have howes' : owes s.connFdWrite (s.push q) = some (fd', owed) := by
      have hother : Function.update s.push p (.writing fd (rest.write k)) q = s.push q :=
        Function.update_of_ne hne _ _
      rw [← hother]
      exact howes
    have hmq := (hinv.of_owes howes').1
    rw [(hinv.of_owes hmine).1, Option.some.injEq, Who.push.injEq] at hmq
    exact hne hmq.symm
  subst hqp
  change owes _ (Function.update s.push q (.writing fd (rest.write k)) q) = _ at howes
  rw [Function.update_self] at howes
  obtain ⟨rfl, rfl⟩ := Prod.mk.inj (Option.some.inj howes)
  change Function.update s.table fd _ fd = _ at hx
  rw [Function.update_self, Option.some.injEq, Desc.conn.injEq] at hx
  subst hx
  refine (h q fd rest c hmine hopen).mono (fun hs => hs) (fun hg => hg) fun hleft => ?_
  rw [Rest.left_write hk]
  change rest.left - k ≤ c.room - k
  omega

theorem hasRoom_connStep {a : ConnAct P} (hinv : s.Inv) (h : s.HasRoom) (hfits : PushFits s a)
    (hstep : connStep s a = some s') : s'.HasRoom := by
  cases a with
  | ctrlNext => exact hasRoom_ctrlNext hinv h hstep
  | stopNext => exact hasRoom_stopNext hinv h hstep
  | pushNext p =>
      obtain ⟨x, hpush, hx⟩ := pushNext_push hstep
      obtain ⟨-, -, hw, -, -, ht⟩ := pushNext_frame hstep
      unfold ConnState.HasRoom
      rw [hpush, hw, ht]
      exact h.movePush fun fd rest c howes hc => h p fd rest c (hx fd rest howes) hc
  | accept fd room =>
      obtain ⟨l, hc, hfree, rfl⟩ := accept_cases hstep
      exact h.setOther _ hinv (by simp [hfree])
  | read k =>
      obtain ⟨fd, got, c, hc, hopen, rfl⟩ := read_cases hinv hstep
      exact h.setConn { c with inbox := c.inbox.drop k } hopen fun n hn => hn
  | reply n =>
      obtain ⟨fd, hc, rfl⟩ := reply_cases hstep
      exact h
  | replyWrite k =>
      obtain ⟨fd, rest, c, hc, hopen, hk, rfl⟩ := replyWrite_cases hinv hstep
      -- the reply takes `k` bytes of the room; `PushFits` says that the push keeps enough of it
      refine PushHasRoom.setDesc h fun p owed x howes hx => ?_
      rw [Option.some.injEq, Desc.conn.injEq] at hx
      subst hx
      refine (hfits p fd owed c howes hopen).mono (fun hs => hs) (fun hg => hg) fun hroom => ?_
      change owed.left ≤ c.room - k
      omega
  | pushCall p n =>
      obtain ⟨-, rfl⟩ := pushCall_cases hstep
      refine h.movePush fun fd rest c howes hc => ?_
      simp only [owes, Option.map_eq_some_iff, Prod.mk.injEq] at howes
      obtain ⟨fd', hfd, rfl, rfl⟩ := howes
      exact hfits fd' c hfd hc
  | pushWrite p k => exact hasRoom_pushWrite hinv h hstep
  | connect =>
      obtain rfl := Option.some.inj hstep
      exact h
  | send fd bs =>
      obtain ⟨c, hopen, rfl⟩ := onConn_cases hstep
      exact h.setConn _ hopen fun n hn => hn
  | recv fd k =>
      obtain ⟨c, hopen, rfl⟩ := onConn_cases hstep
      exact h.setConn _ hopen fun n hn =>
        hn.mono (fun hs => hs) (fun hg => hg) Nat.le_add_right_of_le
  | disconnect fd =>
      obtain ⟨c, hopen, rfl⟩ := onConn_cases hstep
      -- a write to a client that has gone fails at once, so it asks for no room
      exact h.setConn _ hopen fun n _ => .inr (.inl rfl)
  | acceptIntr =>
      obtain ⟨l, hc, rfl⟩ := acceptIntr_cases hstep
      exact h
  | acceptErr =>
      obtain ⟨l, hc, rfl⟩ := acceptErr_cases hstep
      exact h
  | openOther fd =>
      obtain ⟨hfree, rfl⟩ := openOther_cases hstep
      exact h.setOther _ hinv (by simp [hfree])
  | closeOther fd =>
      obtain ⟨hother, rfl⟩ := closeOther_cases hstep
      exact h.setOther _ hinv (by simp [hother])

/-- In a run whose pushes fit there is always room. -/
theorem hasRoom_of_connReached {listenFd : Fd} {as : List (ConnAct P)} {s : ConnState P}
    (h : (connMachine P listenFd).Reached PushFits as s) : s.HasRoom := by
  have hboth := h.invariant (I := fun s => s.Inv ∧ s.HasRoom)
    ⟨inv_connStart P listenFd, fun p fd rest c howes => by simp [connMachine, owes] at howes⟩
    fun _ _ _ hinv hfits hstep =>
      ⟨inv_connStep hinv.1 hstep, hasRoom_connStep hinv.1 hinv.2 hfits hstep⟩
  exact hboth.2

end Room

/-! ## A push without room -/

/-- The steps of the server's own threads. -/
def ConnAct.isOwn {P : Type*} : ConnAct P → Bool
  | .ctrlNext | .accept .. | .read _ | .reply _ | .replyWrite _ | .pushCall .. | .pushNext _
  | .pushWrite .. | .stopNext => true
  | _ => false

section Trap

variable {P : Type*} {s s' : ConnState P}

/-- The push of `p` waits for the client. -/
structure Starved (s : ConnState P) (p : P) (fd : Fd) (rest : Rest) (c : Conn) : Prop where
  owed : owes s.connFdWrite (s.push p) = some (fd, rest)
  conn : s.table fd = some (.conn c)
  starved : ¬ c.Takes rest.left

/-- Some push waits for the client. -/
def Trapped (s : ConnState P) : Prop := ∃ p fd rest c, Starved s p fd rest c

/-- Nothing that happens elsewhere helps it. -/
theorem Starved.of_same {p : P} {fd : Fd} {rest : Rest} {c : Conn} (h : Starved s p fd rest c)
    (hw : s'.connFdWrite = s.connFdWrite) (hp : s'.push p = s.push p)
    (ht : s'.table fd = s.table fd) : Starved s' p fd rest c :=
  ⟨by rw [hw, hp]; exact h.owed, ht.trans h.conn, h.starved⟩

/-- Nor does a connection that takes no more than before. -/
theorem Starved.setConn {p : P} {fd fd' : Fd} {rest : Rest} {c c₀ : Conn} (c' : Conn)
    (h : Starved s p fd rest c) (hopen : s.table fd' = some (.conn c₀))
    (hw : s'.connFdWrite = s.connFdWrite) (hp : s'.push p = s.push p)
    (ht : s'.table = Function.update s.table fd' (some (.conn c')))
    (hless : ∀ n, c'.Takes n → c₀.Takes n) : Trapped s' := by
  by_cases heq : fd = fd'
  · subst heq
    have hc := hopen.symm.trans h.conn
    rw [Option.some.injEq, Desc.conn.injEq] at hc
    refine ⟨p, fd, rest, c', by rw [hw, hp]; exact h.owed, by rw [ht, Function.update_self], ?_⟩
    exact fun htakes => h.starved (hc ▸ hless _ htakes)
  · exact ⟨p, fd, rest, c, h.of_same hw hp (by rw [ht, Function.update_of_ne heq])⟩

theorem Starved.ctrlNext {p : P} {fd : Fd} {rest : Rest} {c : Conn} (hinv : s.Inv)
    (h : Starved s p fd rest c) (hstep : s.ctrlNext = some s') : Starved s' p fd rest c := by
  have hf := ctrlNext_frame hstep
  obtain ⟨hm, hfd, -⟩ := hinv.of_owes h.owed
  have hlock : ¬ s.ctrl.locked = true := fun hlock => by
    have hmc := (hinv.held .ctrl).mpr hlock
    rw [hm] at hmc
    exact absurd hmc (by simp)
  refine h.of_same (hf.fdWrite.resolve_right hlock) (congrFun hf.push p) ?_
  rcases hf.table with ht | ⟨fd', hclosing, -⟩
  · rw [ht]
  · rw [hinv.fdWrite, hclosing] at hfd
    exact absurd hfd (by simp [CtrlPc.fdWrite])

/-- `stop()` is not at its shutdown of the connection: the push has the mutex. -/
theorem Starved.stopNext {p : P} {fd : Fd} {rest : Rest} {c : Conn} (hinv : s.Inv)
    (h : Starved s p fd rest c) (hstep : s.stopNext = some s') : Starved s' p fd rest c := by
  have hf := stopNext_frame hstep
  refine h.of_same hf.fdWrite (congrFun hf.push p) ?_
  rcases hf.table with ht | ⟨fd', hst, -⟩ | ⟨l, d, hl, ht⟩
  · rw [ht]
  · have hin : Inside s.ctrl s.push s.stop .stop := by simp [Inside, hst, StopPc.inside]
    have hms := hinv.held.eq_of_inside (hinv.of_owes h.owed).1 hin
    exact absurd hms (by simp)
  · obtain ⟨b, hb⟩ := hinv.listener l hl
    have hne : fd ≠ l := by
      rintro rfl
      exact absurd (hb.symm.trans h.conn) (by simp)
    rw [ht, Function.update_of_ne hne]

variable [DecidableEq P]

/-- Its own next step finds the buffer still short, and nobody else is inside. -/
theorem Starved.pushNext {p q : P} {fd : Fd} {rest : Rest} {c : Conn} (hinv : s.Inv)
    (h : Starved s p fd rest c) (hstep : s.pushNext q = some s') : Starved s' p fd rest c := by
  obtain ⟨hm, hfd, -⟩ := hinv.of_owes h.owed
  have hqp : q = p := by
    have hin : Inside s.ctrl s.push s.stop (.push q) := by
      unfold ConnState.pushNext at hstep
      unfold Inside
      rcases hq : s.push q <;> simp_all [PushFramePc.inside]
    exact Who.push.inj (hinv.held.eq_of_inside hm hin)
  subst hqp
  obtain ⟨-, -, hw, -, -, ht⟩ := pushNext_frame hstep
  refine ⟨?_, by rw [ht]; exact h.conn, h.starved⟩
  have howed := h.owed
  unfold ConnState.pushNext at hstep
  split at hstep <;> rename_i hp <;> rw [hp] at howed
  · exact absurd hstep (by simp)
  · rw [hfd] at hstep
    obtain rfl := Option.some.inj hstep
    rw [hfd] at howed
    simpa [owes] using howed
  · -- bytes are left, and the `::write` does not fail
    rename_i fd' rest'
    obtain ⟨rfl, rfl⟩ := Prod.mk.inj (Option.some.inj howed)
    have hleft : rest'.left ≠ 0 := fun h0 => h.starved (.inr (.inr (by omega)))
    have hlive : writeFails (s.table fd') = false := by
      rw [h.conn]
      have hnot := h.starved
      simp only [Conn.Takes, not_or, Bool.not_eq_true] at hnot
      simp [writeFails, hnot.1, hnot.2.1]
    rw [if_neg hleft, hlive] at hstep
    exact absurd hstep (by simp)
  · exact absurd howed (by simp [owes])

theorem trapped_connStep {a : ConnAct P} (hinv : s.Inv) (h : Trapped s) (hown : a.isOwn)
    (hstep : connStep s a = some s') : Trapped s' := by
  obtain ⟨p, fd, rest, c, h⟩ := h
  have hm := (hinv.of_owes h.owed).1
  cases a with
  | ctrlNext => exact ⟨p, fd, rest, c, h.ctrlNext hinv hstep⟩
  | stopNext => exact ⟨p, fd, rest, c, h.stopNext hinv hstep⟩
  | pushNext q => exact ⟨p, fd, rest, c, h.pushNext hinv hstep⟩
  | accept fd' room =>
      obtain ⟨l, -, hfree, rfl⟩ := accept_cases hstep
      have hne : fd ≠ fd' := by
        rintro rfl
        exact absurd (hfree.symm.trans h.conn) (by simp)
      exact ⟨p, fd, rest, c, h.of_same rfl rfl (Function.update_of_ne hne _ _)⟩
  | read k =>
      obtain ⟨fd', got, c₀, -, hopen, rfl⟩ := read_cases hinv hstep
      exact h.setConn { c₀ with inbox := c₀.inbox.drop k } hopen rfl rfl rfl fun n hn => hn
  | reply n =>
      obtain ⟨fd', -, rfl⟩ := reply_cases hstep
      exact ⟨p, fd, rest, c, h.of_same rfl rfl rfl⟩
  | replyWrite k =>
      obtain ⟨fd', rest', c₀, -, hopen, -, rfl⟩ := replyWrite_cases hinv hstep
      exact h.setConn { c₀ with room := c₀.room - k } hopen rfl rfl rfl fun n hn =>
        hn.mono (fun hs => hs) (fun hg => hg) fun hroom => Nat.le_trans hroom (Nat.sub_le _ _)
  | pushCall q n =>
      -- the trapped push has the mutex, so no other can be called
      obtain ⟨⟨-, hfree⟩, -⟩ := pushCall_cases hstep
      rw [hm] at hfree
      exact absurd hfree (by simp)
  | pushWrite q k =>
      obtain ⟨fd', rest', c₀, hq, -, hopen, hk, hroom, rfl⟩ := pushWrite_cases hinv hstep
      -- only the holder writes, and what it writes takes room and rest down by the same `k`
      have hqp : q = p :=
        Who.push.inj (hinv.held.eq_of_inside hm (by simp [Inside, hq, PushFramePc.inside]))
      subst hqp
      obtain ⟨howed, hconn, hstarved⟩ := h
      rw [hq] at howed
      obtain ⟨rfl, rfl⟩ := Prod.mk.inj (Option.some.inj howed)
      have hc := hopen.symm.trans hconn
      rw [Option.some.injEq, Desc.conn.injEq] at hc
      subst hc
      simp only [Conn.Takes, not_or, Nat.not_le] at hstarved
      refine ⟨q, fd', rest'.write k, { c₀ with room := c₀.room - k }, ?_, ?_, ?_⟩
      · change owes _ (Function.update s.push q _ q) = _
        rw [Function.update_self]
        rfl
      · exact Function.update_self _ _ _
      · simp only [Conn.Takes, not_or, Nat.not_le, Rest.left_write hk]
        exact ⟨hstarved.1, hstarved.2.1, by omega⟩
  -- what is left is the client, a signal, or another part of the process
  | connect => exact absurd hown (by simp [ConnAct.isOwn])
  | send fd bs => exact absurd hown (by simp [ConnAct.isOwn])
  | recv fd k => exact absurd hown (by simp [ConnAct.isOwn])
  | disconnect fd => exact absurd hown (by simp [ConnAct.isOwn])
  | acceptIntr => exact absurd hown (by simp [ConnAct.isOwn])
  | acceptErr => exact absurd hown (by simp [ConnAct.isOwn])
  | openOther fd => exact absurd hown (by simp [ConnAct.isOwn])
  | closeOther fd => exact absurd hown (by simp [ConnAct.isOwn])

end Trap

/-! ## The way to the end -/

/-- How far a thread is from the end, once `running_` is cleared. -/
def StopPc.rank : StopPc → Nat
  | .idle => 8
  | .cleared => 7
  | .locked => 6
  | .shutting _ => 5
  | .unlocking => 4
  | .shutListener => 3
  | .closeListener => 2
  | .joining => 1
  | .returned => 0

def CtrlPc.rank : CtrlPc → Nat
  | .exited => 0
  | .top => 1
  | .accepting _ => 1
  | .calling => 2
  | .closing _ => 2
  | .withdrawn _ => 3
  | .withdrawing _ => 4
  | .leaving _ => 5
  | .testing _ => 6
  | .dispatching _ => 7
  | .published _ => 7
  | .publishing _ => 8
  | .replying _ _ => 8
  | .reading _ _ => 8
  | .entering _ => 9

def PushFramePc.rank : PushFramePc → Nat
  | .idle => 0
  | .unlocking => 1
  | .writing _ rest => rest.left + 2
  | .locked rest => rest.left + 3

/-- Bytes that have come on a connection. -/
def inboxLen : Option Desc → Nat
  | some (.conn c) => c.inbox.length
  | _ => 0

/-- Bytes a reading control thread finds before it fails. -/
def unread (ctrl : CtrlPc) (table : Fd → Option Desc) : Nat :=
  match ctrl with
  | .reading fd _ => inboxLen (table fd)
  | _ => 0

/-- The push that holds the mutex. -/
def holderRank {P : Type*} (mutex : Option (Who P)) (push : P → PushFramePc) : Nat :=
  match mutex with
  | some (.push p) => (push p).rank
  | _ => 0

def ConnState.rank {P : Type*} (s : ConnState P) : Nat :=
  s.stop.rank + s.ctrl.rank + unread s.ctrl s.table + holderRank s.mutex s.push

theorem unread_setDesc (ctrl : CtrlPc) (table : Fd → Option Desc) (fd : Fd) (d : Option Desc)
    (hd : inboxLen d ≤ inboxLen (table fd)) :
    unread ctrl (Function.update table fd d) ≤ unread ctrl table := by
  rcases ctrl with _ | _ | _ | _ | _ | _ | _ | ⟨fd', got⟩ | _ | _ | _ | _ | _ | _ | _ <;>
    simp only [unread, le_refl]
  by_cases heq : fd' = fd
  · rw [heq, Function.update_self]
    exact hd
  · rw [Function.update_of_ne heq]

section Progress

variable {P : Type*} [DecidableEq P] {s : ConnState P}

/-- Some own step, that needs no condition, comes nearer to the end. -/
def Progress (s : ConnState P) : Prop :=
  ∃ a s', a.isOwn ∧ connStep s a = some s' ∧ PushFits s a ∧ s'.stop ≠ .idle ∧ s'.rank < s.rank

theorem progress_ctrlNext (s' : ConnState P) (hidle : s.stop ≠ .idle) (hstep : s.ctrlNext = some s')
    (hrank : s'.ctrl.rank + unread s'.ctrl s'.table + holderRank s'.mutex s'.push <
      s.ctrl.rank + unread s.ctrl s.table + holderRank s.mutex s.push) : Progress s := by
  have hf := ctrlNext_frame hstep
  refine ⟨.ctrlNext, s', rfl, hstep, trivial, by rw [hf.stop]; exact hidle, ?_⟩
  unfold ConnState.rank
  rw [hf.stop]
  omega

/-- Holding the mutex, the control thread gives it back. -/
theorem progress_locked (hinv : s.Inv) (hidle : s.stop ≠ .idle) (hlock : s.ctrl.locked) :
    Progress s := by
  have hm := (hinv.held .ctrl).mpr hlock
  rcases hc : s.ctrl with _ | _ | _ | _ | fd | fd | _ | _ | _ | _ | _ | fd | fd | _ | _ <;>
    simp only [hc, CtrlPc.locked, Bool.false_eq_true] at hlock
  · refine progress_ctrlNext _ hidle (by rw [ConnState.ctrlNext, hc]) ?_
    simp [hc, CtrlPc.rank, unread]
  · refine progress_ctrlNext _ hidle (by rw [ConnState.ctrlNext, hc]) ?_
    simp [hc, hm, CtrlPc.rank, unread, holderRank]
  · refine progress_ctrlNext _ hidle (by rw [ConnState.ctrlNext, hc]) ?_
    simp [hc, CtrlPc.rank, unread]
  · refine progress_ctrlNext _ hidle (by rw [ConnState.ctrlNext, hc]) ?_
    simp [hc, hm, CtrlPc.rank, unread, holderRank]

theorem readNext_pos {got : List Byte} {n : Nat} (h : readNext got = .need n) : 1 ≤ n := by
  unfold readNext at h
  split at h
  · rw [ReadNext.need.injEq] at h
    omega
  · dsimp only at h
    split at h
    · exact absurd h (by simp)
    · split at h
      · rw [ReadNext.need.injEq] at h
        omega
      · exact absurd h (by simp)

/-- A `::read` on a connection that was shut down returns what has come, or nothing. -/
theorem progress_reading {fd : Fd} {got : List Byte} (hinv : s.Inv) (hidle : s.stop ≠ .idle)
    (hc : s.ctrl = .reading fd got) (hshut : ∀ c, s.table fd = some (.conn c) → c.shut) :
    Progress s := by
  obtain ⟨c, hopen⟩ := hinv.opened fd (by rw [hc]; rfl)
  rcases hnext : readNext got with n | _ | _
  · -- bytes that came before the shutdown are still delivered
    by_cases hempty : c.inbox = []
    · have hfails : readFails (s.table fd) = true := by
        simp [hopen, readFails, hempty, hshut c hopen]
      refine progress_ctrlNext { s with ctrl := .leaving fd } hidle ?_ ?_
      · simp only [ConnState.ctrlNext, hc, hnext, hfails, if_true]
      · simp only [hc, CtrlPc.rank, unread]
        omega
    · have hn := readNext_pos hnext
      have hlen := List.length_pos_iff.mpr hempty
      refine ⟨.read (min n c.inbox.length), { s.setDesc fd
        (some (.conn { c with inbox := c.inbox.drop (min n c.inbox.length) })) with
        ctrl := .reading fd (got ++ c.inbox.take (min n c.inbox.length)) }, rfl, ?_, trivial,
        hidle, ?_⟩
      · have hk : 1 ≤ min n c.inbox.length ∧ min n c.inbox.length ≤ n := by omega
        simp only [connStep, hc, hnext, hk, and_self, if_true, hopen, Option.bind_some, Desc.read,
          Nat.min_le_right, Option.map_some]
      · simp only [ConnState.rank, ConnState.setDesc, unread, hc, hopen, Function.update_self,
          CtrlPc.rank, inboxLen, List.length_drop]
        omega
  · refine progress_ctrlNext { s with ctrl := .leaving fd } hidle ?_ ?_
    · simp only [ConnState.ctrlNext, hc, hnext]
    · simp only [hc, CtrlPc.rank, unread]
      omega
  · refine progress_ctrlNext { s with ctrl := .dispatching fd } hidle ?_ ?_
    · simp only [ConnState.ctrlNext, hc, hnext]
    · simp only [hc, CtrlPc.rank, unread]
      omega

/-- While `stop()` joins and the mutex is free, the control thread comes nearer to its
    exit. -/
theorem progress_joining (hinv : s.Inv) (hstop : s.StopInv) (hjoin : s.stop = .joining)
    (hm : s.mutex = none) (hexit : s.ctrl ≠ .exited) : Progress s := by
  have hidle : s.stop ≠ .idle := by simp [hjoin]
  have hrun := hstop.cleared hidle
  have hfree : s.mutex.isNone = true := by simp [hm]
  have hunlocked : s.ctrl.locked = false := by
    by_contra hlock
    have hmc := (hinv.held .ctrl).mpr (by simpa [Inside] using hlock)
    rw [hm] at hmc
    exact absurd hmc (by simp)
  have hshut : ∀ fd c, s.ctrl.busy = some fd → s.table fd = some (.conn c) → c.shut :=
    hstop.shut (by simp [hjoin, StopPc.past])
  rcases hc : s.ctrl with _ | _ | l | fd | fd | fd | fd | ⟨fd, got⟩ | fd | ⟨fd, rest⟩ | fd | fd |
    fd | fd | _ <;> simp only [hc, CtrlPc.locked, Bool.true_eq_false] at hunlocked
  · refine progress_ctrlNext _ hidle (by rw [ConnState.ctrlNext, hc, hrun]) ?_
    simp [hc, CtrlPc.rank, unread]
  · refine progress_ctrlNext _ hidle (by rw [ConnState.ctrlNext, hc]) ?_
    simp [hc, CtrlPc.rank, unread]
  · -- the listener was shut down
    have hnot : s.listens l = false := by
      by_contra hlistens
      simp only [ConnState.listens, Bool.not_eq_false, beq_iff_eq] at hlistens
      obtain ⟨fd, rfl, hfd⟩ := Option.bind_eq_some_iff.mp hlistens
      have hsh := (hstop.listening fd hfd).2
      rw [hjoin] at hsh
      exact absurd hsh (by simp [StopPc.listenerShut])
    refine progress_ctrlNext { s with ctrl := .exited } hidle ?_ ?_
    · simp [ConnState.ctrlNext, hc, hnot]
    · simp [hc, CtrlPc.rank, unread]
  · refine progress_ctrlNext { s with mutex := some .ctrl, ctrl := .publishing fd } hidle ?_ ?_
    · simp [ConnState.ctrlNext, hc, hfree]
    · simp [hc, hm, CtrlPc.rank, unread, holderRank]
  · refine progress_ctrlNext _ hidle (by rw [ConnState.ctrlNext, hc, hrun]) ?_
    simp [hc, CtrlPc.rank, unread]
  · exact progress_reading hinv hidle hc fun c hopen => hshut fd c (by rw [hc]; rfl) hopen
  · refine progress_ctrlNext _ hidle (by rw [ConnState.ctrlNext, hc]) ?_
    simp [hc, CtrlPc.rank, unread]
  · -- a `::write` on a connection that was shut down fails
    obtain ⟨c, hopen⟩ := hinv.opened fd (by rw [hc]; rfl)
    have hfails : writeFails (s.table fd) = true := by
      simp [hopen, writeFails, hshut fd c (by rw [hc]; rfl) hopen]
    refine progress_ctrlNext { s with ctrl := .dispatching fd } hidle ?_ ?_
    · simp [ConnState.ctrlNext, hc, hfails]
    · simp [hc, CtrlPc.rank, unread]
  · refine progress_ctrlNext { s with mutex := some .ctrl, ctrl := .withdrawing fd } hidle ?_ ?_
    · simp [ConnState.ctrlNext, hc, hfree]
    · simp [hc, hm, CtrlPc.rank, unread, holderRank]
  · refine progress_ctrlNext _ hidle (by rw [ConnState.ctrlNext, hc]) ?_
    simp [hc, CtrlPc.rank, unread, ConnState.setDesc]
  · exact absurd hc hexit

/-- The push that holds the mutex gives it back: there is room for what it has to write. -/
theorem progress_push {p : P} (hinv : s.Inv) (hroom : s.HasRoom) (hidle : s.stop ≠ .idle)
    (hm : s.mutex = some (.push p)) : Progress s := by
  -- a step of this push that leaves it nearer to the end
  have hnext : ∀ s', s.pushNext p = some s' →
      holderRank s'.mutex s'.push < (s.push p).rank → Progress s := by
    intro s' hstep hrank
    obtain ⟨-, -, -, hctrl, hstop, htable⟩ := pushNext_frame hstep
    refine ⟨.pushNext p, s', rfl, hstep, trivial, by rw [hstop]; exact hidle, ?_⟩
    have hholder : holderRank s.mutex s.push = (s.push p).rank := by rw [hm]; rfl
    unfold ConnState.rank
    rw [hctrl, hstop, htable, hholder]
    omega
  rcases hp : s.push p with _ | rest | ⟨fd, rest⟩ | _
  · have hin := (hinv.held _).mp hm
    simp [Inside, hp, PushFramePc.inside] at hin
  · rcases hw : s.connFdWrite with _ | fd
    · refine hnext _ (by rw [ConnState.pushNext, hp, hw]) ?_
      simp [hm, hp, holderRank, PushFramePc.rank]
    · refine hnext _ (by rw [ConnState.pushNext, hp, hw]) ?_
      simp [hm, hp, holderRank, PushFramePc.rank]
  · obtain ⟨-, c, hopen⟩ := hinv.serves (hinv.writing p fd rest hp)
    by_cases h0 : rest.left = 0
    · refine hnext { s with push := Function.update s.push p .unlocking }
        (by simp only [ConnState.pushNext, hp, h0, if_true]) ?_
      simp [hm, hp, holderRank, PushFramePc.rank]
    by_cases hfails : writeFails (s.table fd) = true
    · refine hnext { s with
        push := Function.update s.push p .unlocking, log := s.log ++ [.pushWrite fd] }
        (by simp only [ConnState.pushNext, hp, h0, if_false, hfails, if_true]) ?_
      simp [hm, hp, holderRank, PushFramePc.rank]
    · -- the whole of the buffer it is at
      have hlive : c.shut = false ∧ c.gone = false := by
        simpa [hopen, writeFails] using hfails
      have hleft : rest.left ≤ c.room := by
        rcases hroom p fd rest c (by rw [hp]; rfl) hopen with hs | hg | hle
        · exact absurd hs (by simp [hlive])
        · exact absurd hg (by simp [hlive])
        · exact hle
      have hbuf := Rest.buf_pos h0
      have hbufLe := rest.buf_le_left
      have hwrite : connStep s (.pushWrite p rest.buf) = some
          { s.setDesc fd (some (.conn { c with room := c.room - rest.buf })) with
            push := Function.update s.push p (.writing fd (rest.write rest.buf))
            log := s.log ++ [.pushWrite fd] } := by
        have hk : c.shut = false ∧ c.gone = false ∧ rest.buf ≤ c.room :=
          ⟨hlive.1, hlive.2, by omega⟩
        simp only [connStep, hp, hbuf, le_refl, and_self, if_true, hopen, Option.bind_some,
          Desc.write, hk, Option.map_some]
      refine ⟨_, _, rfl, hwrite, trivial, hidle, ?_⟩
      have hunread := unread_setDesc s.ctrl s.table fd
        (some (.conn { c with room := c.room - rest.buf })) (by simp [hopen, inboxLen])
      simp only [ConnState.rank, ConnState.setDesc, hm, holderRank, Function.update_self, hp,
        PushFramePc.rank, Rest.left_write (le_refl _)]
      omega
  · refine hnext _ (by rw [ConnState.pushNext, hp]) ?_
    simp [hp, holderRank, PushFramePc.rank]

theorem progress_stopNext (s' : ConnState P) (hstep : s.stopNext = some s')
    (hidle : s'.stop ≠ .idle) (hrank : s'.stop.rank < s.stop.rank) (hctrl : s'.ctrl = s.ctrl)
    (hunread : unread s'.ctrl s'.table ≤ unread s.ctrl s.table)
    (hholder : holderRank s'.mutex s'.push ≤ holderRank s.mutex s.push) : Progress s := by
  refine ⟨.stopNext, s', rfl, hstep, trivial, hidle, ?_⟩
  unfold ConnState.rank
  rw [hctrl] at hunread ⊢
  omega

/-- `stop()` waits only for the mutex and for the control thread. -/
theorem progress_stop (hinv : s.Inv) (hst : s.stop ≠ .idle) (hret : s.stop ≠ .returned)
    (hmutex : s.stop = .cleared → s.mutex = none) (hjoin : s.stop = .joining → s.ctrl = .exited) :
    Progress s := by
  rcases hs : s.stop with _ | _ | _ | fd | _ | _ | _ | _ | _
  · exact absurd hs hst
  -- one bullet for each place of `stop()`, in the order it passes them
  · have hm := hmutex hs
    refine progress_stopNext { s with mutex := some .stop, stop := .locked }
      (by simp [ConnState.stopNext, hs, hm]) (by simp) (by simp [hs, StopPc.rank]) rfl
      (le_refl _) ?_
    simp [hm, holderRank]
  · rcases hw : s.connFdWrite with _ | fd
    · exact progress_stopNext { s with stop := .unlocking } (by simp [ConnState.stopNext, hs, hw])
        (by simp) (by simp [hs, StopPc.rank]) rfl (le_refl _) (le_refl _)
    · exact progress_stopNext { s with stop := .shutting fd } (by simp [ConnState.stopNext, hs, hw])
        (by simp) (by simp [hs, StopPc.rank]) rfl (le_refl _) (le_refl _)
  · obtain ⟨-, c, hopen⟩ := hinv.serves (hinv.shutting fd hs)
    exact progress_stopNext { s.setDesc fd ((s.table fd).map Desc.shutdown) with
        stop := .unlocking, log := s.log ++ [.stopShutdown fd] }
      (by simp [ConnState.stopNext, hs]) (by simp) (by simp [hs, StopPc.rank]) rfl
      (unread_setDesc _ _ _ _ (by simp [hopen, Desc.shutdown, inboxLen])) (le_refl _)
  · exact progress_stopNext { s with mutex := none, stop := .shutListener }
      (by simp [ConnState.stopNext, hs]) (by simp) (by simp [hs, StopPc.rank]) rfl (le_refl _)
      (by simp [holderRank])
  · rcases hl : s.listenFd with _ | l
    · exact progress_stopNext { s with stop := .joining } (by simp [ConnState.stopNext, hs, hl])
        (by simp) (by simp [hs, StopPc.rank]) rfl (le_refl _) (le_refl _)
    · obtain ⟨b, hb⟩ := hinv.listener l hl
      exact progress_stopNext { s.setDesc l ((s.table l).map Desc.shutdown) with
          stop := .closeListener }
        (by simp [ConnState.stopNext, hs, hl]) (by simp) (by simp [hs, StopPc.rank]) rfl
        (unread_setDesc _ _ _ _ (by simp [hb, Desc.shutdown, inboxLen])) (le_refl _)
  · rcases hl : s.listenFd with _ | l
    · exact progress_stopNext { s with stop := .joining } (by simp [ConnState.stopNext, hs, hl])
        (by simp) (by simp [hs, StopPc.rank]) rfl (le_refl _) (le_refl _)
    · exact progress_stopNext { s.setDesc l none with listenFd := none, stop := .joining }
        (by simp [ConnState.stopNext, hs, hl]) (by simp) (by simp [hs, StopPc.rank]) rfl
        (unread_setDesc _ _ _ _ (by simp [inboxLen])) (le_refl _)
  -- `thread_.join()`: the control thread has left `run`
  · exact progress_stopNext { s with stop := .returned }
      (by simp [ConnState.stopNext, hs, hjoin hs]) (by simp) (by simp [hs, StopPc.rank]) rfl
      (le_refl _) (le_refl _)
  · exact absurd hs hret

/-- With room for the push in progress, somebody comes nearer to the end. -/
theorem progress_of_hasRoom (hinv : s.Inv) (hstop : s.StopInv) (hroom : s.HasRoom)
    (hidle : s.stop ≠ .idle) (hret : s.stop ≠ .returned) : Progress s := by
  -- whoever holds the mutex moves; if nobody does, `stop()` or the thread it joins
  rcases hm : s.mutex with _ | _ | p | _
  · by_cases hjoin : s.stop = .joining ∧ s.ctrl ≠ .exited
    · exact progress_joining hinv hstop hjoin.1 hm hjoin.2
    · refine progress_stop hinv hidle hret (fun _ => hm) fun hj => ?_
      by_contra hexit
      exact hjoin ⟨hj, hexit⟩
  · exact progress_locked hinv hidle ((hinv.held .ctrl).mp hm)
  · exact progress_push hinv hroom hidle hm
  · have hin : s.stop.inside = true := (hinv.held .stop).mp hm
    refine progress_stop hinv hidle hret (fun hs => ?_) fun hs => ?_
    · simp [hs, StopPc.inside] at hin
    · simp [hs, StopPc.inside] at hin

end Progress

/-! ## `stop()` finishes -/

section Finish

variable {P : Type*}

/-- `stop()` has begun and not returned. -/
def ConnState.StopPending (s : ConnState P) : Prop := s.stop ≠ .idle ∧ s.stop ≠ .returned

theorem trapped_of_not_hasRoom {s : ConnState P} (h : ¬ s.HasRoom) : Trapped s := by
  simp only [ConnState.HasRoom, PushHasRoom, not_forall] at h
  obtain ⟨p, fd, rest, c, howes, hc, hnot⟩ := h
  exact ⟨p, fd, rest, c, howes, hc, hnot⟩

variable [DecidableEq P]

/-- A step of the server's own threads is enabled, and their steps alone let `stop()`
    return. -/
structure StopProceeds (listenFd : Fd) (s : ConnState P) : Prop where
  enabled : ∃ a : ConnAct P, a.isOwn ∧ (connStep s a).isSome
  finishes : (connMachine P listenFd).CanReach (fun a => a.isOwn) (fun t => t.stop = .returned) s

theorem stopProceeds_of_hasRoom {s : ConnState P} (listenFd : Fd) (hinv : s.Inv)
    (hstop : s.StopInv) (hpending : s.StopPending) (hroom : s.HasRoom) :
    StopProceeds listenFd s := by
  have hreach : (connMachine P listenFd).CanReach (fun a => a.isOwn)
      (fun t => t.stop = .returned) s := by
    -- the rank counts the steps left to `stop()`, the control thread and the push inside
    refine Machine.canReach_of_rank
      (I := fun s => s.Inv ∧ s.StopInv ∧ s.HasRoom ∧ s.stop ≠ .idle) ConnState.rank ?_
      ⟨hinv, hstop, hroom, hpending.1⟩
    rintro t ⟨hinv, hstop, hroom, hidle⟩ hret
    obtain ⟨a, t', hown, hstep, hfits, hidle', hrank⟩ :=
      progress_of_hasRoom hinv hstop hroom hidle hret
    exact ⟨a, t', hown, hstep, ⟨inv_connStep hinv hstep, stopInv_connStep hinv hstop hstep,
      hasRoom_connStep hinv hroom hfits hstep, hidle'⟩, hrank⟩
  exact ⟨hreach.enabled hpending.2, hreach⟩

theorem not_canReach_of_trapped {s : ConnState P} (listenFd : Fd) (hinv : s.Inv)
    (hstop : s.StopInv) (htrap : Trapped s) :
    ¬ (connMachine P listenFd).CanReach (fun a => a.isOwn) (fun t => t.stop = .returned) s := by
  refine Machine.not_canReach_of_trap (T := fun s => s.Inv ∧ s.StopInv ∧ Trapped s) ?_ ?_
    ⟨hinv, hstop, htrap⟩
  · -- the push keeps the control thread, and so `stop()`
    rintro t ⟨hinv, hstop, p, fd, rest, c, hstarved⟩ hret
    have hfd := (hinv.of_owes hstarved.owed).2.1
    rw [hinv.fdWrite, hstop.joined hret] at hfd
    exact absurd hfd (by simp [CtrlPc.fdWrite])
  · rintro t a t' ⟨hinv, hstop, htrap⟩ hown hstep
    exact ⟨inv_connStep hinv hstep, stopInv_connStep hinv hstop hstep,
      trapped_connStep hinv htrap hown hstep⟩

/-- In a run whose pushes fit, a `stop()` that has begun can always finish without the
    client; and in any run it can exactly in the states with room for the push in
    progress. -/
theorem stop_finishes_with_room (listenFd : Fd) :
    (∀ (as : List (ConnAct P)) (s : ConnState P),
      (connMachine P listenFd).Reached PushFits as s → s.StopPending → StopProceeds listenFd s) ∧
    ∀ (as : List (ConnAct P)) (s : ConnState P),
      (connMachine P listenFd).Reached Machine.free as s → s.StopPending →
        (StopProceeds listenFd s ↔ s.HasRoom) := by
  -- the runs whose pushes fit, then any run, in both directions
  refine ⟨fun as s h hpending => ?_, fun as s h hpending => ⟨fun hproceeds => ?_, fun hroom => ?_⟩⟩
  · obtain ⟨hinv, hstop⟩ := stopInv_of_connReached h
    exact stopProceeds_of_hasRoom listenFd hinv hstop hpending (hasRoom_of_connReached h)
  · obtain ⟨hinv, hstop⟩ := stopInv_of_connReached h
    by_contra hno
    exact not_canReach_of_trapped listenFd hinv hstop (trapped_of_not_hasRoom hno)
      hproceeds.finishes
  · obtain ⟨hinv, hstop⟩ := stopInv_of_connReached h
    exact stopProceeds_of_hasRoom listenFd hinv hstop hpending hroom

end Finish

/-- `stop()` is called while a push to a client with room for 64 bytes is in its `::write`
    and the control thread waits for that client. -/
def roomySchedule : List (ConnAct Unit) :=
  [.ctrlNext, .ctrlNext, .connect, .accept 5 64, .ctrlNext, .ctrlNext, .ctrlNext, .ctrlNext,
   .pushCall () 1, .pushNext (), .pushWrite () 4, .stopNext]

/-- The same with room for 4 bytes. -/
def stalledSchedule : List (ConnAct Unit) :=
  [.ctrlNext, .ctrlNext, .connect, .accept 5 4, .ctrlNext, .ctrlNext, .ctrlNext, .ctrlNext,
   .pushCall () 1, .pushNext (), .pushWrite () 4, .stopNext]

theorem stop_finishes_roomySchedule :
    ∃ s, (connMachine Unit 3).Reached Machine.free roomySchedule s ∧ s.StopPending ∧
      s.mutex = some (.push ()) ∧ StopProceeds 3 s := by
  have hrun : ((connMachine Unit 3).run (connMachine Unit 3).start roomySchedule).map
      (fun s => (s.mutex, s.push (), s.stop, s.table 5)) =
      some (some (.push ()), .writing 5 ⟨4, 1⟩, .cleared, some (.conn ⟨false, false, [], 60⟩)) := by
    decide
  obtain ⟨s, hs, hview⟩ := Option.map_eq_some_iff.mp hrun
  simp only [Prod.mk.injEq] at hview
  obtain ⟨hm, hp, hst, ht⟩ := hview
  have hreached := Machine.reached_of_run hs
  have hpending : s.StopPending := by simp [ConnState.StopPending, hst]
  refine ⟨s, hreached, hpending, hm,
    ((stop_finishes_with_room 3).2 roomySchedule s hreached hpending).mpr ?_⟩
  rintro ⟨⟩ fd rest c howes hc
  rw [hp] at howes
  obtain ⟨rfl, rfl⟩ := Prod.mk.inj (Option.some.inj howes)
  rw [ht, Option.some.injEq, Desc.conn.injEq] at hc
  subst hc
  exact .inr (.inr (by simp [Rest.left]))

/-- Nobody but the client can move: the push waits for room with the mutex, `stop()` for the
    mutex, the control thread for the client's bytes. -/
theorem stop_stalled_by_push :
    ∃ s, (connMachine Unit 3).Reached Machine.free stalledSchedule s ∧ s.StopPending ∧
      (∀ a : ConnAct Unit, a.isOwn → connStep s a = none) ∧ ¬ StopProceeds 3 s := by
  have hrun : ((connMachine Unit 3).run (connMachine Unit 3).start stalledSchedule).map
      (fun s => (s.mutex, s.ctrl, s.push (), s.stop, s.table 5)) =
      some (some (.push ()), .reading 5 [], .writing 5 ⟨4, 1⟩, .cleared,
        some (.conn ⟨false, false, [], 0⟩)) := by
    decide
  obtain ⟨s, hs, hview⟩ := Option.map_eq_some_iff.mp hrun
  simp only [Prod.mk.injEq] at hview
  obtain ⟨hm, hc, hp, hst, ht⟩ := hview
  -- the control thread is at the start of a header, of which the client has sent nothing
  have hread : readNext [] = .need 8 := rfl
  have hnone : ∀ a : ConnAct Unit, a.isOwn → connStep s a = none := by
    intro a hown
    cases a with
    | ctrlNext => simp [connStep, ConnState.ctrlNext, hc, hread, ht, readFails]
    | accept fd room => simp [connStep, hc]
    | read k =>
        simp only [connStep, hc, hread, ht, Option.bind_some, Desc.read]
        split
        · rw [if_neg (by simp; omega)]
          rfl
        · rfl
    | reply n => simp [connStep, hc]
    | replyWrite k => simp [connStep, hc]
    | pushCall p n => simp [connStep, hm]
    | pushNext p => simp [connStep, ConnState.pushNext, hp, ht, Rest.left, writeFails]
    | pushWrite p k =>
        simp only [connStep, hp, ht, Option.bind_some, Desc.write]
        split
        · rw [if_neg (by simp; omega)]
          rfl
        · rfl
    | stopNext => simp [connStep, ConnState.stopNext, hst, hm]
    | connect => exact absurd hown (by simp [ConnAct.isOwn])
    | send fd bs => exact absurd hown (by simp [ConnAct.isOwn])
    | recv fd k => exact absurd hown (by simp [ConnAct.isOwn])
    | disconnect fd => exact absurd hown (by simp [ConnAct.isOwn])
    | acceptIntr => exact absurd hown (by simp [ConnAct.isOwn])
    | acceptErr => exact absurd hown (by simp [ConnAct.isOwn])
    | openOther fd => exact absurd hown (by simp [ConnAct.isOwn])
    | closeOther fd => exact absurd hown (by simp [ConnAct.isOwn])
  refine ⟨s, Machine.reached_of_run hs, by simp [ConnState.StopPending, hst], hnone, fun h => ?_⟩
  obtain ⟨a, hown, hsome⟩ := h.enabled
  rw [hnone a hown] at hsome
  exact absurd hsome (by simp)

end NomosRt.Control
