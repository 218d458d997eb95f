/-
  NomosRt.Ipc.Outbound

  Everything that writes to a client's socket.

  Any number of threads call `push_frame`, which holds `write_mutex_` for the
  whole of `write_message`.  The control thread, which also owns the connection,
  writes its replies (`msg_repl_eval` in `dispatch_message`, `msg_wasm_hot_swap`
  in `dispatch_extension`) by calling `write_message` itself, without the mutex.

  One action is one `::write`, which moves any number of bytes of the buffer it
  is given: of the header until that is written, then of the payload.  A call
  that moves none is an interrupted one.  A `::write` that fails ends the
  connection, so what the client has then is the stream up to that point.

  The ghost components are `begun`, the frames whose `write_message` was entered
  on this connection, and `done`, those whose last byte was written.
-/

import Mathlib.Data.List.Permutation
import NomosRt.Lib.Machine
import NomosRt.Lib.Mutex
import NomosRt.Ipc.Channel

namespace NomosRt.Ipc

open NomosRt.Lib

/-- A frame to send: its type and payload. -/
abbrev Frame := Byte × List Byte

/-- The length field `write_message` computes for a frame. -/
def Frame.len (f : Frame) : BitVec 32 := BitVec.ofNat 32 f.2.length

/-- The bytes `write_message` writes for a frame. -/
def wire (f : Frame) : List Byte :=
  (sentHeader f.1 (Frame.len f)).image ++ f.2.take (Frame.len f).toNat

/-- A `write_message` under way: what it has written, and what is left of its two
    buffers. -/
structure Sending where
  frame : Frame
  written : List Byte
  hdr : List Byte
  payload : List Byte
  whole : written ++ (hdr ++ payload) = wire frame

namespace Sending

/-- Entering `write_message`. -/
def begin (f : Frame) : Sending where
  frame := f
  written := []
  hdr := (sentHeader f.1 (Frame.len f)).image
  payload := f.2.take (Frame.len f).toNat
  whole := rfl

/-- Both buffers are written. -/
def finished (w : Sending) : Bool := w.hdr.isEmpty && w.payload.isEmpty

/-- The bytes one `::write` moves. -/
def chunk (w : Sending) (k : Nat) : List Byte :=
  if w.hdr.isEmpty then w.payload.take k else w.hdr.take k

/-- The `write_message` after one `::write`. -/
def write (w : Sending) (k : Nat) : Sending where
  frame := w.frame
  written := w.written ++ w.chunk k
  hdr := w.hdr.drop k
  payload := if w.hdr.isEmpty then w.payload.drop k else w.payload
  whole := by
    rw [← w.whole, chunk]
    split
    · rename_i h
      rw [List.isEmpty_iff.mp h]
      simp
    · rw [List.append_assoc, ← List.append_assoc (w.hdr.take k), List.take_append_drop]

/-- What is on the wire of a frame that is not complete. -/
def partBytes (w : Sending) : List Byte := if w.finished then [] else w.written

/-- The frame, while it is not complete. -/
def pending (w : Sending) : List Frame := if w.finished then [] else [w.frame]

@[simp] theorem write_frame (w : Sending) (k : Nat) : (w.write k).frame = w.frame := rfl

@[simp] theorem write_written (w : Sending) (k : Nat) :
    (w.write k).written = w.written ++ w.chunk k := rfl

/-- A finished `write_message` has written exactly its frame. -/
theorem written_of_finished {w : Sending} (h : w.finished = true) : w.written = wire w.frame := by
  rw [finished, Bool.and_eq_true, List.isEmpty_iff, List.isEmpty_iff] at h
  rw [← w.whole, h.1, h.2, List.append_nil, List.append_nil]

/-- The bytes written are always the front of the frame. -/
theorem written_prefix (w : Sending) : w.written <+: wire w.frame :=
  ⟨w.hdr ++ w.payload, w.whole⟩

@[simp] theorem begin_finished (f : Frame) : (begin f).finished = false := rfl

@[simp] theorem partBytes_begin (f : Frame) : (begin f).partBytes = [] := by
  rw [partBytes, begin_finished]
  rfl

@[simp] theorem pending_begin (f : Frame) : (begin f).pending = [f] := by
  rw [pending, begin_finished]
  rfl

end Sending

/-- What an optional `write_message` has part-way on the wire. -/
def partBytes (o : Option Sending) : List Byte := (o.map Sending.partBytes).getD []

/-- The frame of an optional `write_message`, while it is not complete. -/
def pending (o : Option Sending) : List Frame := (o.map Sending.pending).getD []

@[simp] theorem partBytes_none : partBytes none = [] := rfl

@[simp] theorem partBytes_some (w : Sending) : partBytes (some w) = w.partBytes := rfl

@[simp] theorem pending_none : pending none = [] := rfl

@[simp] theorem pending_some (w : Sending) : pending (some w) = w.pending := rfl

/-! ## The machine -/

/-- Where a thread stands inside `push_frame`. -/
inductive PushPc where
  | idle
  /-- `write_mutex_` taken. -/
  | locked (f : Frame)
  /-- `conn_fd_write_` found open; inside `write_message`. -/
  | sending (w : Sending)

/-- The `write_message` a `push_frame` is in. -/
def PushPc.sending? : PushPc → Option Sending
  | .sending w => some w
  | _ => none

/-- The connection, the threads' positions, and the ghost record. -/
structure OutState (P : Type*) where
  /-- `conn_fd_write_ >= 0`. -/
  connected : Bool
  /-- The holder of `write_mutex_`. -/
  mutex : Option P
  push : P → PushPc
  /-- The reply the control thread is writing. -/
  reply : Option Sending
  stream : List Byte
  begun : List Frame
  done : List Frame

/-- The steps of the threads. -/
inductive OutAct (P : Type*) where
  | connect
  | disconnect
  | pushLock (p : P) (f : Frame)
  | pushTest (p : P)
  | pushWrite (p : P) (k : Nat)
  | pushUnlock (p : P)
  | replyBegin (f : Frame)
  | replyWrite (k : Nat)
  | replyEnd

section Steps

variable {P : Type*}

/-- One `::write` of `w`: the stream grows by the bytes moved. -/
def OutState.emit (s : OutState P) (w : Sending) (k : Nat) : OutState P :=
  { s with
    stream := s.stream ++ w.chunk k
    done := if (w.write k).finished then s.done ++ [w.frame] else s.done }

/-- The `write_message` of the thread that holds the mutex. -/
def OutState.pushing (s : OutState P) : Option Sending :=
  s.mutex.bind fun p => (s.push p).sending?

variable [DecidableEq P]

/-- `push` with the position of `p` replaced. -/
def OutState.setPush (s : OutState P) (p : P) (pc : PushPc) : OutState P :=
  { s with push := Function.update s.push p pc }

/-- One step. -/
def outStep (s : OutState P) : OutAct P → Option (OutState P)
  | .connect =>
      -- `handle_connection` publishes the new descriptor under the mutex
      if s.mutex = none ∧ s.reply.isNone ∧ s.connected = false then
        some { s with connected := true, stream := [], begun := [], done := [] }
      else none
  | .disconnect =>
      if s.mutex = none ∧ s.reply.isNone ∧ s.connected = true then
        some { s with connected := false }
      else none
  | .pushLock p f =>
      match s.push p with
      | .idle =>
          if s.mutex = none then some { s.setPush p (.locked f) with mutex := some p } else none
      | _ => none
  | .pushTest p =>
      match s.push p with
      | .locked f =>
          -- without a client `push_frame` returns and drops the frame
          if s.connected then
            some { s.setPush p (.sending (.begin f)) with begun := s.begun ++ [f] }
          else some { s.setPush p .idle with mutex := none }
      | _ => none
  | .pushWrite p k =>
      match s.push p with
      | .sending w =>
          if w.finished then none else some ((s.emit w k).setPush p (.sending (w.write k)))
      | _ => none
  | .pushUnlock p =>
      match s.push p with
      | .sending w =>
          -- the lock guard goes out of scope when `write_message` has returned
          if w.finished then some { s.setPush p .idle with mutex := none } else none
      | _ => none
  | .replyBegin f =>
      -- only inside `dispatch_message`, so on an open connection
      if s.reply.isNone ∧ s.connected = true then
        some { s with reply := some (.begin f), begun := s.begun ++ [f] }
      else none
  | .replyWrite k =>
      match s.reply with
      | some w =>
          -- no test of the mutex: the reply is written whoever holds it
          if w.finished then none else some { s.emit w k with reply := some (w.write k) }
      | none => none
  | .replyEnd =>
      match s.reply with
      | some w => if w.finished then some { s with reply := none } else none
      | none => none

/-- The threads of a control thread that has not accepted a client yet. -/
def outboundMachine (P : Type*) [DecidableEq P] : Machine (OutState P) (OutAct P) where
  start := ⟨false, none, fun _ => .idle, none, [], [], []⟩
  step := outStep

/-- A `::write` of one path is not made while the other path's frame is part-way
    on the wire. -/
def RepliesApart (s : OutState P) : OutAct P → Prop
  | .pushWrite _ _ => partBytes s.reply = []
  | .replyWrite _ => partBytes s.pushing = []
  | _ => True

instance (s : OutState P) : (a : OutAct P) → Decidable (RepliesApart s a)
  | .pushWrite _ _ => inferInstanceAs (Decidable (partBytes s.reply = []))
  | .replyWrite _ => inferInstanceAs (Decidable (partBytes s.pushing = []))
  | .connect | .disconnect | .pushLock _ _ | .pushTest _ | .pushUnlock _ | .replyBegin _
  | .replyEnd => .isTrue trivial

/-! ## The invariant -/

/-- Only the mutex holder is inside `push_frame`; the stream is the complete
    frames followed by what is part-way, which belongs to one writer; and every
    frame begun is complete or still under way. -/
structure OutInv (s : OutState P) : Prop where
  holder : Guarded (· = PushPc.idle) s.mutex s.push
  stream_eq : s.stream = (s.done.map wire).flatten ++ (partBytes s.pushing ++ partBytes s.reply)
  apart : partBytes s.pushing = [] ∨ partBytes s.reply = []
  begun_perm : s.begun.Perm (s.done ++ (pending s.pushing ++ pending s.reply))

/-- The bytes after one `::write` of an unfinished frame. -/
theorem flatten_emit {w : Sending} (hw : w.finished = false) (done : List Frame) (k : Nat) :
    (done.map wire).flatten ++ w.partBytes ++ w.chunk k =
      ((if (w.write k).finished then done ++ [w.frame] else done).map wire).flatten ++
        (w.write k).partBytes := by
  have hpart : w.partBytes = w.written := by simp [Sending.partBytes, hw]
  rw [hpart, List.append_assoc, ← Sending.write_written]
  by_cases hfin : (w.write k).finished = true
  · rw [if_pos hfin, Sending.written_of_finished hfin, Sending.write_frame]
    simp [Sending.partBytes, hfin]
  · rw [if_neg hfin]
    simp [Sending.partBytes, hfin]

/-- The frames accounted for after one `::write` of an unfinished frame. -/
theorem pending_emit {w : Sending} (hw : w.finished = false) (done : List Frame) (k : Nat) :
    (if (w.write k).finished then done ++ [w.frame] else done) ++ (w.write k).pending =
      done ++ w.pending := by
  have hpend : w.pending = [w.frame] := by simp [Sending.pending, hw]
  rw [hpend]
  by_cases hfin : (w.write k).finished = true
  · rw [if_pos hfin]
    simp [Sending.pending, hfin]
  · rw [if_neg hfin]
    simp [Sending.pending, hfin]

/-- A finished `write_message` has nothing part-way and nothing pending. -/
theorem partBytes_finished {w : Sending} (hw : w.finished = true) :
    w.partBytes = [] ∧ w.pending = [] := by
  simp [Sending.partBytes, Sending.pending, hw]

variable {s s' : OutState P}

omit [DecidableEq P] in
theorem OutInv.holder_of_eq (h : OutInv s) {p : P} {pc : PushPc} (hpc : s.push p = pc)
    (hne : pc ≠ .idle) : s.mutex = some p :=
  h.holder p (by rw [hpc]; exact hne)

omit [DecidableEq P] in
/-- A step that writes nothing and begins nothing keeps the invariant when both
    writers still owe the same. -/
theorem OutInv.of_owed (h : OutInv s) (hholder : Guarded (· = PushPc.idle) s'.mutex s'.push)
    (hsame : s'.stream = s.stream ∧ s'.begun = s.begun ∧ s'.done = s.done)
    (hpush : partBytes s'.pushing = partBytes s.pushing ∧ pending s'.pushing = pending s.pushing)
    (hreply : partBytes s'.reply = partBytes s.reply ∧ pending s'.reply = pending s.reply) :
    OutInv s' := by
  obtain ⟨hstream, hbegun, hdone⟩ := hsame
  refine ⟨hholder, ?_, ?_, ?_⟩
  · rw [hstream, hdone, hpush.1, hreply.1]
    exact h.stream_eq
  · rw [hpush.1, hreply.1]
    exact h.apart
  · rw [hbegun, hdone, hpush.2, hreply.2]
    exact h.begun_perm

theorem inv_pushLock {p : P} {f : Frame} (h : OutInv s)
    (hs : outStep s (.pushLock p f) = some s') : OutInv s' := by
  simp only [outStep] at hs
  split at hs
  · split at hs
    · rename_i hm
      cases hs
      -- the mutex was free, and its new holder has not begun a frame
      have hpush : s.pushing = none := by rw [OutState.pushing, hm]; rfl
      refine h.of_owed (h.holder.acquire hm p _) ⟨rfl, rfl, rfl⟩ ?_ ⟨rfl, rfl⟩
      rw [hpush]
      simp [OutState.pushing, OutState.setPush, PushPc.sending?]
    · cases hs
  · cases hs

/-- The mutex holder leaves `push_frame`. -/
theorem inv_release {p : P} (h : OutInv s) (hm : s.mutex = some p)
    (howed : partBytes s.pushing = [] ∧ pending s.pushing = []) :
    OutInv { s.setPush p .idle with mutex := none } :=
  h.of_owed (h.holder.release hm rfl) ⟨rfl, rfl, rfl⟩ ⟨howed.1.symm, howed.2.symm⟩ ⟨rfl, rfl⟩

/-- Beginning a frame adds it to what is owed. -/
theorem begun_perm_snoc {begun done rest : List Frame} (f : Frame)
    (h : begun.Perm (done ++ rest)) : (begun ++ [f]).Perm (done ++ ([f] ++ rest)) := by
  have hswap : (done ++ (rest ++ [f])).Perm (done ++ ([f] ++ rest)) :=
    List.Perm.append_left _ List.perm_append_comm
  refine List.Perm.trans ?_ hswap
  rw [← List.append_assoc]
  exact List.Perm.append_right _ h

theorem inv_pushTest {p : P} (h : OutInv s)
    (hs : outStep s (.pushTest p) = some s') : OutInv s' := by
  simp only [outStep] at hs
  split at hs
  · rename_i f hpc
    have hm := h.holder_of_eq hpc (by simp)
    have hpush : s.pushing = none := by simp [OutState.pushing, hm, hpc, PushPc.sending?]
    split at hs
    · cases hs
      -- from here on the frame is owed, with no byte of it on the wire
      have hpush' : OutState.pushing
          { s.setPush p (.sending (.begin f)) with begun := s.begun ++ [f] } =
            some (.begin f) := by
        simp [OutState.pushing, OutState.setPush, hm, PushPc.sending?]
      have hstream := h.stream_eq
      have hperm := h.begun_perm
      rw [hpush] at hstream hperm
      refine ⟨h.holder.move hm _, ?_, ?_, ?_⟩
      · rw [hpush', partBytes_some, Sending.partBytes_begin]
        exact hstream
      · rw [hpush', partBytes_some, Sending.partBytes_begin]
        exact .inl rfl
      · rw [hpush', pending_some, Sending.pending_begin]
        exact begun_perm_snoc f hperm
    · -- no connection: the holder leaves without having begun
      cases hs
      apply inv_release h hm
      rw [hpush]
      exact ⟨rfl, rfl⟩
  · cases hs

/-- The holder's next `::write`: the reply has nothing part-way, so the bytes
    continue the holder's own frame. -/
theorem inv_pushWrite {p : P} {k : Nat} (h : OutInv s) (hG : RepliesApart s (.pushWrite p k))
    (hs : outStep s (.pushWrite p k) = some s') : OutInv s' := by
  have hreply : partBytes s.reply = [] := hG
  simp only [outStep] at hs
  split at hs
  · rename_i w hpc
    have hm := h.holder_of_eq hpc (by simp)
    have hpush : s.pushing = some w := by simp [OutState.pushing, hm, hpc, PushPc.sending?]
    split at hs
    · cases hs
    · rename_i hunfin
      have hw : w.finished = false := Bool.eq_false_iff.mpr hunfin
      cases hs
      have hpush' : ((s.emit w k).setPush p (.sending (w.write k))).pushing =
          some (w.write k) := by
        simp [OutState.pushing, OutState.setPush, OutState.emit, hm, PushPc.sending?]
      -- the part-way bytes at the stream's end are the holder's alone
      have hstream := h.stream_eq
      have hperm := h.begun_perm
      rw [hpush, partBytes_some, hreply, List.append_nil] at hstream
      rw [hpush, pending_some, ← List.append_assoc, ← pending_emit hw s.done k,
        List.append_assoc] at hperm
      refine ⟨h.holder.move hm _, ?_, ?_, ?_⟩
      · show s.stream ++ w.chunk k = _ ++ (_ ++ partBytes s.reply)
        rw [hpush', partBytes_some, hreply, List.append_nil, hstream]
        exact flatten_emit hw s.done k
      · exact .inr hreply
      · rw [hpush', pending_some]
        exact hperm
  · cases hs

theorem inv_pushUnlock {p : P} (h : OutInv s)
    (hs : outStep s (.pushUnlock p) = some s') : OutInv s' := by
  simp only [outStep] at hs
  split at hs
  · rename_i w hpc
    have hm := h.holder_of_eq hpc (by simp)
    split at hs
    · rename_i hfin
      cases hs
      apply inv_release h hm
      have hpush : s.pushing = some w := by simp [OutState.pushing, hm, hpc, PushPc.sending?]
      rw [hpush]
      exact partBytes_finished hfin
    · cases hs
  · cases hs

theorem inv_replyBegin {f : Frame} (h : OutInv s)
    (hs : outStep s (.replyBegin f) = some s') : OutInv s' := by
  simp only [outStep] at hs
  split at hs
  · rename_i hready
    cases hs
    have hnone : s.reply = none := Option.isNone_iff_eq_none.mp hready.1
    have hstream := h.stream_eq
    have hperm := h.begun_perm
    rw [hnone] at hstream hperm
    refine ⟨h.holder, ?_, ?_, ?_⟩
    · -- the mutex holder may be part-way here; only a `::write` has to wait
      show s.stream = _ ++ (partBytes s.pushing ++ partBytes (some (.begin f)))
      rw [partBytes_some, Sending.partBytes_begin]
      exact hstream
    · exact .inr (Sending.partBytes_begin f)
    · show (s.begun ++ [f]).Perm (s.done ++ (pending s.pushing ++ pending (some (.begin f))))
      rw [pending_some, Sending.pending_begin, ← List.append_assoc]
      rw [pending_none, List.append_nil] at hperm
      exact List.Perm.append_right _ hperm
  · cases hs

/-- The reply's next `::write`: the mutex holder has nothing part-way. -/
theorem inv_replyWrite {k : Nat} (h : OutInv s) (hG : RepliesApart s (.replyWrite k))
    (hs : outStep s (.replyWrite k) = some s') : OutInv s' := by
  have hpush : partBytes s.pushing = [] := hG
  simp only [outStep] at hs
  split at hs
  · rename_i w hreply
    split at hs
    · cases hs
    · rename_i hunfin
      have hw : w.finished = false := Bool.eq_false_iff.mpr hunfin
      cases hs
      have hstream := h.stream_eq
      have hperm := h.begun_perm
      rw [hreply, partBytes_some, hpush, List.nil_append] at hstream
      rw [hreply, pending_some] at hperm
      refine ⟨h.holder, ?_, ?_, ?_⟩
      · show s.stream ++ w.chunk k = _ ++ (partBytes s.pushing ++ (w.write k).partBytes)
        rw [hpush, List.nil_append, hstream]
        exact flatten_emit hw s.done k
      · exact .inl hpush
      · show s.begun.Perm (_ ++ (pending s.pushing ++ (w.write k).pending))
        -- move the reply's own entry next to `done`, where the `::write` completes it
        refine hperm.trans ?_
        have hcomm : ∀ a b c : List Frame, (a ++ (b ++ c)).Perm (a ++ c ++ b) := by
          intro a b c
          rw [List.append_assoc]
          exact List.Perm.append_left _ List.perm_append_comm
        refine (hcomm _ _ _).trans ?_
        rw [← pending_emit hw s.done k]
        exact (hcomm _ _ _).symm
  · cases hs

theorem inv_replyEnd (h : OutInv s) (hs : outStep s .replyEnd = some s') : OutInv s' := by
  simp only [outStep] at hs
  split at hs
  · rename_i w hreply
    split at hs
    · rename_i hfin
      cases hs
      refine h.of_owed h.holder ⟨rfl, rfl, rfl⟩ ⟨rfl, rfl⟩ ?_
      rw [hreply]
      obtain ⟨hpart, hpend⟩ := partBytes_finished hfin
      exact ⟨hpart.symm, hpend.symm⟩
    · cases hs
  · cases hs

theorem inv_connect (h : OutInv s) (hs : outStep s .connect = some s') : OutInv s' := by
  simp only [outStep] at hs
  split at hs
  · rename_i hready
    cases hs
    obtain ⟨hm, hreply, -⟩ := hready
    rw [Option.isNone_iff_eq_none] at hreply
    have hpush : s.pushing = none := by rw [OutState.pushing, hm]; rfl
    -- a new connection starts an empty stream with an empty record
    refine ⟨h.holder, ?_, .inr (by rw [hreply]; rfl), ?_⟩
    · show [] = [] ++ (partBytes s.pushing ++ partBytes s.reply)
      rw [hpush, hreply]
      rfl
    · show List.Perm [] ([] ++ (pending s.pushing ++ pending s.reply))
      rw [hpush, hreply]
      exact List.Perm.refl _
  · cases hs

theorem inv_disconnect (h : OutInv s) (hs : outStep s .disconnect = some s') : OutInv s' := by
  simp only [outStep] at hs
  split at hs
  · cases hs
    exact h.of_owed h.holder ⟨rfl, rfl, rfl⟩ ⟨rfl, rfl⟩ ⟨rfl, rfl⟩
  · cases hs

/-- Every step that keeps the two paths apart keeps the invariant. -/
theorem outInv_step {a : OutAct P} (h : OutInv s) (hG : RepliesApart s a)
    (hs : outStep s a = some s') : OutInv s' := by
  cases a with
  | connect => exact inv_connect h hs
  | disconnect => exact inv_disconnect h hs
  | pushLock p f => exact inv_pushLock h hs
  | pushTest p => exact inv_pushTest h hs
  | pushWrite p k => exact inv_pushWrite h hG hs
  | pushUnlock p => exact inv_pushUnlock h hs
  | replyBegin f => exact inv_replyBegin h hs
  | replyWrite k => exact inv_replyWrite h hG hs
  | replyEnd => exact inv_replyEnd h hs

theorem outInv_start : OutInv (outboundMachine P).start := by
  refine ⟨?_, rfl, .inl rfl, List.Perm.refl _⟩
  intro p hp
  exact absurd rfl hp

theorem outInv_of_reached {as : List (OutAct P)}
    (h : (outboundMachine P).Reached RepliesApart as s) : OutInv s :=
  h.invariant outInv_start fun _ _ _ hI hG hs => outInv_step hI hG hs

end Steps

/-! ## What the client receives -/

section Client

variable {P : Type*}

/-- No `write_message` is under way on the connection. -/
def OutState.Quiet (s : OutState P) : Prop := s.mutex = none ∧ s.reply.isNone = true

/-- The stream is the frames begun, whole, in some order. -/
def OutState.Unmixed (s : OutState P) : Prop :=
  ∃ order : List Frame, order.Perm s.begun ∧ s.stream = (order.map wire).flatten

/-- Whatever the kernel does, the client reads exactly the frames begun, in some
    order, and then end of file. -/
def OutState.Recovered (s : OutState P) : Prop :=
  ∃ order : List Frame, order.Perm s.begun ∧ ∀ (reads : List SysResult) (errno : Errno),
    Benign reads → readAll (order.length + 1) ⟨reads, s.stream, errno⟩ =
      order.map (fun f => .ok (frameMessage f)) ++ [.error .eof]

/-- A payload that fits is sent whole. -/
theorem wire_eq_frameBytes {f : Frame} (h : f.2.length ≤ maxPayloadBytes) :
    wire f = frameBytes f.1 f.2 := by
  rw [wire, frameBytes, Frame.len, toNat_payloadLen h, List.take_length]

theorem map_wire_eq {fs : List Frame} (h : ∀ f ∈ fs, f.2.length ≤ maxPayloadBytes) :
    fs.map wire = fs.map fun f => frameBytes f.1 f.2 :=
  List.map_congr_left fun f hf => wire_eq_frameBytes (h f hf)

variable {s : OutState P}

theorem OutInv.quiet (h : OutInv s) (hq : s.Quiet) :
    s.done.Perm s.begun ∧ s.stream = (s.done.map wire).flatten := by
  obtain ⟨hm, hreply⟩ := hq
  rw [Option.isNone_iff_eq_none] at hreply
  have hpush : s.pushing = none := by rw [OutState.pushing, hm]; rfl
  have hstream := h.stream_eq
  have hperm := h.begun_perm
  rw [hpush, hreply] at hstream hperm
  simp only [partBytes_none, pending_none, List.append_nil] at hstream hperm
  exact ⟨hperm.symm, hstream⟩

/-- What follows the complete frames is the front of one frame under way. -/
theorem OutInv.tail (h : OutInv s) :
    ∃ tail, s.stream = (s.done.map wire).flatten ++ tail ∧
      (tail = [] ∨ ∃ w : Sending, (s.pushing = some w ∨ s.reply = some w) ∧
        tail <+: wire w.frame) := by
  have hfront : ∀ o : Option Sending, partBytes o = [] ∨
      ∃ w, o = some w ∧ partBytes o <+: wire w.frame := by
    intro o
    rcases o with - | w
    · exact .inl rfl
    · rw [partBytes_some, Sending.partBytes]
      split
      · exact .inl rfl
      · exact .inr ⟨w, rfl, w.written_prefix⟩
  -- one of the two writers has nothing part-way, so the tail is the other's
  rcases h.apart with hp | hr
  · refine ⟨partBytes s.reply, ?_, ?_⟩
    · rw [h.stream_eq, hp, List.nil_append]
    · rcases hfront s.reply with hnil | ⟨w, hw, hpre⟩
      · exact .inl hnil
      · exact .inr ⟨w, .inr hw, hpre⟩
  · refine ⟨partBytes s.pushing, ?_, ?_⟩
    · rw [h.stream_eq, hr, List.append_nil]
    · rcases hfront s.pushing with hnil | ⟨w, hw, hpre⟩
      · exact .inl hnil
      · exact .inr ⟨w, .inl hw, hpre⟩

/-- In a run that keeps pushed frames and replies apart, the stream is at every
    moment whole frames followed by the front of at most one more; when no
    `write_message` is under way it is the frames begun, in some order, and if
    their payloads fit the client reads back exactly these. -/
theorem outbound_frames_unmixed [DecidableEq P] (as : List (OutAct P)) (s : OutState P)
    (h : (outboundMachine P).Reached RepliesApart as s) :
    (∃ tail, s.stream = (s.done.map wire).flatten ++ tail ∧
      (tail = [] ∨ ∃ w : Sending, (s.pushing = some w ∨ s.reply = some w) ∧
        tail <+: wire w.frame)) ∧
    (s.Quiet → s.Unmixed) ∧
    (s.Quiet → (∀ f ∈ s.begun, f.2.length ≤ maxPayloadBytes) → s.Recovered) := by
  have hI := outInv_of_reached h
  refine ⟨hI.tail, ?_, ?_⟩
  · intro hq
    obtain ⟨hperm, hstream⟩ := hI.quiet hq
    exact ⟨s.done, hperm, hstream⟩
  · intro hq hfit
    obtain ⟨hperm, hstream⟩ := hI.quiet hq
    have hfit' : ∀ f ∈ s.done, f.2.length ≤ maxPayloadBytes :=
      fun f hf => hfit f (hperm.mem_iff.mp hf)
    refine ⟨s.done, hperm, ?_⟩
    intro reads errno hb
    rw [hstream, map_wire_eq hfit']
    exact readAll_frames hfit' hb errno

end Client

/-- A pushed tick frame and an eval reply, the reply begun while the mutex is
    still held. -/
def apartSchedule : List (OutAct Unit) :=
  [.connect, .pushLock () (0x50, [1]), .pushTest (), .replyBegin (0x55, [2]), .pushWrite () 8,
   .pushWrite () 0, .pushWrite () 1, .replyWrite 5, .pushUnlock (), .replyWrite 9,
   .replyWrite 1, .replyEnd]

theorem outbound_frames_apartSchedule :
    ∃ s, (outboundMachine Unit).Reached RepliesApart apartSchedule s ∧
      s.begun = [(0x50, [1]), (0x55, [2])] ∧ s.Unmixed ∧ s.Recovered := by
  have hrun : ((outboundMachine Unit).runIf RepliesApart (outboundMachine Unit).start
      apartSchedule).map (fun s => (s.mutex, s.reply.isNone, s.begun)) =
        some (none, true, [(0x50, [1]), (0x55, [2])]) := by decide
  obtain ⟨s, hs, hview⟩ := Option.map_eq_some_iff.mp hrun
  simp only [Prod.mk.injEq] at hview
  obtain ⟨hm, hreply, hbegun⟩ := hview
  have hreached := Machine.reached_of_runIf hs
  obtain ⟨-, hunmixed, hrecovered⟩ := outbound_frames_unmixed apartSchedule s hreached
  exact ⟨s, hreached, hbegun, hunmixed ⟨hm, hreply⟩,
    hrecovered ⟨hm, hreply⟩ (by rw [hbegun]; decide)⟩

/-- The reply is written between the header and the payload of the pushed frame. -/
def mixedSchedule : List (OutAct Unit) :=
  [.connect, .pushLock () (0x50, [1]), .pushTest (), .pushWrite () 8, .replyBegin (0x55, [2]),
   .replyWrite 8, .replyWrite 1, .replyEnd, .pushWrite () 1, .pushUnlock ()]

/-- The reply does not take `write_mutex_`, so it can split a pushed frame: the
    stream is not the two frames in either order, and the client does not read
    the two frames. -/
theorem outbound_frames_mixed :
    ∃ s, (outboundMachine Unit).Reached Machine.free mixedSchedule s ∧ s.Quiet ∧
      ¬ s.Unmixed ∧ ¬ s.Recovered := by
  have hrun : ((outboundMachine Unit).run (outboundMachine Unit).start mixedSchedule).map
      (fun s => (s.mutex, s.reply.isNone, s.begun)) =
        some (none, true, [(0x50, [1]), (0x55, [2])]) := by decide
  have hbytes : ((outboundMachine Unit).run (outboundMachine Unit).start mixedSchedule).map
      (fun s => s.stream) =
        some [0, 0, 0, 1, 0x50, 0, 0, 0, 0, 0, 0, 1, 0x55, 0, 0, 0, 2, 1] := by decide
  -- header of the push, the whole reply, then the pushed payload byte
  obtain ⟨s, hs, hview⟩ := Option.map_eq_some_iff.mp hrun
  rw [hs, Option.map_some, Option.some.injEq] at hbytes
  simp only [Prod.mk.injEq] at hview
  obtain ⟨hm, hreply, hbegun⟩ := hview
  refine ⟨s, Machine.reached_of_run hs, ⟨hm, hreply⟩, ?_, ?_⟩
  · rintro ⟨order, hperm, heq⟩
    rw [hbegun, List.perm_pair] at hperm
    rw [hbytes] at heq
    rcases hperm with rfl | rfl
    · exact absurd heq (by decide)
    · exact absurd heq (by decide)
  · rintro ⟨order, hperm, hread⟩
    have hread := hread [] .clear (by decide)
    rw [hbegun, List.perm_pair] at hperm
    rw [hbytes] at hread
    -- the first message already has the wrong payload
    rcases hperm with rfl | rfl
    · exact absurd (congrArg List.head? hread) (by decide)
    · exact absurd (congrArg List.head? hread) (by decide)

end NomosRt.Ipc
