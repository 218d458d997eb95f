/-
  NomosRt.InputBuffer

  `input_event_buffer`: the events a plugin is given for one audio block.

  A block is a `clear()`, a `drain(q)` for each of some queues, and the plugin's
  calls of `size` and `get`.  The audio thread's loop in `drain` is taken apart into
  the atomic accesses of `pop`, so that pushes come between any two of them, on the
  queue being drained as on the others.

  The ghost components record a run: for each block the drains in order, each with
  what it stored, and what the plugin was presented with.
-/

import NomosRt.InputEvent
import NomosRt.Spsc.Fifo

namespace NomosRt

open NomosRt.Lib NomosRt.Spsc

/-! ## The buffer -/

/-- `max_events`. -/
def maxInputEvents : Nat := 64

/-- `input_event_buffer`: the `count_` valid entries of `events_`. -/
structure InputEventBuffer (E : Type*) where
  events : List E
  count_le : events.length ≤ maxInputEvents

namespace InputEventBuffer

variable {E : Type*}

/-- `clear`. -/
def clear (_ : InputEventBuffer E) : InputEventBuffer E := ⟨[], Nat.zero_le _⟩

/-- `size_impl`. -/
def size (self : InputEventBuffer E) : Nat := self.events.length

/-- `get_impl`: null from `count_` on. -/
def get (self : InputEventBuffer E) (index : Nat) : Option E :=
  if index ≥ self.events.length then none else self.events[index]?

/-- What a plugin collects that asks for each index below `size`. -/
def presented (self : InputEventBuffer E) : List E :=
  (List.range self.size).filterMap self.get

theorem get_isSome_iff (self : InputEventBuffer E) (i : Nat) :
    (self.get i).isSome ↔ i < self.size := by
  unfold get size
  split
  · rename_i h
    simpa using h
  · rename_i h
    rw [ge_iff_le, not_le] at h
    simp [h]

/-- Asking a list for each of its indices gives the list. -/
theorem filterMap_getElem?_range (l : List E) : (List.range l.length).filterMap (l[·]?) = l := by
  induction l with
  | nil => rfl
  | cons x l ih =>
      rw [List.length_cons, List.range_succ_eq_map]
      simp only [List.filterMap_cons, List.getElem?_cons_zero, List.filterMap_map]
      exact congrArg (x :: ·) ih

/-- The plugin sees what was stored. -/
theorem presented_eq (self : InputEventBuffer E) : self.presented = self.events := by
  have hget : ∀ i ∈ List.range self.size, self.get i = self.events[i]? := by
    intro i hi
    rw [List.mem_range, size] at hi
    rw [get, if_neg (by omega)]
  rw [presented, List.filterMap_congr hget]
  exact filterMap_getElem?_range self.events

end InputEventBuffer

/-! ## The machine -/

/-- One `drain` and what it has stored. -/
structure DrainRecord (Q E : Type*) where
  queue : Q
  stored : List E

/-- A block that is over. -/
structure BlockRecord (Q E : Type*) where
  drains : List (DrainRecord Q E)
  presented : List E

/-- The queues, the buffer, the `drain` under way, and the record of the run. -/
structure BufferState (Q E : Type*) where
  queues : Q → QueueState Unit E
  buffer : InputEventBuffer E
  draining : Option (DrainRecord Q E)
  drains : List (DrainRecord Q E)
  blocks : List (BlockRecord Q E)

/-- A step of a producer, a call of the audio thread, or the next access of the
    `drain` it is in. -/
inductive BufferAct (Q E : Type*) where
  | producer (q : Q) (a : QueueAct Unit E)
  | clear
  | drain (q : Q)
  | consumer

section Machine

variable {Q E : Type*} [DecidableEq Q]

namespace BufferState

/-- An atomic access to queue `q`. -/
def stepQueue (c : Capacity) (s : BufferState Q E) (q : Q) (a : QueueAct Unit E) :
    Option (BufferState Q E) :=
  (queueStep c (s.queues q) a).map fun qs => { s with queues := Function.update s.queues q qs }

/-- `drain` returns. -/
def endDrain (s : BufferState Q E) (d : DrainRecord Q E) : BufferState Q E :=
  { s with draining := none, drains := s.drains ++ [d] }

/-- `events_[count_++] = *ev`; past the end of the array there is no step. -/
def store (s : BufferState Q E) (d : DrainRecord Q E) (ev : E) : Option (BufferState Q E) :=
  if h : s.buffer.events.length < maxInputEvents then
    some { s with
      buffer := ⟨s.buffer.events ++ [ev], by rw [List.length_append, List.length_singleton]; omega⟩
      draining := some ⟨d.queue, d.stored ++ [ev]⟩ }
  else none

/-- The next access of the `drain` under way. -/
def drainStep (c : Capacity) (s : BufferState Q E) (d : DrainRecord Q E) :
    Option (BufferState Q E) :=
  match (s.queues d.queue).cons with
  | .idle =>
      -- `while (count_ < max_events)`
      if s.buffer.events.length < maxInputEvents then s.stepQueue c d.queue .popLoadTail
      else some (s.endDrain d)
  | .loadedTail tail =>
      -- `if (!ev) break;`
      (s.stepQueue c d.queue .popLoadHead).map fun s' =>
        if tail = (s.queues d.queue).q.head then s'.endDrain d else s'
  | .nonempty _ => s.stepQueue c d.queue .popReadSlot
  | .taken _ item => (s.stepQueue c d.queue .popStoreTail).bind fun s' => s'.store d item

end BufferState

/-- One step.  The audio thread makes its calls one after the other. -/
def bufferStep (c : Capacity) (s : BufferState Q E) : BufferAct Q E → Option (BufferState Q E)
  | .producer q a => if a.isPop then none else s.stepQueue c q a
  | .clear =>
      match s.draining with
      | none =>
          some { s with
            buffer := s.buffer.clear
            drains := []
            blocks := s.blocks ++ [⟨s.drains, s.buffer.presented⟩] }
      | some _ => none
  | .drain q =>
      match s.draining with
      | none => some { s with draining := some ⟨q, []⟩ }
      | some _ => none
  | .consumer => s.draining.bind (s.drainStep c)

/-- Started with empty queues and an empty buffer. -/
def bufferMachine (Q E : Type*) [DecidableEq Q] [Inhabited E] (c : Capacity) :
    Machine (BufferState Q E) (BufferAct Q E) where
  start := ⟨fun _ => (queueMachine Unit E c).start, ⟨[], Nat.zero_le _⟩, none, [], []⟩
  step := bufferStep c

end Machine

/-! ## Conservation -/

section Conservation

variable {Q E : Type*} [DecidableEq Q] {c : Capacity} {s s' : BufferState Q E}

/-- What the drains of queue `q` stored, in order. -/
def drainedFrom (q : Q) (drains : List (DrainRecord Q E)) : List E :=
  drains.flatMap fun d => if d.queue = q then d.stored else []

/-- The drains of the current block, the one under way included. -/
def BufferState.blockDrains (s : BufferState Q E) : List (DrainRecord Q E) :=
  s.drains ++ s.draining.toList

/-- The drains of all blocks. -/
def BufferState.allDrains (s : BufferState Q E) : List (DrainRecord Q E) :=
  s.blocks.flatMap (·.drains) ++ s.blockDrains

/-- The invariant.  Only the queue being drained is inside `pop`, and what it has
    popped is what its drains stored. -/
structure BufferInv (c : Capacity) (s : BufferState Q E) : Prop where
  queue : ∀ q, Inv c (s.queues q) ∧ LoadedHead (s.queues q)
  idle : ∀ q, (∀ d, s.draining = some d → d.queue ≠ q) → (s.queues q).cons = .idle
  room : ∀ d, s.draining = some d → (s.queues d.queue).cons ≠ .idle →
    s.buffer.events.length < maxInputEvents
  popped : ∀ q, (s.queues q).popped = drainedFrom q s.allDrains
  stored : s.buffer.events = s.blockDrains.flatMap (·.stored)
  past : ∀ b ∈ s.blocks, b.presented = b.drains.flatMap (·.stored) ∧
    b.presented.length ≤ maxInputEvents

theorem bufferInv_start [Inhabited E] : BufferInv c (bufferMachine Q E c).start where
  queue := fun _ => ⟨inv_start, fun p item head hp => absurd hp (by simp [bufferMachine, queueMachine])⟩
  idle := fun _ _ => rfl
  room := fun d hd => absurd hd (by simp [bufferMachine])
  popped := fun _ => rfl
  stored := rfl
  past := by simp [bufferMachine]

omit [DecidableEq Q] in
/-- With its one producer, a queue keeps its invariant at every access. -/
theorem queue_step {qs qs' : QueueState Unit E} {a : QueueAct Unit E}
    (h : Inv c qs ∧ LoadedHead qs) (hs : queueStep c qs a = some qs') :
    Inv c qs' ∧ LoadedHead qs' :=
  ⟨inv_step a h.1 (noOverlap_of_loaded h.2 a) hs, loadedHead_step h.2 a hs⟩

/-- A queue moves on without popping: the rest of the state is as before. -/
theorem BufferInv.setQueue (h : BufferInv c s) {q : Q} {qs : QueueState Unit E}
    (hq : Inv c qs ∧ LoadedHead qs) (hpopped : qs.popped = (s.queues q).popped)
    (hidle : (∀ d, s.draining = some d → d.queue ≠ q) → qs.cons = .idle)
    (hroom : ∀ d, s.draining = some d → d.queue = q → qs.cons ≠ .idle →
      s.buffer.events.length < maxInputEvents) :
    BufferInv c { s with queues := Function.update s.queues q qs } where
  queue := by
    intro q'
    by_cases hq' : q' = q
    · subst hq'
      simpa using hq
    · simpa [Function.update_of_ne hq'] using h.queue q'
  idle := by
    intro q' hd
    by_cases hq' : q' = q
    · subst hq'
      simpa using hidle hd
    · simpa [Function.update_of_ne hq'] using h.idle q' hd
  room := by
    intro d hd hne
    -- a drain of another queue has its room as before
    by_cases hq' : d.queue = q
    · exact hroom d hd hq' (by simpa [hq'] using hne)
    · exact h.room d hd (by simpa [Function.update_of_ne hq'] using hne)
  popped := by
    intro q'
    show (Function.update s.queues q qs q').popped = drainedFrom q' s.allDrains
    by_cases hq' : q' = q
    · subst hq'
      rw [Function.update_self, hpopped, h.popped]
    · rw [Function.update_of_ne hq', h.popped]
  stored := h.stored
  past := h.past

/-- A `drain` that returns is added to the block's drains. -/
theorem BufferInv.endDrain (h : BufferInv c s) {d : DrainRecord Q E} (hd : s.draining = some d)
    (hidle : (s.queues d.queue).cons = .idle) : BufferInv c (s.endDrain d) := by
  have hdrains : (s.endDrain d).blockDrains = s.blockDrains := by
    simp [BufferState.blockDrains, BufferState.endDrain, hd]
  refine ⟨h.queue, ?_, ?_, ?_, ?_, h.past⟩
  · intro q _
    by_cases hq : d.queue = q
    · exact hq ▸ hidle
    · apply h.idle q
      intro d' hd'
      rw [hd, Option.some.injEq] at hd'
      exact hd' ▸ hq
  · intro d' hd'
    cases hd'
  · intro q
    show (s.queues q).popped = drainedFrom q (s.blocks.flatMap (·.drains) ++ (s.endDrain d).blockDrains)
    rw [hdrains]
    exact h.popped q
  · rw [hdrains]
    exact h.stored

theorem drainedFrom_append (q : Q) (ds ds' : List (DrainRecord Q E)) :
    drainedFrom q (ds ++ ds') = drainedFrom q ds ++ drainedFrom q ds' :=
  List.flatMap_append

/-- An event popped is stored at once, at the end of the buffer. -/
theorem BufferInv.taken (h : BufferInv c s) {d : DrainRecord Q E} (hd : s.draining = some d)
    {tail : Nat} {item : E} (hcons : (s.queues d.queue).cons = .taken tail item)
    (hs : ((s.stepQueue c d.queue .popStoreTail).bind fun s' => s'.store d item) = some s') :
    BufferInv c s' := by
  obtain ⟨s₁, hs₁, hstore⟩ := Option.bind_eq_some_iff.mp hs
  obtain ⟨qs, hqs, rfl⟩ := Option.map_eq_some_iff.mp hs₁
  have hpop : qs.cons = .idle ∧ qs.popped = (s.queues d.queue).popped ++ [item] := by
    simp only [queueStep, hcons, Option.some.injEq] at hqs
    subst hqs
    exact ⟨rfl, rfl⟩
  unfold BufferState.store at hstore
  split at hstore
  · cases hstore
    refine ⟨?_, ?_, ?_, ?_, ?_, h.past⟩
    · intro q
      by_cases hq : q = d.queue
      · subst hq
        simpa using queue_step (h.queue d.queue) hqs
      · simpa [Function.update_of_ne hq] using h.queue q
    · intro q hq
      have hne : q ≠ d.queue := (hq _ rfl).symm
      show (Function.update s.queues d.queue qs q).cons = .idle
      rw [Function.update_of_ne hne]
      apply h.idle q
      intro d' hd'
      rw [hd, Option.some.injEq] at hd'
      exact hd' ▸ hne.symm
    · intro d' hd' hne
      cases hd'
      simp [hpop.1] at hne
    · -- the item is appended to the popped items and to the last drain
      intro q
      have hold := h.popped q
      rw [BufferState.allDrains, BufferState.blockDrains, hd] at hold
      simp only [BufferState.allDrains, BufferState.blockDrains, Option.toList_some,
        drainedFrom_append] at hold ⊢
      by_cases hq : q = d.queue
      · subst hq
        rw [Function.update_self, hpop.2, hold]
        simp [drainedFrom]
      · rw [Function.update_of_ne hq, hold]
        simp [drainedFrom, Ne.symm hq]
    · have hold := h.stored
      rw [BufferState.blockDrains, hd] at hold
      simp only [BufferState.blockDrains, Option.toList_some] at hold ⊢
      rw [hold]
      simp
  · cases hstore

/-- Each access of a `drain` keeps the invariant. -/
theorem BufferInv.drainStep (h : BufferInv c s) {d : DrainRecord Q E} (hd : s.draining = some d)
    (hs : s.drainStep c d = some s') : BufferInv c s' := by
  have hother : ¬ ∀ d', s.draining = some d' → d'.queue ≠ d.queue := fun hno => hno d hd rfl
  unfold BufferState.drainStep at hs
  split at hs
  · rename_i hcons
    split at hs
    · -- the loop test passed
      rename_i hroom
      obtain ⟨qs, hqs, rfl⟩ := Option.map_eq_some_iff.mp hs
      refine h.setQueue (queue_step (h.queue _) hqs) ?_ (fun hno => absurd hno hother) fun _ _ _ _ => hroom
      simp only [queueStep, hcons, Option.some.injEq] at hqs
      rw [← hqs]
    · cases hs
      exact h.endDrain hd hcons
  · rename_i tail hcons
    have hroom := h.room d hd (by rw [hcons]; exact fun hno => by cases hno)
    obtain ⟨s₁, hs₁, rfl⟩ := Option.map_eq_some_iff.mp hs
    obtain ⟨qs, hqs, rfl⟩ := Option.map_eq_some_iff.mp hs₁
    have hstep := queue_step (h.queue _) hqs
    simp only [queueStep, hcons] at hqs
    split
    · -- the queue was empty
      rename_i hempty
      rw [if_pos hempty, Option.some.injEq] at hqs
      subst hqs
      refine (h.setQueue hstep rfl (fun _ => rfl) fun _ _ _ _ => hroom).endDrain hd ?_
      simp
    · rename_i hne
      rw [if_neg hne, Option.some.injEq] at hqs
      subst hqs
      exact h.setQueue hstep rfl (fun hno => absurd hno hother) fun _ _ _ _ => hroom
  · rename_i tail hcons
    have hroom := h.room d hd (by rw [hcons]; exact fun hno => by cases hno)
    obtain ⟨qs, hqs, rfl⟩ := Option.map_eq_some_iff.mp hs
    refine h.setQueue (queue_step (h.queue _) hqs) ?_ (fun hno => absurd hno hother) fun _ _ _ _ => hroom
    simp only [queueStep, hcons, Option.some.injEq] at hqs
    rw [← hqs]
  · rename_i tail item hcons
    exact h.taken hd hcons hs

/-- Between drains no queue is inside `pop`. -/
theorem BufferInv.idle_of_none (h : BufferInv c s) (hnone : s.draining = none) (q : Q) :
    (s.queues q).cons = .idle := by
  apply h.idle q
  intro d hd
  rw [hnone] at hd
  cases hd

/-- `clear`: the drains of the block move to the record of the block. -/
theorem BufferInv.clear (h : BufferInv c s) (hnone : s.draining = none) :
    BufferInv c { s with
      buffer := s.buffer.clear
      drains := []
      blocks := s.blocks ++ [⟨s.drains, s.buffer.presented⟩] } := by
  refine ⟨h.queue, h.idle, ?_, ?_, ?_, ?_⟩
  · intro d hd
    rw [hnone] at hd
    cases hd
  · intro q
    rw [h.popped q]
    simp [BufferState.allDrains, BufferState.blockDrains, hnone]
  · simp [BufferState.blockDrains, hnone, InputEventBuffer.clear]
  · have hstored := h.stored
    simp only [BufferState.blockDrains, hnone, Option.toList_none, List.append_nil] at hstored
    rw [List.forall_mem_append, List.forall_mem_singleton]
    refine ⟨h.past, ?_, ?_⟩
    · rw [s.buffer.presented_eq, hstored]
    · rw [s.buffer.presented_eq]
      exact s.buffer.count_le

/-- The call of `drain`: nothing is stored yet. -/
theorem BufferInv.beginDrain (h : BufferInv c s) (hnone : s.draining = none) (q : Q) :
    BufferInv c { s with draining := some ⟨q, []⟩ } := by
  refine ⟨h.queue, fun q' _ => h.idle_of_none hnone q', ?_, ?_, ?_, h.past⟩
  · intro d hd hne
    cases hd
    exact absurd (h.idle_of_none hnone q) hne
  · intro q'
    rw [h.popped q']
    simp [BufferState.allDrains, BufferState.blockDrains, hnone, drainedFrom]
  · rw [h.stored]
    simp [BufferState.blockDrains, hnone]

theorem bufferInv_step {a : BufferAct Q E} (h : BufferInv c s) (hs : bufferStep c s a = some s') :
    BufferInv c s' := by
  cases a with
  | producer q a =>
      rw [bufferStep] at hs
      split at hs
      · cases hs
      · rename_i ha
        obtain ⟨qs, hqs, rfl⟩ := Option.map_eq_some_iff.mp hs
        -- a producer leaves the consumer's side of its queue alone
        obtain ⟨hcons, hpopped⟩ := push_frame (by simpa using ha) hqs
        refine h.setQueue (queue_step (h.queue q) hqs) hpopped ?_ ?_
        · intro hno
          rw [hcons]
          exact h.idle q hno
        · intro d hd hq hne
          rw [hcons, ← hq] at hne
          exact h.room d hd hne
  | clear =>
      simp only [bufferStep] at hs
      split at hs
      · next hnone =>
          cases hs
          -- `clear` and `drain` start only between drains: one thread calls them in turn
          exact h.clear hnone
      · cases hs
  | drain q =>
      simp only [bufferStep] at hs
      split at hs
      · next hnone =>
          cases hs
          exact h.beginDrain hnone q
      · cases hs
  | consumer =>
      obtain ⟨d, hd, hstep⟩ := Option.bind_eq_some_iff.mp hs
      exact h.drainStep hd hstep

theorem bufferInv_of_reached [Inhabited E] {as : List (BufferAct Q E)}
    (h : (bufferMachine Q E c).Reached Machine.free as s) : BufferInv c s :=
  h.invariant bufferInv_start fun _ _ _ hI _ hs => bufferInv_step hI hs

/-- What a queue has accepted and not yet popped is in its ring. -/
theorem holds_waiting {P T : Type*} {c : Capacity} {qs : QueueState P T} (h : Inv c qs) :
    SpscQueue.Holds c qs.q (qs.pushed.drop qs.popped.length) := by
  have hle := h.popped_le
  have hbound := h.bound
  refine ⟨qs.popped.length, h.tail_eq, ?_, ?_, ?_⟩
  · rw [h.head_eq, List.length_drop, Nat.add_sub_cancel' hle]
  · rw [List.length_drop]
    omega
  · intro i hi
    rw [List.length_drop] at hi
    have hfull := (h.full (qs.popped.length + i) (by omega) (by omega)).1
    rw [List.getElem?_eq_getElem (by omega), Option.some.injEq] at hfull
    rw [hfull, List.getElem_drop]

/-- A `drain` under way can always go on: it never stores past the end of the array. -/
theorem BufferInv.drainStep_isSome (h : BufferInv c s) {d : DrainRecord Q E}
    (hd : s.draining = some d) : (s.drainStep c d).isSome := by
  unfold BufferState.drainStep
  split
  · rename_i hcons
    split
    · simp [BufferState.stepQueue, queueStep, hcons]
    · rfl
  · rename_i tail hcons
    simp only [BufferState.stepQueue, queueStep, hcons, Option.isSome_map]
    split <;> rfl
  · rename_i tail hcons
    simp [BufferState.stepQueue, queueStep, hcons]
  · rename_i tail item hcons
    have hroom := h.room d hd (by rw [hcons]; exact fun hno => by cases hno)
    simp [BufferState.stepQueue, queueStep, hcons, BufferState.store, hroom]

/-- What a block presents: its drains in order, at most `max_events` of them. -/
def PresentsDrains (drains : List (DrainRecord Q E)) (presented : List E) : Prop :=
  presented = drains.flatMap (·.stored) ∧ presented.length ≤ maxInputEvents

/-- In every run, at every moment: what a queue has accepted is, in order, what the
    drains of that queue put into the blocks, followed by what its ring holds; every
    block presents its drains in order; and `get` answers below `size`. -/
theorem input_events_conserved [Inhabited E] (as : List (BufferAct Q E)) (s : BufferState Q E)
    (h : (bufferMachine Q E c).Reached Machine.free as s) :
    (∀ q, ∃ waiting, SpscQueue.Holds c (s.queues q).q waiting ∧
      (s.queues q).pushed = drainedFrom q s.allDrains ++ waiting) ∧
    (∀ b ∈ s.blocks, PresentsDrains b.drains b.presented) ∧
    PresentsDrains s.blockDrains s.buffer.presented ∧
    (∀ i, (s.buffer.get i).isSome ↔ i < s.buffer.size) ∧
    (∀ d, s.draining = some d → (bufferStep c s .consumer).isSome) := by
  have hinv := bufferInv_of_reached h
  refine ⟨?_, hinv.past, ?_, s.buffer.get_isSome_iff, ?_⟩
  · intro q
    have hqueue := (hinv.queue q).1
    refine ⟨_, holds_waiting hqueue, ?_⟩
    rw [← hinv.popped q]
    calc (s.queues q).pushed
        = (s.queues q).pushed.take (s.queues q).popped.length ++
            (s.queues q).pushed.drop (s.queues q).popped.length := (List.take_append_drop _ _).symm
      _ = _ := by rw [← hqueue.popped_eq]
  · rw [s.buffer.presented_eq]
    exact ⟨hinv.stored, s.buffer.count_le⟩
  · intro d hd
    rw [bufferStep, hd]
    exact hinv.drainStep_isSome hd

end Conservation

/-! ## A block with a push in the middle of a drain -/

/-- A whole `push` into `q` on a queue that has room. -/
def pushSteps (q : Bool) (item : Nat) : List (BufferAct Bool Nat) :=
  [.producer q (.pushLoadHead () item), .producer q (.pushLoadTail ()),
    .producer q (.pushWriteSlot ()), .producer q (.pushStoreHead ())]

/-- An event waits in the second queue and one comes into the first while that is
    being drained; the next block drains the second. -/
def twoBlocks : List (BufferAct Bool Nat) :=
  pushSteps true 7 ++ [.clear, .drain false, .consumer] ++ pushSteps false 5 ++
    List.replicate 5 .consumer ++ [.clear, .drain true] ++ List.replicate 6 .consumer

theorem input_events_twoBlocks :
    ∃ s, (bufferMachine Bool Nat inQueueCapacity).Reached Machine.free twoBlocks s ∧
      s.blocks.map (·.presented) = [[], [5]] ∧ s.buffer.presented = [7] ∧
      PresentsDrains s.blockDrains s.buffer.presented := by
  have hrun : ((bufferMachine Bool Nat inQueueCapacity).run
      (bufferMachine Bool Nat inQueueCapacity).start twoBlocks).map
        (fun s => (s.blocks.map (·.presented), s.buffer.presented)) = some ([[], [5]], [7]) := by
    decide +kernel
  obtain ⟨s, hs, hlists⟩ := Option.map_eq_some_iff.mp hrun
  have hreached := Machine.reached_of_run hs
  simp only [Prod.mk.injEq] at hlists
  exact ⟨s, hreached, hlists.1, hlists.2, (input_events_conserved twoBlocks s hreached).2.2.1⟩

end NomosRt
