/-
  NomosRt.Midi.Flush

  `event_collector::flush_to`: the collected events, packed into blocks, onto the
  queue of the MIDI dispatch thread.

  The header promises the number of blocks pushed.  What the function counts are
  the calls of `push`, whose answer it does not look at.
-/

import NomosRt.Midi.Translate

namespace NomosRt.Midi

open NomosRt.Lib NomosRt.Spsc

/-- `midi_event_block`: the `count` valid entries of `events`. -/
structure MidiEventBlock where
  events : List MidiOutEvent
  count_le : events.length ≤ 7

/-- `midi_event_block block{}`. -/
def MidiEventBlock.empty : MidiEventBlock := ⟨[], Nat.zero_le _⟩

instance : Inhabited MidiEventBlock := ⟨.empty⟩

theorem midiQueue_pow_two : 512 &&& (512 - 1) = 0 := by decide

theorem midiQueue_two_le : 2 ≤ 512 := by decide

/-- `midi_queue_capacity`. -/
def midiQueueCapacity : Capacity := ⟨512, midiQueue_pow_two, midiQueue_two_le⟩

/-- The inner loop of `flush_to`, over the events from `i` on: the block and what is
    left for the next. -/
def fillBlock (block : MidiEventBlock) : List MidiOutEvent → MidiEventBlock × List MidiOutEvent
  | [] => (block, [])
  | e :: rest =>
      if h : block.events.length < 7 then
        fillBlock ⟨block.events ++ [e], by rw [List.length_append, List.length_singleton]; omega⟩ rest
      else (block, e :: rest)

/-- The outer loop of `flush_to`.  A pass takes at least one event, so `fuel` is the
    number of events. -/
def flushLoop (c : Capacity) :
    Nat → List MidiOutEvent → SpscQueue MidiEventBlock → Nat → Nat × SpscQueue MidiEventBlock
  | 0, _, queue, pushed => (pushed, queue)
  | fuel + 1, events, queue, pushed =>
      if events.isEmpty then (pushed, queue)
      else
        let (block, rest) := fillBlock .empty events
        -- `queue.push(block); ++pushed;`
        flushLoop c fuel rest (SpscQueue.push c queue block).2 (pushed + 1)

/-- `event_collector::flush_to`: the value returned and the queue. -/
def EventCollector.flushTo (self : EventCollector) (queue : SpscQueue MidiEventBlock) :
    Nat × SpscQueue MidiEventBlock :=
  flushLoop midiQueueCapacity self.events.length self.events queue 0

/-! ## The blocks -/

/-- `blocks` are `events` cut after every seventh. -/
structure Packs (events : List MidiOutEvent) (blocks : List MidiEventBlock) : Prop where
  contents : blocks.flatMap (·.events) = events
  nonempty : ∀ b ∈ blocks, 0 < b.events.length
  full : ∀ b ∈ blocks.dropLast, b.events.length = 7
  count_eq : blocks.length = (events.length + 6) / 7

/-- The inner loop tops the block up. -/
theorem fillBlock_eq (block : MidiEventBlock) (events : List MidiOutEvent) :
    (fillBlock block events).1.events = block.events ++ events.take (7 - block.events.length) ∧
      (fillBlock block events).2 = events.drop (7 - block.events.length) := by
  induction events generalizing block with
  | nil => simp [fillBlock]
  | cons e rest ih =>
      rw [fillBlock]
      split
      · rename_i hroom
        obtain ⟨hevents, hrest⟩ := ih ⟨block.events ++ [e], by
          rw [List.length_append, List.length_singleton]; omega⟩
        have hleft : 7 - block.events.length = 7 - (block.events ++ [e]).length + 1 := by
          rw [List.length_append, List.length_singleton]
          omega
        rw [hevents, hrest, hleft, List.take_succ_cons, List.drop_succ_cons, List.append_assoc]
        exact ⟨rfl, rfl⟩
      · rename_i hfull
        have hleft : 7 - block.events.length = 0 := by omega
        rw [hleft, List.take_zero, List.append_nil, List.drop_zero]
        exact ⟨rfl, rfl⟩

/-- The pushes of `flush_to`, their answers ignored. -/
def pushBlocks (c : Capacity) (queue : SpscQueue MidiEventBlock) (blocks : List MidiEventBlock) :
    SpscQueue MidiEventBlock :=
  blocks.foldl (fun queue block => (SpscQueue.push c queue block).2) queue

theorem Packs.cons {events : List MidiOutEvent} (hne : events ≠ []) {block : MidiEventBlock}
    (hblock : block.events = events.take 7) {blocks : List MidiEventBlock}
    (h : Packs (events.drop 7) blocks) : Packs events (block :: blocks) where
  contents := by
    rw [List.flatMap_cons, h.contents, hblock, List.take_append_drop]
  nonempty := by
    rw [List.forall_mem_cons]
    refine ⟨?_, h.nonempty⟩
    rw [hblock, List.length_take]
    have := List.length_pos_of_ne_nil hne
    omega
  full := by
    -- a block with another after it left events behind
    cases blocks with
    | nil => simp
    | cons next blocks =>
        rw [List.dropLast_cons_cons, List.forall_mem_cons]
        refine ⟨?_, h.full⟩
        have hcount := h.count_eq
        rw [List.length_cons, List.length_drop] at hcount
        rw [hblock, List.length_take]
        omega
  count_eq := by
    have hcount := h.count_eq
    rw [List.length_drop] at hcount
    have := List.length_pos_of_ne_nil hne
    rw [List.length_cons]
    omega

/-- The outer loop pushes the blocks of the events and counts them all. -/
theorem flushLoop_eq (c : Capacity) {fuel : Nat} {events : List MidiOutEvent}
    (hfuel : events.length ≤ fuel) (queue : SpscQueue MidiEventBlock) (pushed : Nat) :
    ∃ blocks, Packs events blocks ∧
      flushLoop c fuel events queue pushed = (pushed + blocks.length, pushBlocks c queue blocks) := by
  induction fuel generalizing events queue pushed with
  | zero =>
      obtain rfl := List.eq_nil_of_length_eq_zero (Nat.le_zero.mp hfuel)
      exact ⟨[], ⟨rfl, by simp, by simp, rfl⟩, rfl⟩
  | succ fuel ih =>
      by_cases hne : events = []
      · subst hne
        exact ⟨[], ⟨rfl, by simp, by simp, rfl⟩, rfl⟩
      · obtain ⟨hblock, hrest⟩ := fillBlock_eq .empty events
        -- a block takes at least one event, so the rest is within the fuel
        have hshort : (fillBlock .empty events).2.length ≤ fuel := by
          have := List.length_pos_of_ne_nil hne
          rw [hrest, List.length_drop]
          simp only [MidiEventBlock.empty, List.length_nil]
          omega
        obtain ⟨blocks, hpacks, heq⟩ :=
          ih hshort (SpscQueue.push c queue (fillBlock .empty events).1).2 (pushed + 1)
        rw [hrest] at hpacks
        refine ⟨(fillBlock .empty events).1 :: blocks, hpacks.cons hne hblock, ?_⟩
        rw [flushLoop, if_neg (by simpa using hne)]
        show flushLoop c fuel (fillBlock .empty events).2
          (SpscQueue.push c queue (fillBlock .empty events).1).2 (pushed + 1) = _
        rw [heq, List.length_cons]
        simp only [pushBlocks, List.foldl_cons, Prod.mk.injEq, and_true]
        omega

/-- A queue takes blocks while it has room. -/
theorem holds_pushBlocks {c : Capacity} {queue : SpscQueue MidiEventBlock}
    {held : List MidiEventBlock} (h : SpscQueue.Holds c queue held) (blocks : List MidiEventBlock) :
    SpscQueue.Holds c (pushBlocks c queue blocks) (held ++ blocks.take (c.val - 1 - held.length)) := by
  induction blocks generalizing queue held with
  | nil => simpa [pushBlocks] using h
  | cons b blocks ih =>
      have hpush := (SpscQueue.push_spec h b).2
      have hrest := ih hpush
      have hlt := h.length_lt
      split at hrest
      · have hroom : c.val - 1 - held.length = c.val - 1 - (held ++ [b]).length + 1 := by
          rw [List.length_append, List.length_singleton]
          omega
        rw [hroom, List.take_succ_cons]
        simpa [pushBlocks] using hrest
      · have hroom : c.val - 1 - held.length = 0 := by omega
        rw [hroom, List.take_zero]
        rw [hroom, List.take_zero] at hrest
        exact hrest

/-! ## What is delivered and what is reported -/

/-- What a flush leaves in a queue that held `held`: `accepted`, which are the first
    events of the collector in whole blocks, and all of them where there is room. -/
structure FlushDelivers (collector : EventCollector) (held : List MidiEventBlock)
    (queue : SpscQueue MidiEventBlock) (accepted : List MidiEventBlock) : Prop where
  holds : SpscQueue.Holds midiQueueCapacity queue (held ++ accepted)
  front : accepted.flatMap (·.events) <+: collector.events
  count : ∀ b ∈ accepted, 1 ≤ b.events.length ∧ b.events.length ≤ 7
  full : ∀ b ∈ accepted.dropLast, b.events.length = 7
  all : (collector.events.length + 6) / 7 ≤ midiQueueCapacity.val - 1 - held.length →
    accepted.flatMap (·.events) = collector.events

theorem flatMap_take_prefix (blocks : List MidiEventBlock) (n : Nat) :
    (blocks.take n).flatMap (·.events) <+: blocks.flatMap (·.events) := by
  refine ⟨(blocks.drop n).flatMap (·.events), ?_⟩
  rw [← List.flatMap_append, List.take_append_drop]

theorem mem_dropLast_of_take {α : Type*} {l : List α} {n : Nat} {a : α}
    (h : a ∈ (l.take n).dropLast) : a ∈ l.dropLast := by
  rw [List.dropLast_eq_take, List.take_take] at h
  rw [List.dropLast_eq_take]
  refine (List.take_subset_take_left l ?_) h
  rw [List.length_take]
  omega

/-- The blocks that found room are delivered as they should be. -/
theorem Packs.delivers {collector : EventCollector} {blocks held : List MidiEventBlock}
    (hpacks : Packs collector.events blocks) {queue : SpscQueue MidiEventBlock}
    (h : SpscQueue.Holds midiQueueCapacity queue held) :
    FlushDelivers collector held (pushBlocks midiQueueCapacity queue blocks)
      (blocks.take (midiQueueCapacity.val - 1 - held.length)) where
  holds := holds_pushBlocks h blocks
  front := by
    rw [← hpacks.contents]
    exact flatMap_take_prefix blocks _
  count := fun b hb => ⟨hpacks.nonempty b (List.mem_of_mem_take hb), b.count_le⟩
  full := fun b hb => hpacks.full b (mem_dropLast_of_take hb)
  all := by
    intro hroom
    rw [List.take_of_length_le (by rw [hpacks.count_eq]; exact hroom), hpacks.contents]

/-- `flush_to` delivers the front of the collector; the value it returns is the number
    of blocks accepted exactly when the queue has room for all. -/
theorem flush_to_accounts_iff (self : EventCollector) (queue : SpscQueue MidiEventBlock)
    (held : List MidiEventBlock) (h : SpscQueue.Holds midiQueueCapacity queue held) :
    (∃ accepted, FlushDelivers self held (self.flushTo queue).2 accepted) ∧
      ((∃ accepted, FlushDelivers self held (self.flushTo queue).2 accepted ∧
          (self.flushTo queue).1 = accepted.length) ↔
        (self.events.length + 6) / 7 ≤ midiQueueCapacity.val - 1 - held.length) := by
  obtain ⟨blocks, hpacks, heq⟩ :=
    flushLoop_eq midiQueueCapacity (le_refl self.events.length) queue 0
  have hflush : self.flushTo queue = (blocks.length, pushBlocks midiQueueCapacity queue blocks) := by
    rw [EventCollector.flushTo, heq, Nat.zero_add]
  have hdelivers := hpacks.delivers h
  have hcount := hpacks.count_eq
  rw [hflush]
  refine ⟨⟨_, hdelivers⟩, ?_, ?_⟩
  · -- the queue has no room for more than it accepted
    rintro ⟨accepted, hacc, hreturned⟩
    have hlt := hacc.holds.length_lt
    simp only [List.length_append] at hlt hreturned
    omega
  · intro hroom
    refine ⟨_, hdelivers, ?_⟩
    simp only [List.length_take]
    omega

/-! ## A full queue -/

/-- A note on middle C. -/
def middleC : MidiOutEvent := ⟨0, 0, 3, 0x90, 60, 100⟩

/-- A collector with one event. -/
def oneEvent : EventCollector := ⟨[middleC], by decide⟩

theorem oneEvent_flushTo (queue : SpscQueue MidiEventBlock) :
    oneEvent.flushTo queue =
      (1, (SpscQueue.push midiQueueCapacity queue ⟨[middleC], by decide⟩).2) :=
  rfl

/-- A collector with nine events. -/
def nineEvents : EventCollector := ⟨List.replicate 9 middleC, by decide⟩

/-- Three blocks that wait in a queue. -/
def waitingBlocks : List MidiEventBlock := List.replicate 3 ⟨[middleC], by decide⟩

/-- Behind them nine events are delivered in a full block and a block of two. -/
theorem flush_to_nineEvents :
    let queue := pushBlocks midiQueueCapacity SpscQueue.empty waitingBlocks
    ∃ accepted, FlushDelivers nineEvents waitingBlocks (nineEvents.flushTo queue).2 accepted ∧
      (nineEvents.flushTo queue).1 = 2 ∧ accepted.map (·.events.length) = [7, 2] := by
  intro queue
  have hheld : SpscQueue.Holds midiQueueCapacity queue waitingBlocks :=
    holds_pushBlocks (c := midiQueueCapacity) SpscQueue.holds_empty waitingBlocks
  obtain ⟨accepted, hacc, hreturned⟩ :=
    (flush_to_accounts_iff nineEvents queue waitingBlocks hheld).2.mpr (by decide)
  have htwo : (nineEvents.flushTo queue).1 = 2 := rfl
  obtain ⟨first, second, rfl⟩ := List.length_eq_two.mp (hreturned.symm.trans htwo)
  refine ⟨_, hacc, htwo, ?_⟩
  have hfirst := hacc.full first (.head _)
  have hall := congrArg List.length (hacc.all (by decide))
  have hnine : nineEvents.events.length = 9 := by decide
  simp only [List.flatMap_cons, List.flatMap_nil, List.append_nil, List.length_append, hfirst,
    hnine] at hall
  rw [List.map_cons, List.map_singleton, hfirst, show second.events.length = 2 by omega]

/-- The queue after `n` blocks that nobody has read. -/
def unread (n : Nat) : SpscQueue MidiEventBlock :=
  pushBlocks midiQueueCapacity SpscQueue.empty (List.replicate n MidiEventBlock.empty)

theorem holds_unread {n : Nat} (hn : n ≤ 511) :
    SpscQueue.Holds midiQueueCapacity (unread n) (List.replicate n MidiEventBlock.empty) := by
  have h := holds_pushBlocks (SpscQueue.holds_empty (c := midiQueueCapacity))
    (List.replicate n MidiEventBlock.empty)
  rw [List.nil_append, List.take_of_length_le (by rw [List.length_replicate]; exact hn)] at h
  exact h

/-- With 511 blocks unread the queue refuses the block, and `flush_to` reports it as
    pushed. -/
theorem flush_to_full :
    (oneEvent.flushTo (unread 511)).1 = 1 ∧
      SpscQueue.Holds midiQueueCapacity (oneEvent.flushTo (unread 511)).2
        (List.replicate 511 MidiEventBlock.empty) ∧
      ¬ ∃ accepted, FlushDelivers oneEvent (List.replicate 511 MidiEventBlock.empty)
          (oneEvent.flushTo (unread 511)).2 accepted ∧
        (oneEvent.flushTo (unread 511)).1 = accepted.length := by
  have hunread := holds_unread (le_refl 511)
  have hpush := (SpscQueue.push_spec hunread ⟨[middleC], by decide⟩).2
  rw [if_neg (by rw [List.length_replicate]; decide)] at hpush
  rw [oneEvent_flushTo]
  dsimp only
  refine ⟨rfl, hpush, ?_⟩
  rintro ⟨accepted, hacc, hreturned⟩
  have hlt := hacc.holds.length_lt
  rw [List.length_append, List.length_replicate, ← hreturned] at hlt
  exact absurd hlt (by decide)

end NomosRt.Midi
