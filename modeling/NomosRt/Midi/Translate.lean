/-
  NomosRt.Midi.Translate

  MIDI into CLAP events and back.

  `midi_io::midi_callback` turns a message from a port into a `clap_event_union` on
  the input queue; `event_collector` turns what a plugin puts on its output list
  into `midi_out_event`s.  Velocities are exact (rational) here.

  `EventCollector` keeps the `count_` valid entries of `events_`.
-/

import Mathlib.Data.Rat.Floor
import NomosRt.InputEvent
import NomosRt.Lib.Machine

namespace NomosRt.Midi

open NomosRt.Lib NomosRt.Spsc

/-! ## `midi_io::midi_callback` -/

/-- The members of `midi_io` the callback uses; `echoed` is what the echo callback
    was given. -/
structure MidiIo where
  inQueue : Option (SpscQueue (ClapEvent ℚ))
  echoCb : Bool
  echoed : List (List Byte)

/-- The event the callback builds for a message. -/
def callbackEvent (msg : List Byte) : ClapEvent ℚ :=
  let status := msg.headD 0
  let nibble := status &&& 0xF0
  if nibble = 0x90 ∨ nibble = 0x80 then
    let vel := msg.getD 2 0
    let isOff : Bool := nibble = 0x80 ∨ (nibble = 0x90 ∧ vel = 0)
    .note (!isOff) (-1) 0 ((status &&& 0x0F).setWidth 16) ((msg.getD 1 0).setWidth 16)
      (if isOff then 0 else vel.toNat / 127)
  else .midi 0 status (msg.getD 1 0) (msg.getD 2 0)

/-- `midi_io::midi_callback`; the answer of the push is ignored. -/
def midiCallback (self : MidiIo) (msg : List Byte) : MidiIo :=
  if msg.isEmpty then self
  else if self.echoCb then { self with echoed := self.echoed ++ [msg] }
  else
    match self.inQueue with
    | none => self
    | some q =>
        { self with inQueue := some (SpscQueue.push inQueueCapacity q (callbackEvent msg)).2 }

/-! ## `event_collector` -/

/-- `midi_out_event`. -/
structure MidiOutEvent where
  sampleOffset : BitVec 16
  port : Byte
  size : Byte
  data : Byte × Byte × Byte
  deriving DecidableEq, Repr

/-- The first `size` data bytes. -/
def MidiOutEvent.bytes (e : MidiOutEvent) : List Byte :=
  [e.data.1, e.data.2.1, e.data.2.2].take e.size.toNat

/-- What a plugin may put on its output list: `other` is any type the collector does
    not translate. -/
inductive ClapOutEvent where
  | event (ev : ClapEvent ℚ)
  | other

/-- `midi_message_size`. -/
def midiMessageSize (status : Byte) : Byte :=
  if 0xF8 ≤ status.toNat then 1
  else if 0xF0 ≤ status.toNat then 3
  else if status &&& 0xF0 = 0xC0 ∨ status &&& 0xF0 = 0xD0 then 2
  else 3

/-- `static_cast<int>` of a velocity times 127, clamped to a data byte. -/
def velocityByte (velocity : ℚ) : Byte :=
  let v := velocity * 127
  let n : Int := if 0 ≤ v then ⌊v⌋ else ⌈v⌉
  BitVec.ofInt 8 (max 0 (min n 127))

/-- The event the collector stores; `none` for what it accepts and discards. -/
def translate (time : BitVec 32) : ClapOutEvent → Option MidiOutEvent
  | .event (.note isOn _ _ channel key velocity) =>
      if channel.slt 0 ∨ key.slt 0 then none
      else
        some ⟨BitVec.ofNat 16 (min time.toNat 0xFFFF), 0, 3,
          (if isOn then 0x90 else 0x80) ||| (channel &&& 0x0F).setWidth 8,
          (key &&& 0x7F).setWidth 8, velocityByte velocity⟩
  | .event (.midi port data0 data1 data2) =>
      some ⟨BitVec.ofNat 16 (min time.toNat 0xFFFF), port.setWidth 8, midiMessageSize data0,
        data0, data1, data2⟩
  | .other => none

/-- `max_events`. -/
def maxEvents : Nat := 128

/-- `event_collector`. -/
structure EventCollector where
  events : List MidiOutEvent
  count_le : events.length ≤ maxEvents

/-- A collector after `reset`. -/
def EventCollector.empty : EventCollector := ⟨[], Nat.zero_le _⟩

/-- `event_collector::try_push_impl`. -/
def EventCollector.tryPush (self : EventCollector) (time : BitVec 32) (ev : ClapOutEvent) :
    Bool × EventCollector :=
  if h : self.events.length < maxEvents then
    match translate time ev with
    | none => (true, self)
    | some e =>
        if 0 < e.size.toNat then
          (true, ⟨self.events ++ [e], by rw [List.length_append, List.length_singleton]; omega⟩)
        else (true, self)
  else (false, self)

/-! ## Messages -/

/-- The length of a MIDI 1.0 message by its status byte.  System exclusive has no fixed
    length; 0xF4, 0xF5 and the end of an exclusive start no message. -/
def messageLength (status : Byte) : Option Nat :=
  let s := status.toNat
  if s < 0x80 then none
  else if s < 0xC0 then some 3
  else if s < 0xE0 then some 2
  else if s < 0xF0 ∨ s = 0xF2 then some 3
  else if s = 0xF1 ∨ s = 0xF3 then some 2
  else if s = 0xF6 ∨ 0xF8 ≤ s then some 1
  else none

/-- A complete message: as long as its status says, with data bytes below 0x80. -/
def IsMessage (m : List Byte) : Prop :=
  messageLength (m.headD 0) = some m.length ∧ ∀ d ∈ m.tail, d.toNat < 0x80

instance (m : List Byte) : Decidable (IsMessage m) := inferInstanceAs (Decidable (_ ∧ _))

/-- A system common message. -/
def IsSystemCommon (m : List Byte) : Prop :=
  0xF0 ≤ (m.headD 0).toNat ∧ (m.headD 0).toNat < 0xF8

instance (m : List Byte) : Decidable (IsSystemCommon m) := inferInstanceAs (Decidable (_ ∧ _))

/-- A note-off, or a note-on with velocity 0. -/
def IsNoteOff (m : List Byte) : Prop :=
  m.headD 0 &&& 0xF0 = 0x80 ∨ (m.headD 0 &&& 0xF0 = 0x90 ∧ m.getD 2 0 = 0)

instance (m : List Byte) : Decidable (IsNoteOff m) := inferInstanceAs (Decidable (_ ∨ _))

/-- What becomes of a message: a note-off loses its release velocity, and a note-on
    with velocity 0 becomes one. -/
def survivor (m : List Byte) : List Byte :=
  if IsNoteOff m then [0x80 ||| (m.headD 0 &&& 0x0F), m.getD 1 0, 0] else m

/-- The stored size: the message's length, but always 3 for system common. -/
def storedSize (m : List Byte) : Nat := if IsSystemCommon m then 3 else m.length

/-- The event stored for a message. -/
def storedEvent (m : List Byte) : MidiOutEvent :=
  ⟨0, 0, BitVec.ofNat 8 (storedSize m), (survivor m).getD 0 0, (survivor m).getD 1 0,
    (survivor m).getD 2 0⟩

/-! ## One message -/

theorem messageLength_le {s : Byte} {n : Nat} (h : messageLength s = some n) :
    1 ≤ n ∧ n ≤ 3 := by
  simp only [messageLength] at h
  split_ifs at h <;> simp only [Option.some.injEq] at h <;> omega

/-- The collector's size is the length a status asks for, system common apart. -/
theorem midiMessageSize_eq (m : List Byte) (h : messageLength (m.headD 0) = some m.length) :
    midiMessageSize (m.headD 0) = BitVec.ofNat 8 (storedSize m) := by
  have hall : ∀ s : Byte, ∀ n ≤ 3, messageLength s = some n →
      midiMessageSize s =
        BitVec.ofNat 8 (if 0xF0 ≤ s.toNat ∧ s.toNat < 0xF8 then 3 else n) := by
    intro s
    exact byte_forall (P := fun s => ∀ n ≤ 3, messageLength s = some n → midiMessageSize s =
      BitVec.ofNat 8 (if 0xF0 ≤ s.toNat ∧ s.toNat < 0xF8 then 3 else n)) (by decide +kernel) s
  exact hall _ _ (messageLength_le h).2 h

/-- The status of a note: three bytes, and a channel that comes back. -/
theorem note_status (s : Byte) (h : s &&& 0xF0 = 0x90 ∨ s &&& 0xF0 = 0x80) :
    messageLength s = some 3 ∧ ¬ (0xF0 ≤ s.toNat ∧ s.toNat < 0xF8) ∧
      ((s &&& 0x0F).setWidth 16).slt 0 = false ∧
      (((s &&& 0x0F).setWidth 16 &&& 0x0F).setWidth 8 : Byte) = s &&& 0x0F ∧
      (s &&& 0xF0 = 0x90 → 0x90 ||| (s &&& 0x0F) = s) := by
  revert h
  exact byte_forall (P := fun s => s &&& 0xF0 = 0x90 ∨ s &&& 0xF0 = 0x80 →
    messageLength s = some 3 ∧ ¬ (0xF0 ≤ s.toNat ∧ s.toNat < 0xF8) ∧
      ((s &&& 0x0F).setWidth 16).slt 0 = false ∧
      (((s &&& 0x0F).setWidth 16 &&& 0x0F).setWidth 8 : Byte) = s &&& 0x0F ∧
      (s &&& 0xF0 = 0x90 → 0x90 ||| (s &&& 0x0F) = s)) (by decide +kernel) s

/-- A key below 0x80 comes back. -/
theorem note_key (key : Byte) (h : key.toNat < 0x80) :
    (key.setWidth 16).slt 0 = false ∧ ((key.setWidth 16 &&& 0x7F).setWidth 8 : Byte) = key := by
  revert h
  exact byte_forall (P := fun key => key.toNat < 0x80 →
    (key.setWidth 16).slt 0 = false ∧ ((key.setWidth 16 &&& 0x7F).setWidth 8 : Byte) = key)
    (by decide +kernel) key

/-- Dividing a velocity by 127 and multiplying it again gives it back. -/
theorem velocityByte_div (vel : Byte) (h : vel.toNat < 0x80) :
    velocityByte (vel.toNat / 127) = vel := by
  have hmul : (vel.toNat : ℚ) / 127 * 127 = (vel.toNat : ℚ) := div_mul_cancel₀ _ (by norm_num)
  have hclamp : max 0 (min (vel.toNat : Int) 127) = vel.toNat := by omega
  rw [velocityByte, hmul, if_pos (Nat.cast_nonneg _)]
  simp only [Int.floor_natCast, hclamp, BitVec.ofInt_natCast, BitVec.ofNat_toNat,
    BitVec.setWidth_eq]

theorem velocityByte_zero : velocityByte 0 = 0 := by
  rw [velocityByte, zero_mul, if_pos (le_refl _), Int.floor_zero]
  rfl

/-- A note message is its status, key and velocity. -/
theorem note_message {m : List Byte} (h : IsMessage m)
    (hnote : m.headD 0 &&& 0xF0 = 0x90 ∨ m.headD 0 &&& 0xF0 = 0x80) :
    ∃ s key vel, m = [s, key, vel] ∧ key.toNat < 0x80 ∧ vel.toNat < 0x80 := by
  have hlen : 3 = m.length := by
    have hsome := (note_status _ hnote).1.symm.trans h.1
    exact Option.some.inj hsome
  obtain ⟨s, key, vel, rfl⟩ := List.length_eq_three.mp hlen.symm
  exact ⟨s, key, vel, rfl, h.2 key (by simp), h.2 vel (by simp)⟩

/-- The collector stores for a message's event what the message is to become. -/
theorem translate_callbackEvent {m : List Byte} (h : IsMessage m) :
    translate 0 (.event (callbackEvent m)) = some (storedEvent m) := by
  by_cases hnote : m.headD 0 &&& 0xF0 = 0x90 ∨ m.headD 0 &&& 0xF0 = 0x80
  · obtain ⟨s, key, vel, rfl, hkey, hvel⟩ := note_message h hnote
    obtain ⟨-, hcommon, hchan, hback, hon⟩ := note_status s hnote
    obtain ⟨hkeypos, hkeyback⟩ := note_key key hkey
    have hsize : storedSize [s, key, vel] = 3 := if_neg hcommon
    have hevent : callbackEvent [s, key, vel] =
        .note (!decide (IsNoteOff [s, key, vel])) (-1) 0 ((s &&& 0x0F).setWidth 16)
          (key.setWidth 16) (if decide (IsNoteOff [s, key, vel]) then 0 else vel.toNat / 127) :=
      if_pos hnote
    have hvalid : ¬ (((s &&& 0x0F).setWidth 16).slt 0 = true ∨ (key.setWidth 16).slt 0 = true) := by
      rw [hchan, hkeypos]
      simp
    by_cases hoff : IsNoteOff [s, key, vel]
    · rw [decide_eq_true hoff] at hevent
      have hdropped : callbackEvent [s, key, vel] =
          .note false (-1) 0 ((s &&& 0x0F).setWidth 16) (key.setWidth 16) 0 := hevent
      rw [hdropped, translate, if_neg hvalid, hback, hkeyback, velocityByte_zero, storedEvent,
        hsize, survivor, if_pos hoff]
      rfl
    · -- a note-on with a velocity: the status is put together again
      have hstatus : s &&& 0xF0 = 0x90 := hnote.resolve_right fun h80 => hoff (Or.inl h80)
      rw [decide_eq_false hoff] at hevent
      have hkept : callbackEvent [s, key, vel] =
          .note true (-1) 0 ((s &&& 0x0F).setWidth 16) (key.setWidth 16) (vel.toNat / 127) := hevent
      rw [hkept, translate, if_neg hvalid, hback, hkeyback, velocityByte_div vel hvel, storedEvent,
        hsize, survivor, if_neg hoff, if_pos rfl, hon hstatus]
      rfl
  · have hoff : ¬ IsNoteOff m := fun hoff => hnote (hoff.symm.imp And.left id)
    rw [callbackEvent, if_neg hnote, translate, midiMessageSize_eq m h.1, storedEvent, survivor,
      if_neg hoff]
    have hhead : m.headD 0 = m.getD 0 0 := by cases m <;> rfl
    rw [hhead]
    rfl

/-- The first `n` of three bytes that are a short list and zeros behind it. -/
theorem take_padded (l : List Byte) (n : Nat) (hl : l.length ≤ 3) (hn : n ≤ 3)
    (hln : l.length ≤ n) :
    [l.getD 0 0, l.getD 1 0, l.getD 2 0].take n = l ++ List.replicate (n - l.length) 0 := by
  rcases l with _ | ⟨a, _ | ⟨b, _ | ⟨c, _ | ⟨d, l⟩⟩⟩⟩
  all_goals simp only [List.length_cons, List.length_nil] at hl hln
  · interval_cases n <;> rfl
  · interval_cases n <;> rfl
  · interval_cases n <;> rfl
  · interval_cases n
    rfl
  · omega

/-- The stored event holds the message, padded with zeros for system common. -/
theorem storedEvent_bytes {m : List Byte} (h : IsMessage m) :
    (storedEvent m).size.toNat = storedSize m ∧
      (storedEvent m).bytes = survivor m ++ List.replicate (storedSize m - m.length) 0 := by
  have hlen := messageLength_le h.1
  have hsize : (storedEvent m).size.toNat = storedSize m := by
    show (BitVec.ofNat 8 (storedSize m)).toNat = storedSize m
    rw [BitVec.toNat_ofNat, Nat.mod_eq_of_lt]
    unfold storedSize
    split_ifs <;> omega
  refine ⟨hsize, ?_⟩
  have hsurvivor : (survivor m).length = m.length := by
    unfold survivor
    split_ifs with hoff
    · -- only a note message can be a note-off
      obtain ⟨s, key, vel, rfl, -⟩ := note_message h (hoff.symm.imp And.left id)
      rfl
    · rfl
  have hle : storedSize m ≤ 3 ∧ m.length ≤ storedSize m := by
    unfold storedSize
    split_ifs <;> omega
  show [(survivor m).getD 0 0, (survivor m).getD 1 0, (survivor m).getD 2 0].take
    (storedEvent m).size.toNat = _
  rw [hsize, ← hsurvivor]
  rw [← hsurvivor] at hlen hle
  exact take_padded (survivor m) _ hlen.2 hle.1 hle.2

/-- With room, the callback puts the message's event behind those on the queue. -/
theorem midiCallback_spec {self : MidiIo} {q : SpscQueue (ClapEvent ℚ)} {evs : List (ClapEvent ℚ)}
    (hq : self.inQueue = some q) (hecho : self.echoCb = false)
    (hevs : SpscQueue.Holds inQueueCapacity q evs) (hroom : evs.length + 1 < inQueueCapacity.val)
    {m : List Byte} (h : IsMessage m) :
    ∃ q', midiCallback self m = { self with inQueue := some q' } ∧
      SpscQueue.Holds inQueueCapacity q' (evs ++ [callbackEvent m]) := by
  have hne : m.isEmpty = false := by
    have hlen := messageLength_le h.1
    cases m with
    | nil => exact absurd hlen.1 (by simp)
    | cons s m => rfl
  obtain ⟨-, hholds⟩ := SpscQueue.push_spec hevs (callbackEvent m)
  rw [if_pos hroom] at hholds
  refine ⟨_, ?_, hholds⟩
  simp only [midiCallback, hne, hecho, hq, Bool.false_eq_true, if_false]

/-- The collector appends the message while it has room, and refuses it after. -/
theorem tryPush_callbackEvent (self : EventCollector) {m : List Byte} (h : IsMessage m) :
    (self.tryPush 0 (.event (callbackEvent m))).1 = decide (self.events.length < maxEvents) ∧
      (self.tryPush 0 (.event (callbackEvent m))).2.events =
        (self.events ++ [storedEvent m]).take maxEvents := by
  have hle := self.count_le
  have hpos : 0 < (storedEvent m).size.toNat := by
    rw [(storedEvent_bytes h).1]
    have hlen := messageLength_le h.1
    unfold storedSize
    split_ifs <;> omega
  by_cases hroom : self.events.length < maxEvents
  · have hall : (self.events ++ [storedEvent m]).length ≤ maxEvents := by
      rw [List.length_append, List.length_singleton]
      omega
    simp only [EventCollector.tryPush, dif_pos hroom, translate_callbackEvent h, if_pos hpos]
    rw [List.take_of_length_le hall]
    exact ⟨(decide_eq_true hroom).symm, rfl⟩
  · have hfull : self.events.length = maxEvents := by omega
    simp only [EventCollector.tryPush, dif_neg hroom]
    rw [List.take_left' hfull]
    exact ⟨(decide_eq_false hroom).symm, rfl⟩

/-! ## Sequences -/

/-- The port and the collector, with the input queue between them. -/
structure Relay where
  io : MidiIo
  collector : EventCollector

/-- A message arrives at the port; or an event is taken from the queue and handed to
    the collector as it is, its time 0. -/
inductive RelayOp where
  | receive (msg : List Byte)
  | forward

/-- One step; there is nothing to forward from an empty queue. -/
def relayStep (s : Relay) : RelayOp → Option Relay
  | .receive msg => some { s with io := midiCallback s.io msg }
  | .forward =>
      match s.io.inQueue with
      | none => none
      | some q =>
          match SpscQueue.pop inQueueCapacity q with
          | (none, _) => none
          | (some ev, q') =>
              some ⟨{ s.io with inQueue := some q' }, (s.collector.tryPush 0 (.event ev)).2⟩

/-- An open port without an echo callback, and an empty collector. -/
def relayMachine : Machine Relay RelayOp :=
  ⟨⟨⟨some .empty, false, []⟩, .empty⟩, relayStep⟩

/-- Complete messages arrive, and each finds room in the queue. -/
def FindsRoom (s : Relay) : RelayOp → Prop
  | .receive msg => IsMessage msg ∧ s.io.inQueue.elim False fun q =>
      (SpscQueue.push inQueueCapacity q (callbackEvent msg)).1 = true
  | .forward => True

/-- The messages of a schedule, in order. -/
def received (ops : List RelayOp) : List (List Byte) :=
  ops.filterMap fun op => match op with
    | .receive msg => some msg
    | .forward => none

/-- The messages received so far are those stored or refused and those on the queue. -/
structure RelayInv (msgs : List (List Byte)) (s : Relay) (passed waiting : List (List Byte)) :
    Prop where
  split : msgs = passed ++ waiting
  complete : ∀ m ∈ msgs, IsMessage m
  echo : s.io.echoCb = false
  queue : ∃ q, s.io.inQueue = some q ∧
    SpscQueue.Holds inQueueCapacity q (waiting.map callbackEvent)
  stored : s.collector.events = (passed.map storedEvent).take maxEvents

theorem RelayInv.receive {msgs passed waiting : List (List Byte)} {s : Relay}
    (h : RelayInv msgs s passed waiting) {m : List Byte} (hroom : FindsRoom s (.receive m)) :
    RelayInv (msgs ++ [m]) { s with io := midiCallback s.io m } passed (waiting ++ [m]) := by
  obtain ⟨q, hq, hholds⟩ := h.queue
  obtain ⟨hm, hpush⟩ := hroom
  rw [hq, Option.elim_some, (SpscQueue.push_spec hholds (callbackEvent m)).1,
    decide_eq_true_eq] at hpush
  obtain ⟨q', hcb, hholds'⟩ := midiCallback_spec hq h.echo hholds hpush hm
  refine ⟨?_, ?_, ?_, ?_, h.stored⟩
  · rw [h.split, List.append_assoc]
  · intro m' hm'
    rcases List.mem_append.mp hm' with hold | hnew
    · exact h.complete m' hold
    · rw [List.mem_singleton.mp hnew]
      exact hm
  · rw [hcb]
    exact h.echo
  · refine ⟨q', by rw [hcb], ?_⟩
    rw [List.map_append]
    exact hholds'

theorem RelayInv.forward {msgs passed waiting : List (List Byte)} {s s' : Relay}
    (h : RelayInv msgs s passed waiting) (hs : relayStep s .forward = some s') :
    ∃ passed' waiting', RelayInv msgs s' passed' waiting' := by
  obtain ⟨q, hq, hholds⟩ := h.queue
  simp only [relayStep, hq] at hs
  cases waiting with
  | nil =>
      have hpop : SpscQueue.pop inQueueCapacity q = (none, q) := SpscQueue.pop_spec hholds
      rw [hpop] at hs
      exact absurd hs (by simp)
  | cons m waiting =>
      rw [List.map_cons] at hholds
      obtain ⟨hval, hrest⟩ := SpscQueue.pop_spec hholds
      have hm : IsMessage m := h.complete m (by rw [h.split]; simp)
      generalize SpscQueue.pop inQueueCapacity q = r at hs hval hrest
      obtain ⟨o, q'⟩ := r
      have ho : o = some (callbackEvent m) := hval
      rw [ho] at hs
      obtain rfl := Option.some.inj hs
      refine ⟨passed ++ [m], waiting, ?_, h.complete, h.echo, ⟨q', rfl, hrest⟩, ?_⟩
      · rw [h.split, List.append_assoc, List.singleton_append]
      · -- once full, the collector stays as it is
        show (s.collector.tryPush 0 _).2.events = _
        have hcut : maxEvents - min maxEvents (passed.map storedEvent).length =
            maxEvents - (passed.map storedEvent).length := by omega
        rw [(tryPush_callbackEvent s.collector hm).2, h.stored, List.map_append, List.map_singleton,
          List.take_append, List.take_append, List.take_take, Nat.min_self, List.length_take, hcut]

/-- The invariant holds in every state reached. -/
theorem relayInv_of_reached {ops : List RelayOp} {s : Relay}
    (h : relayMachine.Reached FindsRoom ops s) :
    ∃ passed waiting, RelayInv (received ops) s passed waiting := by
  induction h with
  | start =>
      refine ⟨[], [], rfl, by simp [received], rfl, ⟨_, rfl, SpscQueue.holds_empty⟩, rfl⟩
  | @step ops s op s' _ hG hs ih =>
      obtain ⟨passed, waiting, hinv⟩ := ih
      cases op with
      | receive m =>
          obtain rfl := Option.some.inj hs
          refine ⟨passed, waiting ++ [m], ?_⟩
          rw [received, List.filterMap_append]
          exact hinv.receive hG
      | forward =>
          rw [received, List.filterMap_append]
          show ∃ passed waiting, RelayInv (received ops ++ []) s' passed waiting
          rw [List.append_nil]
          exact hinv.forward hs

/-- What is asked of a message: the collector stores one event that is the message,
    notes with their velocity rules. -/
def Survives (m : List Byte) : Prop :=
  ∀ self : EventCollector, self.events.length < maxEvents →
    ∃ e, (self.tryPush 0 (.event (callbackEvent m))).2.events = self.events ++ [e] ∧
      e.size.toNat = m.length ∧ e.bytes = survivor m

/-- MIDI survives the trip through CLAP events, except that system common is stored
    with three bytes.  A message goes to the queue as its event; the collector stores
    it as one event of the stored size, the message with zeros behind it; and a
    sequence is stored in order up to the collector's capacity. -/
theorem midi_through_clap :
    (∀ m, IsMessage m →
      (∀ (self : MidiIo) q evs, self.inQueue = some q → self.echoCb = false →
        SpscQueue.Holds inQueueCapacity q evs → evs.length + 1 < inQueueCapacity.val →
        ∃ q', midiCallback self m = { self with inQueue := some q' } ∧
          SpscQueue.Holds inQueueCapacity q' (evs ++ [callbackEvent m])) ∧
      (∀ self : EventCollector, self.events.length < maxEvents →
        ∃ e, (self.tryPush 0 (.event (callbackEvent m))).2.events = self.events ++ [e] ∧
          e.size.toNat = (if IsSystemCommon m then 3 else m.length) ∧
          e.bytes = survivor m ++ List.replicate (e.size.toNat - m.length) 0) ∧
      (¬ IsSystemCommon m → Survives m)) ∧
    ∀ ops s, relayMachine.Reached FindsRoom ops s →
      ∃ passed waiting, received ops = passed ++ waiting ∧
        (∃ q, s.io.inQueue = some q ∧
          SpscQueue.Holds inQueueCapacity q (waiting.map callbackEvent)) ∧
        s.collector.events = (passed.map storedEvent).take maxEvents := by
  refine ⟨fun m hm => ?_, fun ops s h => ?_⟩
  · obtain ⟨hsize, hbytes⟩ := storedEvent_bytes hm
    have hstored : ∀ self : EventCollector, self.events.length < maxEvents →
        (self.tryPush 0 (.event (callbackEvent m))).2.events = self.events ++ [storedEvent m] := by
      intro self hroom
      rw [(tryPush_callbackEvent self hm).2]
      apply List.take_of_length_le
      rw [List.length_append, List.length_singleton]
      omega
    -- the queue, the collector, and the bytes where no zeros are added
    refine ⟨fun self q evs hq hecho hevs hroom => midiCallback_spec hq hecho hevs hroom hm,
      fun self hroom => ⟨storedEvent m, hstored self hroom, hsize, ?_⟩,
      fun hcommon self hroom => ⟨storedEvent m, hstored self hroom, ?_, ?_⟩⟩
    · rw [hsize, hbytes]
    · rw [hsize, storedSize, if_neg hcommon]
    · rw [hbytes, storedSize, if_neg hcommon, Nat.sub_self, List.replicate_zero, List.append_nil]
  · obtain ⟨passed, waiting, hinv⟩ := relayInv_of_reached h
    exact ⟨passed, waiting, hinv.split, hinv.queue, hinv.stored⟩

/-- A note-on with velocity 0 and a tune request arrive, and one event is handed on. -/
def noteAndTune : List RelayOp := [.receive [0x90, 60, 0], .receive [0xF6], .forward]

/-- The note goes through as a note-off, alone and in that schedule, where the tune request waits
    in the queue. -/
theorem midi_through_clap_noteAndTune :
    (∃ q, midiCallback relayMachine.start.io [0x90, 60, 0] =
        { relayMachine.start.io with inQueue := some q } ∧
      SpscQueue.Holds inQueueCapacity q [callbackEvent [0x90, 60, 0]]) ∧
    (∃ e, (EventCollector.empty.tryPush 0 (.event (callbackEvent [0x90, 60, 0]))).2.events = [e] ∧
      e.size = 3 ∧ e.bytes = [0x80, 60, 0]) ∧
    ∃ s q, relayMachine.Reached FindsRoom noteAndTune s ∧ s.io.inQueue = some q ∧
      SpscQueue.Holds inQueueCapacity q [callbackEvent [0xF6]] ∧
      s.collector.events = [storedEvent [0x90, 60, 0]] := by
  have hnote : IsMessage [0x90, 60, 0] := by decide
  obtain ⟨hmessages, hruns⟩ := midi_through_clap
  obtain ⟨hqueued, hstored, -⟩ := hmessages _ hnote
  refine ⟨hqueued _ .empty [] rfl rfl SpscQueue.holds_empty (by decide), ?_, ?_⟩
  · obtain ⟨e, hevents, hsize, hbytes⟩ := hstored .empty (by decide)
    have hthree : e.size.toNat = 3 := hsize.trans (by decide)
    rw [hthree] at hbytes
    exact ⟨e, hevents, BitVec.eq_of_toNat_eq hthree, hbytes.trans (by decide)⟩
  · have hreach : relayMachine.Reached FindsRoom noteAndTune _ :=
      .step (.step (.step .start ⟨hnote, rfl⟩ rfl) ⟨by decide, rfl⟩ rfl) trivial rfl
    obtain ⟨passed, waiting, hsplit, ⟨q, hq, hholds⟩, hevents⟩ := hruns _ _ hreach
    have hone : ((passed.map storedEvent).take maxEvents).length = 1 := by
      rw [← hevents]
      decide +kernel
    have hpassed : passed.length = 1 := by
      rw [List.length_take, List.length_map] at hone
      have htwo := congrArg List.length hsplit
      rw [List.length_append] at htwo
      have hle : (received noteAndTune).length ≤ maxEvents := by decide
      omega
    obtain ⟨m, rfl⟩ := List.length_eq_one_iff.mp hpassed
    obtain ⟨rfl, rfl⟩ := List.cons.inj hsplit
    exact ⟨_, q, hreach, hq, hholds, hevents⟩

/-- A tune request is one byte and is stored as three. -/
theorem tune_request_padded :
    IsMessage [0xF6] ∧ ¬ Survives [0xF6] ∧
      (EventCollector.empty.tryPush 0 (.event (callbackEvent [0xF6]))).2.events.map
        (fun e => e.bytes) = [[0xF6, 0, 0]] := by
  have hbytes : (EventCollector.empty.tryPush 0 (.event (callbackEvent [0xF6]))).2.events.map
      (fun e => e.bytes) = [[0xF6, 0, 0]] := rfl
  refine ⟨by decide, fun h => ?_, hbytes⟩
  obtain ⟨e, hevents, -, hsame⟩ := h .empty (show 0 < maxEvents by decide)
  rw [hevents, List.map_append, List.map_singleton, hsame] at hbytes
  exact absurd hbytes (by decide)

end NomosRt.Midi
