/-
  NomosRt.InputEvent

  CLAP input events and the queue that carries them to the audio thread.

  `header.size`, `header.time`, `header.space_id` and `header.flags` are the same
  constants at every place that builds an event, so only the fields that vary are
  kept.
-/

import NomosRt.Spsc.Queue
import NomosRt.Lib.Words

namespace NomosRt

open NomosRt.Lib NomosRt.Spsc

/-- `clap_event_union`: `header.type` picks the member. -/
inductive ClapEvent (D : Type*) where
  /-- `CLAP_EVENT_NOTE_ON` or `CLAP_EVENT_NOTE_OFF`. -/
  | note (isOn : Bool) (noteId port channel key : BitVec 16) (velocity : D)
  /-- `CLAP_EVENT_MIDI`. -/
  | midi (port : BitVec 16) (data0 data1 data2 : Byte)
  deriving DecidableEq, Repr

/-- The value-initialised union. -/
instance {D : Type*} : Inhabited (ClapEvent D) := ⟨.midi 0 0 0 0⟩

/-- `in_queue_capacity`. -/
def inQueueCapacity : Capacity := ⟨256, by decide, by decide⟩

end NomosRt
