/-
  NomosRt.Control.NoteForms

  The two ways of scheduling a note: `msg_note_on` or `msg_note_off` with a `:beat`,
  and a bundle of one event at `:at-beat`.

  The handlers read the fields through lambdas of their own.  They differ in the
  beat only: the bundle adds the event's tick, 0/24 where there is none, which
  leaves the number as it is and may change the sign of a zero.
-/

import NomosRt.Control.Bundle
import NomosRt.Control.Narrowing

namespace NomosRt.Control

open NomosRt.Lib NomosRt.Scheduler NomosRt.Spsc

section Forms

variable {D : Type*} [CDouble D]

/-- `value` takes a double to the number it stands for: adding zero, or zero
    twenty-fourths, does not change it. -/
structure ReadsNumber {V : Type*} (value : D → V) : Prop where
  zero_div : CDouble.div (CDouble.ofInt 0) (CDouble.ofInt 24) = (CDouble.ofInt 0 : D)
  add_zero : ∀ x : D, value (CDouble.add x (CDouble.ofInt 0)) = value x

/-- `m'` is `m` with `kw` set to `v`. -/
def Plus (m : List (Edn D × Edn D)) (kw : String) (v : Edn D) (m' : List (Edn D × Edn D)) : Prop :=
  ∀ kw', Edn.findKw kw' m' = if kw' = kw then some v else Edn.findKw kw' m

/-- `m` has no `:beat`, no `:at-tick` and no `:type`. -/
def IsNoteFields (m : List (Edn D × Edn D)) : Prop :=
  Edn.findKw "beat" m = none ∧ Edn.findKw "at-tick" m = none ∧ Edn.findKw "type" m = none

/-- The message type of a note. -/
def noteCode (isOn : Bool) : Byte := if isOn then msgNoteOn else msgNoteOff

/-- The `:type` of a note in a bundle. -/
def noteKeyword (isOn : Bool) : String := if isOn then "note-on" else "note-off"

/-- The staging queue after the pushes of a message. -/
def stageAll (c : Capacity) (staging : SpscQueue (SchedEvent D)) (pushes : List (Enqueue D)) :
    SpscQueue (SchedEvent D) :=
  (pushes.filterMap Enqueue.schedEvent).foldl (fun q ev => (SpscQueue.push c q ev).2) staging

/-- Two scheduled events that differ in the sign of a zero beat at most. -/
def SameNote {V : Type*} (value : D → V) (e e' : SchedEvent D) : Prop :=
  value e.beat = value e'.beat ∧ e.kind = e'.kind ∧ e.event = e'.event ∧ e.osc = e'.osc

variable {m noteMap eventMap : List (Edn D × Edn D)} {b : Edn D} {isOn : Bool}

/-- The note both forms stage. -/
def noteOf (isOn : Bool) (m : List (Edn D × Edn D)) : ClapEvent D :=
  makeNoteEvent isOn (getI16 m "key" 60) (getI16 m "channel" 0) (getI16 m "port" 0)
    (getI16 m "note-id" (-1)) (getDbl m "velocity" (CDouble.ofInt 0))

/-- A note does not see a field that is not one of its own. -/
theorem Plus.noteOf {kw : String} {v : Edn D} {m' : List (Edn D × Edn D)} (h : Plus m kw v m')
    (hkw : kw ∉ ["key", "channel", "port", "note-id", "velocity"]) :
    noteOf isOn m' = noteOf isOn m := by
  have hsame : ∀ kw' ∈ ["key", "channel", "port", "note-id", "velocity"],
      Edn.findKw kw' m' = Edn.findKw kw' m := by
    intro kw' hkw'
    rw [h kw', if_neg]
    rintro rfl
    exact hkw hkw'
  unfold Control.noteOf getI16 getDbl
  rw [hsame "key" (by decide), hsame "channel" (by decide), hsame "port" (by decide),
    hsame "note-id" (by decide), hsame "velocity" (by decide)]

/-- A note with a `:beat` is staged for it; a beat that is no number counts as 0. -/
theorem noteOnOff_beat {cfg : Config D} (hstaging : cfg.schedStaging = true)
    (h : Plus m "beat" b noteMap) :
    noteOnOff cfg isOn noteMap =
      [.sched ⟨asDouble (some b) (CDouble.ofInt 0), .clap, noteOf isOn m, default⟩] := by
  have hfound : Edn.findKw "beat" noteMap = some b := by rw [h, if_pos rfl]
  have hbeat : getDbl noteMap "beat" (CDouble.ofInt 0) = asDouble (some b) (CDouble.ofInt 0) := by
    rw [getDbl, hfound]
  have hnote : noteOf isOn noteMap = noteOf isOn m := h.noteOf (by decide)
  show (if (Edn.findKw "beat" noteMap).isSome ∧ cfg.schedStaging then
    [Enqueue.sched ⟨_, .clap, noteOf isOn noteMap, _⟩] else _) = _
  rw [if_pos ⟨by rw [hfound]; rfl, hstaging⟩, hbeat, hnote]

/-- An event of a bundle without a tick is staged at the anchor plus 0/24. -/
theorem bundleItem_noteKeyword (cfg : Config D) (anchor : D) (hm : IsNoteFields m)
    (h : Plus m "type" (.keyword (noteKeyword isOn)) eventMap) :
    bundleItem cfg anchor (.map eventMap) =
      [.sched ⟨CDouble.add anchor (CDouble.div (CDouble.ofInt 0) (CDouble.ofInt 24)), .clap,
        noteOf isOn m, default⟩] := by
  have htype : itemType eventMap = some (noteKeyword isOn) := by
    rw [itemType, h "type", if_pos rfl]
  have hosc : ¬ IsOscItem eventMap := by
    rw [IsOscItem, htype]
    cases isOn <;> decide
  have hisOn : decide (itemType eventMap ≠ some "note-off") = isOn := by
    rw [htype]
    cases isOn <;> rfl
  have hbeat : itemBeat anchor eventMap =
      CDouble.add anchor (CDouble.div (CDouble.ofInt 0) (CDouble.ofInt 24)) := by
    rw [itemBeat, getI, h "at-tick", if_neg (by decide), hm.2.1]
  rw [bundleItem_note cfg anchor hosc, hisOn, hbeat]
  show [Enqueue.sched ⟨_, _, noteOf isOn eventMap, _⟩] = _
  rw [h.noteOf (by decide)]

omit [CDouble D] in
/-- A queue that is not full stages the event. -/
theorem holds_stageAll {c : Capacity} {staging : SpscQueue (SchedEvent D)}
    {staged : List (SchedEvent D)} (h : SpscQueue.Holds c staging staged)
    (hroom : staged.length + 1 < c.val) (e : SchedEvent D) :
    SpscQueue.Holds c (stageAll c staging [.sched e]) (staged ++ [e]) := by
  have hpush := (SpscQueue.push_spec h e).2
  rw [if_pos hroom] at hpush
  exact hpush

/-- The two forms stage the same note, for every value of the fields and of the
    beat. -/
theorem note_forms_agree {V : Type*} (value : D → V) (hvalue : ReadsNumber value) (cfg : Config D)
    (hstaging : cfg.schedStaging = true) (isOn : Bool) (m : List (Edn D × Edn D))
    (hm : IsNoteFields m) (b : Edn D)
    (notePayload bundlePayload : List Byte) (hne : notePayload ≠ []) (hne' : bundlePayload ≠ [])
    (noteMap bundleMap eventMap : List (Edn D × Edn D))
    (hnote : cfg.parse notePayload = some (.map noteMap)) (hbeat : Plus m "beat" b noteMap)
    (hbundle : cfg.parse bundlePayload = some (.map bundleMap))
    (hat : Edn.findKw "at-beat" bundleMap = some b)
    (hevents : Edn.findKw "events" bundleMap = some (.vector [.map eventMap]))
    (htype : Plus m "type" (.keyword (noteKeyword isOn)) eventMap)
    (staging : SpscQueue (SchedEvent D)) (staged : List (SchedEvent D))
    (hholds : SpscQueue.Holds schedQueueCapacity staging staged)
    (hroom : staged.length + 1 < schedQueueCapacity.val) :
    ∃ e e', SameNote value e e' ∧
      SpscQueue.Holds schedQueueCapacity
        (stageAll schedQueueCapacity staging (dispatchMessage cfg (noteCode isOn) notePayload))
        (staged ++ [e]) ∧
      SpscQueue.Holds schedQueueCapacity
        (stageAll schedQueueCapacity staging (dispatchMessage cfg msgScheduleBundle bundlePayload))
        (staged ++ [e']) := by
  have hfirst : dispatchMessage cfg (noteCode isOn) notePayload =
      [.sched ⟨asDouble (some b) (CDouble.ofInt 0), .clap, noteOf isOn m, default⟩] := by
    have hon : decide (noteCode isOn = msgNoteOn) = isOn := by cases isOn <;> decide
    have hcode : noteCode isOn ≠ msgParamSet ∧
        (noteCode isOn = msgNoteOn ∨ noteCode isOn = msgNoteOff) := by
      cases isOn <;> decide
    rw [dispatchMessage, isEmpty_eq_false hne, hnote]
    simp only [Bool.false_eq_true, if_false, hcode.1, hcode.2, if_true, hon]
    exact noteOnOff_beat hstaging hbeat
  have hsecond : dispatchMessage cfg msgScheduleBundle bundlePayload =
      [.sched ⟨CDouble.add (asDouble (some b) (CDouble.ofInt 0))
        (CDouble.div (CDouble.ofInt 0) (CDouble.ofInt 24)), .clap, noteOf isOn m, default⟩] := by
    have hcode : msgScheduleBundle ≠ msgParamSet ∧
        ¬ (msgScheduleBundle = msgNoteOn ∨ msgScheduleBundle = msgNoteOff) := by
      decide
    rw [dispatchMessage, isEmpty_eq_false hne', hbundle]
    simp only [Bool.false_eq_true, if_false, hcode.1, hcode.2, if_true, hstaging]
    rw [scheduleBundle, hat, hevents]
    simp only [List.flatMap_cons, List.flatMap_nil, List.append_nil]
    exact bundleItem_noteKeyword cfg _ hm htype
  rw [hfirst, hsecond]
  refine ⟨_, _, ?_, holds_stageAll hholds hroom _, holds_stageAll hholds hroom _⟩
  refine ⟨?_, rfl, rfl, rfl⟩
  -- the bundle adds its missing `:at-tick` as 0 / 24, which leaves the beat's number alone
  show value _ = value (CDouble.add _ _)
  rw [hvalue.zero_div, hvalue.add_zero]

end Forms

/-! ## A note at beat 4 -/

section AtBeatFour

attribute [local instance] Osc.countingDouble

/-- `{:key 64 :velocity 1}`. -/
def key64 : List (Edn Int × Edn Int) := [(.keyword "key", .int 64), (.keyword "velocity", .int 1)]

/-- Both messages for `key64` at beat 4. -/
def beatFour : Config Int where
  schedStaging := true
  parse payload :=
    if payload = [0x41] then some (.map ((.keyword "beat", .int 4) :: key64))
    else if payload = [0x45] then
      some (.map [(.keyword "at-beat", .int 4), (.keyword "events",
        .vector [.map ((.keyword "type", .keyword "note-on") :: key64)])])
    else none
  inetPton _ := none

theorem plus_cons {D : Type*} [CDouble D] (m : List (Edn D × Edn D)) (kw : String) (v : Edn D) :
    Plus m kw v ((.keyword kw, v) :: m) := by
  intro kw'
  rw [Edn.findKw]
  by_cases h : kw = kw'
  · rw [if_pos h, if_pos h.symm]
  · rw [if_neg h, if_neg (Ne.symm h)]

theorem note_forms_beatFour :
    ∃ e e', SameNote id e e' ∧
      SpscQueue.Holds schedQueueCapacity
        (stageAll schedQueueCapacity .empty (dispatchMessage beatFour msgNoteOn [0x41])) [e] ∧
      SpscQueue.Holds schedQueueCapacity
        (stageAll schedQueueCapacity .empty (dispatchMessage beatFour msgScheduleBundle [0x45])) [e'] :=
  note_forms_agree id ⟨rfl, fun x => Int.add_zero x⟩ beatFour rfl true key64 ⟨rfl, rfl, rfl⟩ (.int 4)
    [0x41] [0x45] (by decide) (by decide) _ _ _ rfl (plus_cons key64 "beat" (.int 4)) rfl rfl rfl
    (plus_cons key64 "type" (.keyword "note-on")) .empty [] SpscQueue.holds_empty (by decide)

end AtBeatFour

end NomosRt.Control
