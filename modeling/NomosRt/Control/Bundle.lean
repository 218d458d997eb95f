/-
  NomosRt.Control.Bundle

  The events of one bundle, staged one push at a time.

  Two events of a bundle with the same `:at-tick` have the same beat.  The control
  thread pushes them separately, and the scheduler thread may end a tick between
  the two pushes: if the beat has come by then, the first fires in that tick and
  the second in a later one.
-/

import NomosRt.Control.Dispatch
import NomosRt.Scheduler.Drain

namespace NomosRt.Control

open NomosRt.Lib NomosRt.Osc NomosRt.Scheduler

section Bundle

variable {D : Type*} [CDouble D]

/-! ## The events of a bundle -/

/-- `at_tick` of a bundle's item. -/
def itemTick : Edn D → Int
  | .map em => getI em "at-tick" 0
  | _ => 0

/-- The beat of an event: `anchor + at_tick / 24.0`. -/
def tickBeat (anchor : D) (atTick : Int) : D :=
  CDouble.add anchor (CDouble.div (CDouble.ofInt atTick) (CDouble.ofInt 24))

/-- The event of a push into the staging queue. -/
def Enqueue.schedEvent : Enqueue D → Option (SchedEvent D)
  | .sched ev => some ev
  | _ => none

/-- The events a list of items stages, in order, each with its `:at-tick`. -/
def itemEvents (cfg : Config D) (anchor : D) (items : List (Edn D)) :
    List (Int × SchedEvent D) :=
  items.flatMap fun item =>
    ((bundleItem cfg anchor item).filterMap Enqueue.schedEvent).map (itemTick item, ·)

/-- The events of a parsed bundle. -/
def mapEvents (cfg : Config D) (m : List (Edn D × Edn D)) : List (Int × SchedEvent D) :=
  match Edn.findKw "at-beat" m, Edn.findKw "events" m with
  | some beat, some (.vector items) =>
      itemEvents cfg (asDouble (some beat) (CDouble.ofInt 0)) items
  | _, _ => []

/-- The events of a `msg_schedule_bundle` payload. -/
def bundleEvents (cfg : Config D) (payload : List Byte) : List (Int × SchedEvent D) :=
  if payload.isEmpty then []
  else
    match cfg.parse payload with
    | some (.map m) => if cfg.schedStaging then mapEvents cfg m else []
    | _ => []

/-- An item stages nothing, or one event at the beat of its tick. -/
theorem bundleItem_cases (cfg : Config D) (anchor : D) (item : Edn D) :
    bundleItem cfg anchor item = [] ∨
      ∃ ev, bundleItem cfg anchor item = [.sched ev] ∧
        ev.beat = tickBeat anchor (itemTick item) := by
  cases item with
  | map em =>
      simp only [bundleItem]
      split_ifs with hosc
      · cases buildOscEventFromEdn cfg em with
        | some oe => exact Or.inr ⟨_, rfl, rfl⟩
        | none => exact Or.inl rfl
      · exact Or.inr ⟨_, rfl, rfl⟩
  | _ => exact Or.inl rfl

theorem itemEvents_sched (cfg : Config D) (anchor : D) (items : List (Edn D)) :
    (itemEvents cfg anchor items).map (fun e => Enqueue.sched e.2) =
      items.flatMap (bundleItem cfg anchor) := by
  induction items with
  | nil => rfl
  | cons item items ih =>
      rw [itemEvents, List.flatMap_cons, List.map_append, List.flatMap_cons]
      congr 1
      rcases bundleItem_cases cfg anchor item with hnil | ⟨ev, hev, -⟩
      · rw [hnil]
        rfl
      · rw [hev]
        rfl

theorem itemEvents_beat {cfg : Config D} {anchor : D} {items : List (Edn D)} {atTick : Int}
    {ev : SchedEvent D} (h : (atTick, ev) ∈ itemEvents cfg anchor items) :
    ev.beat = tickBeat anchor atTick := by
  obtain ⟨item, -, hmem⟩ := List.mem_flatMap.mp h
  rcases bundleItem_cases cfg anchor item with hnil | ⟨ev', hev, hbeat⟩
  · rw [hnil] at hmem
    simp at hmem
  · rw [hev] at hmem
    simp only [Enqueue.schedEvent, List.filterMap_cons, List.filterMap_nil, List.map_cons,
      List.map_nil, List.mem_singleton, Prod.mk.injEq] at hmem
    rw [hmem.1, hmem.2, hbeat]

theorem mapEvents_sched (cfg : Config D) (m : List (Edn D × Edn D)) :
    (mapEvents cfg m).map (fun e => Enqueue.sched e.2) = scheduleBundle cfg m := by
  unfold mapEvents scheduleBundle
  cases Edn.findKw "at-beat" m with
  | none => rfl
  | some beat =>
      cases Edn.findKw "events" m with
      | none => rfl
      | some events =>
          cases events with
          | vector items => exact itemEvents_sched cfg _ items
          | _ => rfl

/-- The pushes of a bundle message are its events. -/
theorem dispatchMessage_bundle (cfg : Config D) (payload : List Byte) :
    dispatchMessage cfg msgScheduleBundle payload =
      (bundleEvents cfg payload).map fun e => .sched e.2 := by
  unfold dispatchMessage bundleEvents
  split
  · rfl
  · cases cfg.parse payload with
    | none => rfl
    | some v =>
        cases v with
        | map m =>
            have h1 : ¬ msgScheduleBundle = msgParamSet := by decide
            have h2 : ¬ (msgScheduleBundle = msgNoteOn ∨ msgScheduleBundle = msgNoteOff) := by
              decide
            simp only [if_neg h1, if_neg h2, if_true]
            by_cases hstaging : cfg.schedStaging
            · rw [if_pos hstaging, if_pos hstaging, mapEvents_sched]
            · rw [if_neg hstaging, if_neg hstaging]
              rfl
        | _ => rfl

/-- Events of one bundle with one `:at-tick` have one beat. -/
theorem bundleEvents_beat {cfg : Config D} {payload : List Byte} {atTick : Int}
    {ev ev' : SchedEvent D} (h : (atTick, ev) ∈ bundleEvents cfg payload)
    (h' : (atTick, ev') ∈ bundleEvents cfg payload) : ev.beat = ev'.beat := by
  have hanchor : ∃ anchor, ∀ x, (atTick, x) ∈ bundleEvents cfg payload →
      x.beat = tickBeat anchor atTick := by
    unfold bundleEvents
    split
    · exact ⟨CDouble.ofInt 0, by simp⟩
    · split
      · unfold mapEvents
        split
        · split
          · exact ⟨_, fun x => itemEvents_beat⟩
          · exact ⟨CDouble.ofInt 0, by simp⟩
        · exact ⟨CDouble.ofInt 0, by simp⟩
      · exact ⟨CDouble.ofInt 0, by simp⟩
  obtain ⟨anchor, hbeat⟩ := hanchor
  rw [hbeat ev h, hbeat ev' h']

/-! ## A bundle in a run -/

variable [LinearOrder D] [Inhabited D]

/-- The steps of the two threads at the program's event types. -/
abbrev BundleOp (D : Type*) := DrainOp D (ClapEvent D) OscEvent

/-- Event `k` of the bundle is pushed by step `pos k`, in order, and every push finds
    room. -/
structure BundleStaged (cs co : Capacity) (wired : Bool) (ops : List (BundleOp D))
    (bundle : List (Int × SchedEvent D)) (pos : Nat → Nat) : Prop where
  in_order : ∀ k l, k < l → l < bundle.length → pos k < pos l
  staged : ∀ k e, bundle[k]? = some e → Staged cs co wired ops (pos k) e.2

/-- A tick that fires an event of the bundle fires every event with the same
    `:at-tick`. -/
def FireTogether (cs co : Capacity) (wired : Bool) (ops : List (BundleOp D))
    (fired : Nat → List (Nat × SchedEvent D)) (bundle : List (Int × SchedEvent D))
    (pos : Nat → Nat) : Prop :=
  ∀ k l atTick ev ev', bundle[k]? = some (atTick, ev) → bundle[l]? = some (atTick, ev') →
    ∀ t now, EndsTick cs co wired ops t now →
      ((pos k, ev) ∈ fired t ↔ (pos l, ev') ∈ fired t)

/-- A tick that has reached their beat ends between the pushes of two events with the
    same `:at-tick`. -/
def TickSplits (cs co : Capacity) (wired : Bool) (ops : List (BundleOp D))
    (bundle : List (Int × SchedEvent D)) (pos : Nat → Nat) : Prop :=
  ∃ k l atTick ev ev' t now, k < l ∧ bundle[k]? = some (atTick, ev) ∧
    bundle[l]? = some (atTick, ev') ∧ pos k < t ∧ t < pos l ∧ EndsTick cs co wired ops t now ∧
    ev.beat ≤ now

variable {cs co : Capacity} {wired : Bool} {ops : List (BundleOp D)}
  {fired : Nat → List (Nat × SchedEvent D)} {bundle : List (Int × SchedEvent D)}
  {pos : Nat → Nat}

omit [CDouble D] in
/-- Without a due tick between their pushes, two events of one beat are fired by the
    same ticks. -/
theorem fired_iff_of_not_between (hrec : FiredRecord cs co wired ops fired) {i j : Nat}
    {ev ev' : SchedEvent D} (hi : Staged cs co wired ops i ev) (hj : Staged cs co wired ops j ev')
    (hbeat : ev.beat = ev'.beat) (hij : i < j) {t : Nat} {now : D}
    (hnone : ∀ u now, i < u → u < j → EndsTick cs co wired ops u now → now < ev.beat)
    (hend : EndsTick cs co wired ops t now) : (i, ev) ∈ fired t ↔ (j, ev') ∈ fired t := by
  rw [hrec.mem t now hend, hrec.mem t now hend, ← hbeat]
  constructor
  · rintro ⟨-, hit, hdue, hnot⟩
    have hjt : j < t := by
      by_contra hge
      -- the tick would end between the pushes, or at the second one
      rcases Nat.lt_or_ge t j with hlt | hle
      · exact absurd (hnone t now hit hlt hend) (not_lt_of_ge hdue)
      · obtain rfl : t = j := by omega
        exact absurd (hj.1.symm.trans hend.1) (by simp)
    refine ⟨hj, hjt, hdue, fun u now' hju hut hu => ?_⟩
    rw [← hbeat]
    exact hnot u now' (by omega) hut hu
  · rintro ⟨-, hjt, hdue, hnot⟩
    refine ⟨hi, by omega, hdue, fun u now' hiu hut hu => ?_⟩
    rcases Nat.lt_trichotomy u j with hlt | rfl | hgt
    · exact hnone u now' hiu hlt hu
    · exact absurd (hj.1.symm.trans hu.1) (by simp)
    · rw [hbeat]
      exact hnot u now' hgt hut hu

omit [CDouble D] in
/-- The first due tick after a push fires its event. -/
theorem exists_fired (hrec : FiredRecord cs co wired ops fired) {i j : Nat} {ev : SchedEvent D}
    (hi : Staged cs co wired ops i ev)
    (hsplit : ∃ t now, i < t ∧ t < j ∧ EndsTick cs co wired ops t now ∧ ev.beat ≤ now) :
    ∃ t now, t < j ∧ EndsTick cs co wired ops t now ∧ (i, ev) ∈ fired t := by
  classical
  have hex : ∃ t, ∃ now, i < t ∧ t < j ∧ EndsTick cs co wired ops t now ∧ ev.beat ≤ now := hsplit
  obtain ⟨now, hit, htj, hend, hdue⟩ := Nat.find_spec hex
  refine ⟨Nat.find hex, now, htj, hend, (hrec.mem _ now hend i ev).mpr ⟨hi, hit, hdue, ?_⟩⟩
  intro u now' hiu hut hu
  -- an earlier due tick would have been found first
  by_contra hge
  exact Nat.find_min hex hut ⟨now', hiu, by omega, hu, not_lt.mp hge⟩

omit [CDouble D] in
theorem not_fireTogether_of_splits (hrec : FiredRecord cs co wired ops fired)
    (hstaged : BundleStaged cs co wired ops bundle pos)
    (hsplit : TickSplits cs co wired ops bundle pos) :
    ¬ FireTogether cs co wired ops fired bundle pos := by
  intro htogether
  obtain ⟨k, l, atTick, ev, ev', u, now, hkl, hk, hl, hku, hul, hu, hdue⟩ := hsplit
  obtain ⟨t, now', htl, hend, hfired⟩ :=
    exists_fired hrec (hstaged.staged k _ hk) ⟨u, now, hku, hul, hu, hdue⟩
  have hlater := (htogether k l atTick ev ev' hk hl t now' hend).mp hfired
  have hlt := ((hrec.mem t now' hend _ _).mp hlater).2.1
  omega

theorem fireTogether_of_not_splits {cfg : Config D} {payload : List Byte}
    (hrec : FiredRecord cs co wired ops fired)
    (hstaged : BundleStaged cs co wired ops (bundleEvents cfg payload) pos)
    (hsplit : ¬ TickSplits cs co wired ops (bundleEvents cfg payload) pos) :
    FireTogether cs co wired ops fired (bundleEvents cfg payload) pos := by
  -- enough for two events in the order of their pushes
  have hlt : ∀ k l atTick ev ev', k < l → (bundleEvents cfg payload)[k]? = some (atTick, ev) →
      (bundleEvents cfg payload)[l]? = some (atTick, ev') →
      ∀ t now, EndsTick cs co wired ops t now →
        ((pos k, ev) ∈ fired t ↔ (pos l, ev') ∈ fired t) := by
    intro k l atTick ev ev' hkl hk hl t now hend
    have hbeat := bundleEvents_beat (List.mem_of_getElem? hk) (List.mem_of_getElem? hl)
    have hpos := hstaged.in_order k l hkl (List.getElem?_eq_some_iff.mp hl).1
    refine fired_iff_of_not_between hrec (hstaged.staged k _ hk) (hstaged.staged l _ hl) hbeat hpos
      (fun u now' hku hul hu => ?_) hend
    by_contra hge
    exact hsplit ⟨k, l, atTick, ev, ev', u, now', hkl, hk, hl, hku, hul, hu, not_lt.mp hge⟩
  intro k l atTick ev ev' hk hl t now hend
  rcases Nat.lt_trichotomy k l with hkl | rfl | hlk
  · exact hlt k l atTick ev ev' hkl hk hl t now hend
  · have hsame : some (atTick, ev) = some (atTick, ev') := hk.symm.trans hl
    rw [(Prod.mk.inj (Option.some.inj hsame)).2]
  · exact (hlt l k atTick ev' ev hlk hl hk t now hend).symm

/-- In a run that stages a whole bundle, its events with one `:at-tick` fire together
    exactly when no tick that has reached their beat ends between their pushes. -/
theorem bundle_fires_together_iff (cfg : Config D) (payload : List Byte) (cs co : Capacity)
    (wired : Bool) (ops : List (BundleOp D)) (pos : Nat → Nat)
    (hstaged : BundleStaged cs co wired ops (bundleEvents cfg payload) pos) :
    ∃ fired, FiredRecord cs co wired ops fired ∧
      (FireTogether cs co wired ops fired (bundleEvents cfg payload) pos ↔
        ¬ TickSplits cs co wired ops (bundleEvents cfg payload) pos) := by
  obtain ⟨fired, hrec⟩ := exists_firedRecord cs co wired ops
  refine ⟨fired, hrec, fun htogether hsplit => ?_, fireTogether_of_not_splits hrec hstaged⟩
  exact not_fireTogether_of_splits hrec hstaged hsplit htogether

end Bundle

/-! ## Two notes on one tick -/

section TwoNotes

/-- A bundle of two notes at tick 0. -/
def twoNotesText : List Byte :=
  ascii "\x7b:at-beat 0 :events [\x7b:at-tick 0 :key 60\x7d \x7b:at-tick 0 :key 64\x7d]\x7d"

/-- `edn::parse` on this text. -/
def parseTwoNotes (text : List Byte) : Option (Edn Int) :=
  if text = twoNotesText then
    some (.map [(.keyword "at-beat", .int 0), (.keyword "events", .vector
      [.map [(.keyword "at-tick", .int 0), (.keyword "key", .int 60)],
       .map [(.keyword "at-tick", .int 0), (.keyword "key", .int 64)]])])
  else none

/-- A scheduler is wired. -/
def scheduledConfig : Config Int := ⟨true, parseTwoNotes, fun _ => none⟩

attribute [local instance] Osc.countingDouble

/-- The note-on with the given key, due at beat 0. -/
def noteAtZero (key : BitVec 16) : SchedEvent Int := ⟨0, .clap, .note true (-1) 0 0 key 0, default⟩

theorem bundleEvents_twoNotes :
    bundleEvents scheduledConfig twoNotesText = [(0, noteAtZero 60), (0, noteAtZero 64)] := by
  rfl

/-- Both notes are staged, then a tick comes. -/
def unsplitRun : List (BundleOp Int) :=
  [.push (noteAtZero 60), .push (noteAtZero 64), .enter 0, .drain, .drain, .drain]

/-- A tick of beat 0 comes between the two pushes, another after them. -/
def splitRun : List (BundleOp Int) :=
  [.push (noteAtZero 60), .enter 0, .drain, .drain,
   .push (noteAtZero 64), .enter 0, .drain, .drain]

/-- The two notes of the bundle, by their place in it. -/
theorem twoNotes_get {k : Nat} {e : Int × SchedEvent Int}
    (h : (bundleEvents scheduledConfig twoNotesText)[k]? = some e) :
    (k = 0 ∧ e = (0, noteAtZero 60)) ∨ (k = 1 ∧ e = (0, noteAtZero 64)) := by
  rw [bundleEvents_twoNotes] at h
  rcases k with _ | _ | k
  · exact Or.inl ⟨rfl, (Option.some.inj h).symm⟩
  · exact Or.inr ⟨rfl, (Option.some.inj h).symm⟩
  · simp at h

/-- Staged without a tick in between, the two notes fire together. -/
theorem bundle_fires_together_unsplitRun :
    BundleStaged schedQueueCapacity schedQueueCapacity true unsplitRun
      (bundleEvents scheduledConfig twoNotesText) id ∧
    ∃ fired, FiredRecord schedQueueCapacity schedQueueCapacity true unsplitRun fired ∧
      FireTogether schedQueueCapacity schedQueueCapacity true unsplitRun fired
        (bundleEvents scheduledConfig twoNotesText) id := by
  have hstaged : BundleStaged schedQueueCapacity schedQueueCapacity true unsplitRun
      (bundleEvents scheduledConfig twoNotesText) id := by
    refine ⟨fun k l hkl _ => hkl, fun k e he => ?_⟩
    rcases twoNotes_get he with ⟨rfl, rfl⟩ | ⟨rfl, rfl⟩
    · exact ⟨rfl, rfl⟩
    · exact ⟨rfl, rfl⟩
  obtain ⟨fired, hrec, hiff⟩ := bundle_fires_together_iff scheduledConfig twoNotesText
    schedQueueCapacity schedQueueCapacity true unsplitRun id hstaged
  refine ⟨hstaged, fired, hrec, hiff.mpr ?_⟩
  rintro ⟨k, l, atTick, ev, ev', t, now, hkl, hk, hl, hkt, htl, -⟩
  -- the pushes are neighbours
  have hk0 : k = 0 ∨ k = 1 := (twoNotes_get hk).imp And.left And.left
  have hl1 : l = 0 ∨ l = 1 := (twoNotes_get hl).imp And.left And.left
  simp only [id] at hkt htl
  omega

/-- A tick between the pushes fires the first note, and the next tick the second: both
    are staged, and they do not fire together. -/
theorem bundle_split_by_tick :
    BundleStaged schedQueueCapacity schedQueueCapacity true splitRun
      (bundleEvents scheduledConfig twoNotesText) (4 * ·) ∧
    ∀ fired, FiredRecord schedQueueCapacity schedQueueCapacity true splitRun fired →
      (0, noteAtZero 60) ∈ fired 3 ∧ (4, noteAtZero 64) ∈ fired 7 ∧
      ¬ FireTogether schedQueueCapacity schedQueueCapacity true splitRun fired
        (bundleEvents scheduledConfig twoNotesText) (4 * ·) := by
  have hstaged : BundleStaged schedQueueCapacity schedQueueCapacity true splitRun
      (bundleEvents scheduledConfig twoNotesText) (4 * ·) := by
    refine ⟨fun k l hkl _ => by omega, fun k e he => ?_⟩
    rcases twoNotes_get he with ⟨rfl, rfl⟩ | ⟨rfl, rfl⟩
    · exact ⟨rfl, rfl⟩
    · exact ⟨rfl, rfl⟩
  have hend3 : EndsTick schedQueueCapacity schedQueueCapacity true splitRun 3 0 := ⟨rfl, rfl, rfl⟩
  have hend7 : EndsTick schedQueueCapacity schedQueueCapacity true splitRun 7 0 := ⟨rfl, rfl, rfl⟩
  refine ⟨hstaged, fun fired hrec => ⟨?_, ?_, not_fireTogether_of_splits hrec hstaged ?_⟩⟩
  · refine (hrec.mem 3 0 hend3 0 _).mpr ⟨⟨rfl, rfl⟩, by omega, le_refl _, ?_⟩
    -- steps 1 and 2 enter the tick and take the note from the ring
    intro t now h0t ht3 hend
    obtain rfl | rfl : t = 1 ∨ t = 2 := by omega
    · exact absurd hend.1 (by simp [splitRun])
    · exact absurd hend.2.2 nofun
  · refine (hrec.mem 7 0 hend7 4 _).mpr ⟨⟨rfl, rfl⟩, by omega, le_refl _, ?_⟩
    intro t now h4t ht7 hend
    obtain rfl | rfl : t = 5 ∨ t = 6 := by omega
    · exact absurd hend.1 (by simp [splitRun])
    · exact absurd hend.2.2 nofun
  · refine ⟨0, 1, 0, noteAtZero 60, noteAtZero 64, 3, 0, by omega, ?_, ?_,
      show 4 * 0 < 3 by omega, show 3 < 4 * 1 by omega, hend3, le_refl _⟩
    · rw [bundleEvents_twoNotes]
      rfl
    · rw [bundleEvents_twoNotes]
      rfl

end TwoNotes

end NomosRt.Control
