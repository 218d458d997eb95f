/-
  NomosRt.Scheduler.Tick

  `event_scheduler` (include/nomos/rt/event_scheduler.hpp): the control thread
  pushes beat-tagged events into the staging ring, and each `tick` drains the
  ring, keeps the pending list stably sorted by beat and fires its due prefix.

  Beats are drawn from a linear order `B` (the doubles without NaN); CLAP and OSC
  payloads are opaque types `C` and `O`.  `osc_out_` is `none` when it is unset.
  A tick's log records every due event in firing order together with what became
  of it: handed to the callback, pushed to `osc_out_` (with the answer of that
  push), or dropped because no queue is wired.
-/

import Mathlib.Data.List.Basic
import Mathlib.Order.Defs.LinearOrder
import NomosRt.Spsc.Queue

namespace NomosRt.Scheduler

open NomosRt.Lib NomosRt.Spsc

/-- Which payload a scheduled event carries. -/
inductive SchedKind where
  | clap
  | osc
deriving DecidableEq, Repr, Inhabited

/-- One beat-tagged event; only the payload selected by `kind` is meaningful. -/
structure ScheduledEvent (B C O : Type*) where
  beat : B
  kind : SchedKind
  event : C
  osc : O
deriving DecidableEq, Repr, Inhabited

/-- `sched_queue_capacity`. -/
def schedQueueCapacity : Capacity := ⟨1024, by decide, by decide⟩

variable {B C O : Type*}

/-- The scheduler's members; `oscOut` is the queue behind the `osc_out_` pointer. -/
structure EventScheduler (B C O : Type*) where
  staging : SpscQueue (ScheduledEvent B C O)
  pending : List (ScheduledEvent B C O)
  oscOut : Option (SpscQueue O)

/-- What `tick` did with a due event. -/
inductive Fate where
  | callback
  | oscPush (accepted : Bool)
  | noOscOut
deriving DecidableEq, Repr

/-- A due event and its fate. -/
structure Delivery (B C O : Type*) where
  ev : ScheduledEvent B C O
  fate : Fate
deriving DecidableEq, Repr

/-- `while (auto ev = staging_.pop()) pending_.push_back(*ev);`
    A ring of capacity `cs` empties in fewer than `cs` rounds (`drain_spec`), so
    `cs.val` rounds never run out. -/
def drainLoop (cs : Capacity) :
    Nat → SpscQueue (ScheduledEvent B C O) → List (ScheduledEvent B C O) →
      SpscQueue (ScheduledEvent B C O) × List (ScheduledEvent B C O)
  | 0, q, pending => (q, pending)
  | fuel + 1, q, pending =>
      match SpscQueue.pop cs q with
      | (none, q') => (q', pending)
      | (some ev, q') => drainLoop cs fuel q' (pending ++ [ev])

def drain (cs : Capacity) (q : SpscQueue (ScheduledEvent B C O))
    (pending : List (ScheduledEvent B C O)) :
    SpscQueue (ScheduledEvent B C O) × List (ScheduledEvent B C O) :=
  drainLoop cs cs.val q pending

/-- The body of the firing loop for one due event. -/
def fireOne (co : Capacity) (ev : ScheduledEvent B C O) (oscOut : Option (SpscQueue O)) :
    Delivery B C O × Option (SpscQueue O) :=
  match ev.kind with
  | .osc =>
      match oscOut with
      | some q =>
          let r := SpscQueue.push co q ev.osc
          (⟨ev, .oscPush r.1⟩, some r.2)
      | none => (⟨ev, .noOscOut⟩, none)
  | .clap => (⟨ev, .callback⟩, oscOut)

section Ordered

variable [LinearOrder B]

/-- `std::stable_sort` by `a.beat < b.beat`. -/
def stableSortByBeat (pending : List (ScheduledEvent B C O)) : List (ScheduledEvent B C O) :=
  pending.mergeSort fun a b => decide (a.beat ≤ b.beat)

/-- `while (it != pending_.end() && it->beat <= current_beat) { ... ++it; }`,
    returning the log, the list from `it` on, and the OSC queue. -/
def fireLoop (co : Capacity) (currentBeat : B) :
    List (ScheduledEvent B C O) → Option (SpscQueue O) →
      List (Delivery B C O) × List (ScheduledEvent B C O) × Option (SpscQueue O)
  | [], oscOut => ([], [], oscOut)
  | ev :: rest, oscOut =>
      if ev.beat ≤ currentBeat then
        let one := fireOne co ev oscOut
        let more := fireLoop co currentBeat rest one.2
        (one.1 :: more.1, more.2)
      else ([], ev :: rest, oscOut)

/-- `event_scheduler::tick`, with the log of what it fired. -/
def tick (cs co : Capacity) (s : EventScheduler B C O) (currentBeat : B) :
    List (Delivery B C O) × EventScheduler B C O :=
  let drained := drain cs s.staging s.pending
  if drained.2 = [] then ([], { s with staging := drained.1, pending := drained.2 })
  else
    let fired := fireLoop co currentBeat (stableSortByBeat drained.2) s.oscOut
    (fired.1, ⟨drained.1, fired.2.1, fired.2.2⟩)

end Ordered

/-! ## Draining and firing -/

/-- Draining a ring that holds `xs` appends `xs` and leaves the ring empty. -/
theorem drainLoop_spec {cs : Capacity} {xs : List (ScheduledEvent B C O)}
    {q : SpscQueue (ScheduledEvent B C O)} (h : SpscQueue.Holds cs q xs)
    (fuel : Nat) (hfuel : xs.length < fuel) (pending : List (ScheduledEvent B C O)) :
    (drainLoop cs fuel q pending).2 = pending ++ xs ∧
      SpscQueue.Holds cs (drainLoop cs fuel q pending).1 [] := by
  -- induction on what the ring holds; each round pops one, and the fuel is more than that
  induction xs generalizing q fuel pending with
  | nil =>
      obtain ⟨fuel, rfl⟩ := Nat.exists_eq_succ_of_ne_zero (Nat.ne_zero_of_lt hfuel)
      have hpop := SpscQueue.pop_spec h
      simp only at hpop
      simp only [drainLoop, hpop]
      exact ⟨by simp, h⟩
  | cons x xs ih =>
      obtain ⟨fuel, rfl⟩ := Nat.exists_eq_succ_of_ne_zero (Nat.ne_zero_of_lt hfuel)
      obtain ⟨hval, hrest⟩ := SpscQueue.pop_spec h
      have hstep : drainLoop cs (fuel + 1) q pending
          = drainLoop cs fuel (SpscQueue.pop cs q).2 (pending ++ [x]) := by
        rw [drainLoop]
        split
        · rename_i q' heq
          rw [heq] at hval
          cases hval
        · rename_i ev q' heq
          rw [heq] at hval ⊢
          cases hval
          rfl
      rw [hstep]
      have := ih hrest fuel (by simpa using hfuel) (pending ++ [x])
      simpa using this

theorem drain_spec {cs : Capacity} {xs : List (ScheduledEvent B C O)}
    {q : SpscQueue (ScheduledEvent B C O)} (h : SpscQueue.Holds cs q xs)
    (pending : List (ScheduledEvent B C O)) :
    (drain cs q pending).2 = pending ++ xs ∧ SpscQueue.Holds cs (drain cs q pending).1 [] :=
  drainLoop_spec h cs.val h.length_lt pending

/-- The OSC events a log delivered to `osc_out_`, in order. -/
def oscAccepted (log : List (Delivery B C O)) : List O :=
  log.filterMap fun d => if d.fate = .oscPush true then some d.ev.osc else none

/-- The fate a due event must have: clap events reach the callback, osc events the
    queue if one is wired. -/
def FateOk (wired : Bool) (d : Delivery B C O) : Prop :=
  match d.ev.kind with
  | .clap => d.fate = .callback
  | .osc => if wired then ∃ accepted, d.fate = .oscPush accepted else d.fate = .noOscOut

/-- The OSC queue holds `os`, if it is wired at all. -/
def OscHolds (co : Capacity) (oscOut : Option (SpscQueue O)) (os : List O) : Prop :=
  match oscOut with
  | some q => SpscQueue.Holds co q os
  | none => os = []

/-- Firing one event appends to the OSC queue exactly what its push accepted. -/
theorem fireOne_spec {co : Capacity} (ev : ScheduledEvent B C O)
    {oscOut : Option (SpscQueue O)} {os : List O} (h : OscHolds co oscOut os) :
    (fireOne co ev oscOut).1.ev = ev ∧
      FateOk oscOut.isSome (fireOne co ev oscOut).1 ∧
      (fireOne co ev oscOut).2.isSome = oscOut.isSome ∧
      OscHolds co (fireOne co ev oscOut).2 (os ++ oscAccepted [(fireOne co ev oscOut).1]) := by
  unfold fireOne
  cases hkind : ev.kind with
  | clap => simp [FateOk, hkind, oscAccepted, h]
  | osc =>
      cases oscOut with
      | none => simpa [FateOk, hkind, oscAccepted, OscHolds] using h
      | some q =>
          obtain ⟨hans, hholds⟩ := SpscQueue.push_spec h ev.osc
          refine ⟨rfl, ?_, rfl, ?_⟩
          · simp [FateOk, hkind]
          · by_cases hroom : os.length + 1 < co.val
            · simp only [hroom, decide_true, if_true] at hans hholds
              simpa [OscHolds, oscAccepted, hans] using hholds
            · simp only [hroom, decide_false, if_false] at hans hholds
              simpa [OscHolds, oscAccepted, hans] using hholds

section Ordered

variable [LinearOrder B]

/-- The firing loop fires the longest due prefix and leaves the rest. -/
theorem fireLoop_spec {co : Capacity} (now : B) (evs : List (ScheduledEvent B C O))
    {oscOut : Option (SpscQueue O)} {os : List O} (h : OscHolds co oscOut os) :
    let r := fireLoop co now evs oscOut
    r.1.map Delivery.ev = evs.takeWhile (fun ev => decide (ev.beat ≤ now)) ∧
      r.2.1 = evs.dropWhile (fun ev => decide (ev.beat ≤ now)) ∧
      (∀ d ∈ r.1, FateOk oscOut.isSome d) ∧
      r.2.2.isSome = oscOut.isSome ∧
      OscHolds co r.2.2 (os ++ oscAccepted r.1) := by
  induction evs generalizing oscOut os with
  | nil => simpa [fireLoop, oscAccepted] using h
  | cons ev rest ih =>
      -- the loop breaks at the first event that is not due
      by_cases hdue : ev.beat ≤ now
      · obtain ⟨hev, hfate, hsome, hosc⟩ := fireOne_spec ev h
        obtain ⟨hlog, hrest, hfates, hsome', hosc'⟩ := ih hosc
        simp only [fireLoop, hdue, if_true]
        refine ⟨?_, ?_, ?_, ?_, ?_⟩
        · simp [hev, hdue, hlog]
        · simp [hdue, hrest]
        · intro d hd
          rcases List.mem_cons.mp hd with rfl | hd
          · exact hfate
          · exact hsome ▸ hfates d hd
        · rw [hsome', hsome]
        · have hsplit : oscAccepted ((fireOne co ev oscOut).1 ::
              (fireLoop co now rest (fireOne co ev oscOut).2).1)
              = oscAccepted [(fireOne co ev oscOut).1] ++
                oscAccepted (fireLoop co now rest (fireOne co ev oscOut).2).1 := by
            simp only [oscAccepted, ← List.filterMap_append, List.singleton_append]
          rw [hsplit, ← List.append_assoc]
          exact hosc'
      · simpa [fireLoop, hdue, oscAccepted] using h

end Ordered

end NomosRt.Scheduler
