/-
  NomosRt.Scheduler.Drain

  The scheduler with its drain loop taken apart.

  In `Scheduler.Run` a tick is one step.  Here the scheduler thread enters a tick,
  pops the staging ring one event at a time, and fires once a pop has found the
  ring empty; the control thread may push between any two of these steps.  A step
  out of turn (a pop outside a tick, a second entry) changes nothing.

  `DrainInv` says which events are in the ring or the pending list after a prefix
  of the run, `exists_firedRecord` which tick fires which push.
-/

import NomosRt.Scheduler.Run

namespace NomosRt.Scheduler

open NomosRt.Lib NomosRt.Spsc

/-! ## Steps -/

/-- The control thread's push, the scheduler thread's entry into
    `tick(current_beat)` and one round of its drain loop, and the sender's pop. -/
inductive DrainOp (B C O : Type*) where
  | push (ev : ScheduledEvent B C O)
  | enter (currentBeat : B)
  | drain
  | oscPop

/-- The scheduler, and `current_beat` while a tick is draining. -/
structure DrainState (B C O : Type*) where
  sched : EventScheduler B C O
  running : Option B

/-- What a step returned; `ticked` is the end of a tick. -/
inductive DrainResult (B C O : Type*) where
  | pushed (accepted : Bool)
  | ticked (log : List (Delivery B C O))
  | other

section Steps

variable {B C O : Type*} [LinearOrder B]

/-- `tick` behind its drain loop. -/
def finishTick (co : Capacity) (s : EventScheduler B C O) (currentBeat : B) :
    List (Delivery B C O) × EventScheduler B C O :=
  if s.pending = [] then ([], s)
  else
    let fired := fireLoop co currentBeat (stableSortByBeat s.pending) s.oscOut
    (fired.1, ⟨s.staging, fired.2.1, fired.2.2⟩)

/-- One round of the drain loop; the round that finds the ring empty ends the tick. -/
def drainRound (cs co : Capacity) (s : DrainState B C O) : DrainResult B C O × DrainState B C O :=
  match s.running with
  | none => (.other, s)
  | some now =>
      match SpscQueue.pop cs s.sched.staging with
      | (some ev, q) =>
          (.other, ⟨⟨q, s.sched.pending ++ [ev], s.sched.oscOut⟩, some now⟩)
      | (none, q) =>
          let r := finishTick co { s.sched with staging := q } now
          (.ticked r.1, ⟨r.2, none⟩)

/-- One step. -/
def drainStep (cs co : Capacity) (s : DrainState B C O) :
    DrainOp B C O → DrainResult B C O × DrainState B C O
  | .push ev =>
      let r := SpscQueue.push cs s.sched.staging ev
      (.pushed r.1, { s with sched := { s.sched with staging := r.2 } })
  | .enter currentBeat => (.other, { s with running := some (s.running.getD currentBeat) })
  | .drain => drainRound cs co s
  | .oscPop => (.other, { s with sched := (schedStep cs co s.sched .oscPop).2 })

/-- The state after a sequence of steps. -/
def drainExec (cs co : Capacity) (s : DrainState B C O) (ops : List (DrainOp B C O)) :
    DrainState B C O :=
  ops.foldl (fun s op => (drainStep cs co s op).2) s

/-- A round that takes an event. -/
theorem drainRound_some {cs : Capacity} (co : Capacity) {s : DrainState B C O} {now : B}
    {x : ScheduledEvent B C O} (hrun : s.running = some now)
    (h : (SpscQueue.pop cs s.sched.staging).1 = some x) :
    drainRound cs co s = (.other, ⟨⟨(SpscQueue.pop cs s.sched.staging).2, s.sched.pending ++ [x],
      s.sched.oscOut⟩, some now⟩) := by
  simp only [drainRound, hrun]
  generalize SpscQueue.pop cs s.sched.staging = r at h ⊢
  obtain ⟨o, q⟩ := r
  have ho : o = some x := h
  rw [ho]

/-! ## An undisturbed tick is `tick` -/

omit [LinearOrder B] in
/-- One round of the drain loop on a ring that is not empty. -/
theorem drainLoop_round {cs : Capacity} {q : SpscQueue (ScheduledEvent B C O)}
    {x : ScheduledEvent B C O} (h : (SpscQueue.pop cs q).1 = some x) (fuel : Nat)
    (pending : List (ScheduledEvent B C O)) :
    drainLoop cs (fuel + 1) q pending =
      drainLoop cs fuel (SpscQueue.pop cs q).2 (pending ++ [x]) := by
  have hpop : SpscQueue.pop cs q = (some x, (SpscQueue.pop cs q).2) := Prod.ext h rfl
  rw [drainLoop, hpop]

omit [LinearOrder B] in
/-- Rounds beyond the contents of the ring change nothing. -/
theorem drainLoop_fuel {cs : Capacity} {xs : List (ScheduledEvent B C O)}
    {q : SpscQueue (ScheduledEvent B C O)} (h : SpscQueue.Holds cs q xs) {fuel fuel' : Nat}
    (hfuel : xs.length < fuel) (hfuel' : xs.length < fuel')
    (pending : List (ScheduledEvent B C O)) :
    drainLoop cs fuel q pending = drainLoop cs fuel' q pending := by
  induction xs generalizing q fuel fuel' pending with
  | nil =>
      obtain ⟨fuel, rfl⟩ := Nat.exists_eq_succ_of_ne_zero (Nat.ne_zero_of_lt hfuel)
      obtain ⟨fuel', rfl⟩ := Nat.exists_eq_succ_of_ne_zero (Nat.ne_zero_of_lt hfuel')
      have hpop : SpscQueue.pop cs q = (none, q) := SpscQueue.pop_spec h
      rw [drainLoop, drainLoop, hpop]
  | cons x xs ih =>
      obtain ⟨fuel, rfl⟩ := Nat.exists_eq_succ_of_ne_zero (Nat.ne_zero_of_lt hfuel)
      obtain ⟨fuel', rfl⟩ := Nat.exists_eq_succ_of_ne_zero (Nat.ne_zero_of_lt hfuel')
      obtain ⟨hval, hrest⟩ := SpscQueue.pop_spec h
      rw [List.length_cons] at hfuel hfuel'
      rw [drainLoop_round hval, drainLoop_round hval]
      exact ih hrest (by omega) (by omega) _

/-- With an empty ring nothing is left of a tick but its end. -/
theorem finishTick_eq_tick {cs : Capacity} (co : Capacity) {s : EventScheduler B C O}
    (h : SpscQueue.Holds cs s.staging []) (now : B) :
    SpscQueue.pop cs s.staging = (none, s.staging) ∧ finishTick co s now = tick cs co s now := by
  have hpop : SpscQueue.pop cs s.staging = (none, s.staging) := SpscQueue.pop_spec h
  refine ⟨hpop, ?_⟩
  obtain ⟨fuel, hfuel⟩ := Nat.exists_eq_succ_of_ne_zero (Nat.ne_zero_of_lt cs.pos)
  have hdrain : drain cs s.staging s.pending = (s.staging, s.pending) := by
    rw [drain, hfuel, drainLoop, hpop]
  rw [tick, finishTick, hdrain]

/-- Moving one event from the ring to the pending list does not change the tick. -/
theorem tick_pop {cs co : Capacity} {x : ScheduledEvent B C O} {xs : List (ScheduledEvent B C O)}
    {s : EventScheduler B C O} (h : SpscQueue.Holds cs s.staging (x :: xs)) (now : B) :
    tick cs co s now =
      tick cs co ⟨(SpscQueue.pop cs s.staging).2, s.pending ++ [x], s.oscOut⟩ now := by
  obtain ⟨hval, hrest⟩ := SpscQueue.pop_spec h
  have hlen := h.length_lt
  rw [List.length_cons] at hlen
  obtain ⟨fuel, hfuel⟩ := Nat.exists_eq_succ_of_ne_zero (Nat.ne_zero_of_lt cs.pos)
  have hdrain : drain cs s.staging s.pending =
      drain cs (SpscQueue.pop cs s.staging).2 (s.pending ++ [x]) := by
    rw [drain, drain, hfuel, drainLoop_round hval]
    exact drainLoop_fuel hrest (by omega) (by omega) _
  rw [tick, tick, hdrain]

/-- Entering a tick and draining without a push in between is one `tick`. -/
theorem drainRounds_eq_tick {cs co : Capacity} {xs : List (ScheduledEvent B C O)}
    {s : EventScheduler B C O} (h : SpscQueue.Holds cs s.staging xs) (now : B) :
    drainRound cs co (drainExec cs co ⟨s, some now⟩ (List.replicate xs.length .drain)) =
      (.ticked (tick cs co s now).1, ⟨(tick cs co s now).2, none⟩) := by
  induction xs generalizing s with
  | nil =>
      obtain ⟨hpop, hfin⟩ := finishTick_eq_tick co h now
      show drainRound cs co ⟨s, some now⟩ = _
      simp only [drainRound, hpop]
      rw [hfin]
  | cons x xs ih =>
      obtain ⟨hval, hrest⟩ := SpscQueue.pop_spec h
      -- the first round has moved `x`
      have hround : (drainStep cs co ⟨s, some now⟩ .drain).2 =
          ⟨⟨(SpscQueue.pop cs s.staging).2, s.pending ++ [x], s.oscOut⟩, some now⟩ := by
        rw [drainStep, drainRound_some co rfl hval]
      rw [List.length_cons, List.replicate_succ, drainExec, List.foldl_cons, hround, tick_pop h now]
      exact ih hrest

end Steps

/-! ## Runs -/

section Runs

variable {B C O : Type*} [LinearOrder B] [Inhabited B] [Inhabited C] [Inhabited O]

/-- The state before step `n`. -/
def drainStateAt (cs co : Capacity) (wired : Bool) (ops : List (DrainOp B C O)) (n : Nat) :
    DrainState B C O :=
  drainExec cs co ⟨schedStart B C O wired, none⟩ (ops.take n)

/-- The result of step `n`, if there is one. -/
def drainResultAt (cs co : Capacity) (wired : Bool) (ops : List (DrainOp B C O)) (n : Nat) :
    Option (DrainResult B C O) :=
  ops[n]?.map fun op => (drainStep cs co (drainStateAt cs co wired ops n) op).1

/-- Step `i` is a push of `ev` that returned true. -/
def Staged (cs co : Capacity) (wired : Bool) (ops : List (DrainOp B C O)) (i : Nat)
    (ev : ScheduledEvent B C O) : Prop :=
  ops[i]? = some (.push ev) ∧ drainResultAt cs co wired ops i = some (.pushed true)

/-- Step `t` finds the ring empty and ends a tick of `now`. -/
def EndsTick (cs co : Capacity) (wired : Bool) (ops : List (DrainOp B C O)) (t : Nat) (now : B) :
    Prop :=
  ops[t]? = some .drain ∧ (drainStateAt cs co wired ops t).running = some now ∧
    (SpscQueue.pop cs (drainStateAt cs co wired ops t).sched.staging).1 = none

/-- Every tick that ended strictly between steps `i` and `n` came before `ev`'s beat. -/
def NotFiredBetween (cs co : Capacity) (wired : Bool) (ops : List (DrainOp B C O)) (i n : Nat)
    (ev : ScheduledEvent B C O) : Prop :=
  ∀ t now, i < t → t < n → EndsTick cs co wired ops t now → now < ev.beat

variable {cs co : Capacity} {wired : Bool} {ops : List (DrainOp B C O)}

/-- After `n` steps the pending list and then the ring hold the staged events that no
    tick has fired, tied events in push order. -/
structure DrainInv (cs co : Capacity) (wired : Bool) (ops : List (DrainOp B C O)) (n : Nat)
    (stag pend : List (Nat × ScheduledEvent B C O)) : Prop where
  staging : SpscQueue.Holds cs (drainStateAt cs co wired ops n).sched.staging (stag.map Prod.snd)
  pending : (drainStateAt cs co wired ops n).sched.pending = pend.map Prod.snd
  mem : ∀ i ev, (i, ev) ∈ pend ++ stag ↔
    Staged cs co wired ops i ev ∧ i < n ∧ NotFiredBetween cs co wired ops i n ev
  ties : (pend ++ stag).Pairwise fun a b => leBeat b a = true → a.1 < b.1
  osc_wired : (drainStateAt cs co wired ops n).sched.oscOut.isSome = wired
  osc_holds : ∃ os, OscHolds co (drainStateAt cs co wired ops n).sched.oscOut os

theorem drainStateAt_succ (cs co : Capacity) (wired : Bool) {n : Nat} {op : DrainOp B C O}
    (hn : ops[n]? = some op) :
    drainStateAt cs co wired ops (n + 1) =
      (drainStep cs co (drainStateAt cs co wired ops n) op).2 := by
  unfold drainStateAt drainExec
  rw [List.take_add_one, hn, Option.toList_some, List.foldl_append]
  rfl

theorem drainInv_zero : DrainInv cs co wired ops 0 [] [] where
  staging := by
    show SpscQueue.Holds cs (SpscQueue.empty : SpscQueue (ScheduledEvent B C O)) []
    exact SpscQueue.holds_empty
  pending := rfl
  mem := by simp
  ties := .nil
  osc_wired := by cases wired <;> rfl
  osc_holds := ⟨[], schedStart_oscHolds co wired⟩

variable {n : Nat} {stag pend : List (Nat × ScheduledEvent B C O)}

/-- A step that ends no tick leaves what has been fired as it is. -/
theorem notFiredBetween_succ {i : Nat} {ev : ScheduledEvent B C O}
    (hn : ∀ now, ¬ EndsTick cs co wired ops n now) :
    NotFiredBetween cs co wired ops i (n + 1) ev ↔ NotFiredBetween cs co wired ops i n ev := by
  constructor
  · intro h t now hit htn hend
    exact h t now hit (by omega) hend
  · intro h t now hit htn hend
    have hne : t ≠ n := by
      rintro rfl
      exact hn now hend
    exact h t now hit (by omega) hend

/-- The end of a tick fires what its beat has reached. -/
theorem notFiredBetween_succ_end {i : Nat} {ev : ScheduledEvent B C O} {now : B}
    (hn : EndsTick cs co wired ops n now) (hi : i < n) :
    NotFiredBetween cs co wired ops i (n + 1) ev ↔
      NotFiredBetween cs co wired ops i n ev ∧ now < ev.beat := by
  constructor
  · intro h
    exact ⟨fun t now' hit htn hend => h t now' hit (by omega) hend, h n now hi (by omega) hn⟩
  · rintro ⟨h, hnow⟩ t now' hit htn hend
    by_cases hne : t = n
    · subst hne
      have hsame : some now = some now' := hn.2.1.symm.trans hend.2.1
      rw [← Option.some.inj hsame]
      exact hnow
    · exact h t now' hit (by omega) hend

/-- A step other than a push stages nothing. -/
theorem mem_succ_of_not_push (h : DrainInv cs co wired ops n stag pend)
    (hpush : ∀ ev, ops[n]? ≠ some (.push ev)) (hend : ∀ now, ¬ EndsTick cs co wired ops n now)
    (i : Nat) (ev : ScheduledEvent B C O) :
    (i, ev) ∈ pend ++ stag ↔
      Staged cs co wired ops i ev ∧ i < n + 1 ∧ NotFiredBetween cs co wired ops i (n + 1) ev := by
  rw [h.mem, notFiredBetween_succ hend]
  constructor
  · rintro ⟨hst, hlt, hnot⟩
    exact ⟨hst, by omega, hnot⟩
  · rintro ⟨hst, hlt, hnot⟩
    have hne : i ≠ n := by
      rintro rfl
      exact hpush ev hst.1
    exact ⟨hst, by omega, hnot⟩

/-- Only a `drain` step ends a tick. -/
theorem not_endsTick (cs co : Capacity) (wired : Bool) {op : DrainOp B C O}
    (hn : ops[n]? = some op) (hop : op ≠ .drain) (now : B) : ¬ EndsTick cs co wired ops n now := by
  rintro ⟨hdrain, -, -⟩
  exact hop (Option.some.inj (hn.symm.trans hdrain))

/-- A push keeps the invariant, adding its event to the ring when it is accepted. -/
theorem DrainInv.push (h : DrainInv cs co wired ops n stag pend) {ev : ScheduledEvent B C O}
    (hn : ops[n]? = some (.push ev)) :
    ∃ stag', DrainInv cs co wired ops (n + 1) stag' pend := by
  obtain ⟨hans, hholds⟩ := push_numbered h.staging n ev
  have hstate := drainStateAt_succ cs co wired hn
  have hend := not_endsTick cs co wired hn (by simp)
  have hself : ∀ ev', Staged cs co wired ops n ev' ↔ ev' = ev ∧ stag.length + 1 < cs.val := by
    intro ev'
    unfold Staged drainResultAt
    rw [hn]
    simp only [Option.some.injEq, DrainOp.push.injEq, Option.map_some, drainStep,
      DrainResult.pushed.injEq, hans, decide_eq_true_eq]
    exact ⟨fun h => ⟨h.1.symm, h.2⟩, fun h => ⟨h.1.symm, h.2⟩⟩
  refine ⟨stagedAfter cs stag n ev, ?_⟩
  refine
    { staging := ?_, pending := ?_, mem := ?_, ties := ?_, osc_wired := ?_, osc_holds := ?_ }
  · rw [hstate]
    exact hholds
  · rw [hstate]
    exact h.pending
  · intro i ev'
    rw [notFiredBetween_succ hend, List.mem_append, mem_stagedAfter, ← or_assoc,
      ← List.mem_append, h.mem]
    -- the new event has index `n`; nothing can have fired it yet
    by_cases hi : i = n
    · subst hi
      have hnone : NotFiredBetween cs co wired ops i i ev' := by
        intro t now hit hti
        omega
      rw [hself]
      simp [hnone]
    · constructor
      · rintro (⟨hst, hlt, hnot⟩ | ⟨heq, -⟩)
        · exact ⟨hst, by omega, hnot⟩
        · exact absurd heq hi
      · rintro ⟨hst, hlt, hnot⟩
        exact Or.inl ⟨hst, by omega, hnot⟩
  · apply pairwise_stagedAfter h.ties
    intro a ha _
    exact ((h.mem a.1 a.2).mp ha).2.1
  · rw [hstate]
    exact h.osc_wired
  · rw [hstate]
    exact h.osc_holds

/-- A step that leaves ring, list and queue as they are keeps the invariant. -/
theorem DrainInv.quiet (h : DrainInv cs co wired ops n stag pend)
    (hpush : ∀ ev, ops[n]? ≠ some (.push ev)) (hend : ∀ now, ¬ EndsTick cs co wired ops n now)
    (hsame : (drainStateAt cs co wired ops (n + 1)).sched =
      (drainStateAt cs co wired ops n).sched) :
    DrainInv cs co wired ops (n + 1) stag pend where
  staging := hsame ▸ h.staging
  pending := hsame ▸ h.pending
  mem := mem_succ_of_not_push h hpush hend
  ties := h.ties
  osc_wired := hsame ▸ h.osc_wired
  osc_holds := hsame ▸ h.osc_holds

theorem DrainInv.oscPop (h : DrainInv cs co wired ops n stag pend)
    (hn : ops[n]? = some .oscPop) : DrainInv cs co wired ops (n + 1) stag pend := by
  have hstate := congrArg DrainState.sched (drainStateAt_succ cs co wired hn)
  obtain ⟨os, hos⟩ := h.osc_holds
  obtain ⟨hstaging, hpending, hsome, hosc⟩ := schedStep_oscPop cs _ hos
  refine
    { staging := ?_, pending := ?_, mem := ?_, ties := h.ties, osc_wired := ?_, osc_holds := ?_ }
  · rw [hstate]
    exact hstaging ▸ h.staging
  · rw [hstate]
    exact hpending.trans h.pending
  · refine mem_succ_of_not_push h (fun ev hev => ?_) (not_endsTick cs co wired hn (by simp))
    rw [hn] at hev
    exact absurd hev (by simp)
  · rw [hstate]
    exact hsome.trans h.osc_wired
  · rw [hstate]
    exact hosc

/-- A round of the drain loop moves the oldest event of the ring to the end of the
    pending list. -/
theorem DrainInv.drain {a : Nat × ScheduledEvent B C O} (hn : ops[n]? = some .drain)
    (h : DrainInv cs co wired ops n (a :: stag) pend) {now : B}
    (hrun : (drainStateAt cs co wired ops n).running = some now) :
    DrainInv cs co wired ops (n + 1) stag (pend ++ [a]) := by
  have hholds := h.staging
  rw [List.map_cons] at hholds
  obtain ⟨hval, hrest⟩ := SpscQueue.pop_spec hholds
  have hstate := drainStateAt_succ cs co wired hn
  rw [drainStep, drainRound_some co hrun hval] at hstate
  -- the event changes lists but not its place in `pend ++ stag`, which the clauses read
  have happend : pend ++ [a] ++ stag = pend ++ a :: stag := by
    rw [List.append_assoc, List.singleton_append]
  refine
    { staging := ?_, pending := ?_, mem := ?_, ties := ?_, osc_wired := ?_, osc_holds := ?_ }
  · rw [hstate]
    exact hrest
  · rw [hstate, List.map_append, ← h.pending]
    rfl
  · rw [happend]
    refine mem_succ_of_not_push h (fun ev hev => ?_) ?_
    · rw [hn] at hev
      exact absurd hev (by simp)
    · rintro now' ⟨-, -, hnone⟩
      rw [hval] at hnone
      exact absurd hnone (by simp)
  · rw [happend]
    exact h.ties
  · rw [hstate]
    exact h.osc_wired
  · rw [hstate]
    exact h.osc_holds

/-- At the end of a tick the ring is empty, and the step is the rest of `tick`. -/
theorem DrainInv.endsTick_eq (h : DrainInv cs co wired ops n stag pend) {now : B}
    (hend : EndsTick cs co wired ops n now) :
    stag = [] ∧
      drainResultAt cs co wired ops n =
        some (.ticked (Scheduler.tick cs co (drainStateAt cs co wired ops n).sched now).1) ∧
      drainStateAt cs co wired ops (n + 1) =
        ⟨(Scheduler.tick cs co (drainStateAt cs co wired ops n).sched now).2, none⟩ := by
  obtain ⟨hn, hrun, hnone⟩ := hend
  -- the round that ends a tick found nothing to pop
  have hnil : stag = [] := by
    cases stag with
    | nil => rfl
    | cons a stag =>
        have hholds := h.staging
        rw [List.map_cons] at hholds
        rw [(SpscQueue.pop_spec hholds).1] at hnone
        exact absurd hnone (by simp)
  have hholds := h.staging
  rw [hnil, List.map_nil] at hholds
  obtain ⟨hpop, hfin⟩ := finishTick_eq_tick co hholds now
  have hround : drainRound cs co (drainStateAt cs co wired ops n) =
      (.ticked (Scheduler.tick cs co (drainStateAt cs co wired ops n).sched now).1,
        ⟨(Scheduler.tick cs co (drainStateAt cs co wired ops n).sched now).2, none⟩) := by
    simp only [drainRound, hrun, hpop]
    rw [hfin]
  refine ⟨hnil, ?_, ?_⟩
  · rw [drainResultAt, hn, Option.map_some, drainStep, hround]
  · rw [drainStateAt_succ cs co wired hn, drainStep, hround]

/-- The end of a tick keeps what its beat has not reached. -/
theorem DrainInv.endTick (h : DrainInv cs co wired ops n stag pend) {now : B}
    (hend : EndsTick cs co wired ops n now) :
    DrainInv cs co wired ops (n + 1) []
      ((pend.mergeSort leBeat).filter fun a => !decide (a.2.beat ≤ now)) := by
  obtain ⟨rfl, -, hstate⟩ := h.endsTick_eq hend
  obtain ⟨os, hos⟩ := h.osc_holds
  obtain ⟨-, hpending, hstaging, -, hsome, hosc⟩ :=
    tick_tagged h.staging h.pending hos h.ties now
  have hties := h.ties
  rw [List.append_nil] at hpending hties
  refine
    { staging := ?_, pending := ?_, mem := ?_, ties := ?_, osc_wired := ?_, osc_holds := ?_ }
  · rw [hstate]
    exact hstaging
  · rw [hstate]
    exact hpending
  · intro i ev
    have hmem := h.mem i ev
    rw [List.append_nil] at hmem ⊢
    rw [List.mem_filter, List.mem_mergeSort, hmem]
    simp only [Bool.not_eq_true', decide_eq_false_iff_not, not_le]
    constructor
    · rintro ⟨⟨hst, hlt, hnot⟩, hnow⟩
      exact ⟨hst, by omega, (notFiredBetween_succ_end hend hlt).mpr ⟨hnot, hnow⟩⟩
    · rintro ⟨hst, hlt, hnot⟩
      have hne : i ≠ n := by
        rintro rfl
        exact absurd (hst.1.symm.trans hend.1) (by simp)
      have hlt' : i < n := by omega
      obtain ⟨hnot', hnow⟩ := (notFiredBetween_succ_end hend hlt').mp hnot
      exact ⟨⟨hst, hlt', hnot'⟩, hnow⟩
  · rw [List.append_nil]
    -- the sort leaves ties in the order of their indices, and the filter keeps it
    refine ((pairwise_before_mergeSort hties).filter _).imp ?_
    rintro a b (hlt | ⟨-, hidx⟩) hba
    · simp only [leBeat, decide_eq_true_eq] at hba
      exact absurd hlt (not_lt_of_ge hba)
    · exact hidx
  · rw [hstate]
    exact hsome.trans h.osc_wired
  · rw [hstate]
    exact ⟨_, hosc⟩

/-- What the end of a tick fires. -/
theorem DrainInv.fired (h : DrainInv cs co wired ops n stag pend) {now : B}
    (hend : EndsTick cs co wired ops n now) :
    (∃ log, drainResultAt cs co wired ops n = some (.ticked log) ∧
      log.map Delivery.ev =
        ((pend.mergeSort leBeat).filter fun a => decide (a.2.beat ≤ now)).map Prod.snd ∧
      ∀ d ∈ log, FateOk wired d) ∧
    ∀ i ev, (i, ev) ∈ ((pend.mergeSort leBeat).filter fun a => decide (a.2.beat ≤ now)) ↔
      Staged cs co wired ops i ev ∧ i < n ∧ ev.beat ≤ now ∧
        NotFiredBetween cs co wired ops i n ev := by
  obtain ⟨rfl, hresult, -⟩ := h.endsTick_eq hend
  obtain ⟨os, hos⟩ := h.osc_holds
  obtain ⟨hlog, -, -, hfates, -, -⟩ := tick_tagged h.staging h.pending hos h.ties now
  rw [List.append_nil] at hlog
  refine ⟨⟨_, hresult, hlog, fun d hd => h.osc_wired ▸ hfates d hd⟩, ?_⟩
  intro i ev
  have hmem := h.mem i ev
  rw [List.append_nil] at hmem
  rw [List.mem_filter, List.mem_mergeSort, hmem, decide_eq_true_eq]
  constructor
  · rintro ⟨⟨hst, hlt, hnot⟩, hdue⟩
    exact ⟨hst, hlt, hdue, hnot⟩
  · rintro ⟨hst, hlt, hdue, hnot⟩
    exact ⟨⟨hst, hlt, hnot⟩, hdue⟩

/-- The invariant holds after every prefix of a run. -/
theorem drainInv_of_le (cs co : Capacity) (wired : Bool) (ops : List (DrainOp B C O)) (n : Nat)
    (hn : n ≤ ops.length) : ∃ stag pend, DrainInv cs co wired ops n stag pend := by
  induction n with
  | zero => exact ⟨[], [], drainInv_zero⟩
  | succ n ih =>
      obtain ⟨stag, pend, h⟩ := ih (by omega)
      obtain ⟨op, hop⟩ : ∃ op, ops[n]? = some op := ⟨_, List.getElem?_eq_getElem hn⟩
      have hstate := drainStateAt_succ cs co wired hop
      cases op with
      | push ev =>
          obtain ⟨stag', h'⟩ := h.push hop
          exact ⟨stag', pend, h'⟩
      | enter now =>
          refine ⟨stag, pend,
            h.quiet (fun ev hev => ?_) (not_endsTick cs co wired hop (by simp)) ?_⟩
          · rw [hop] at hev
            exact absurd hev (by simp)
          · rw [hstate]
            rfl
      | oscPop => exact ⟨stag, pend, h.oscPop hop⟩
      | drain =>
          cases hrun : (drainStateAt cs co wired ops n).running with
          | none =>
              -- a pop outside a tick
              refine ⟨stag, pend, h.quiet (fun ev hev => ?_) ?_ ?_⟩
              · rw [hop] at hev
                exact absurd hev (by simp)
              · rintro now ⟨-, hsome, -⟩
                rw [hrun] at hsome
                exact absurd hsome (by simp)
              · rw [hstate, drainStep, drainRound, hrun]
          | some now =>
              cases stag with
              | cons a stag => exact ⟨stag, pend ++ [a], DrainInv.drain hop h hrun⟩
              | nil =>
                  have hpop := SpscQueue.pop_spec h.staging
                  exact ⟨_, _, h.endTick ⟨hop, hrun, congrArg Prod.fst hpop⟩⟩

end Runs

/-! ## Which tick fires which push -/

section Fired

variable {B C O : Type*} [LinearOrder B] [Inhabited B] [Inhabited C] [Inhabited O]

/-- `fired t` lists the events fired by the tick that ends with step `t`, each with the
    step that pushed it. -/
structure FiredRecord (cs co : Capacity) (wired : Bool) (ops : List (DrainOp B C O))
    (fired : Nat → List (Nat × ScheduledEvent B C O)) : Prop where
  /-- It is the log of the tick, in order: clap events went to the callback, osc events
      to `osc_out_`. -/
  log : ∀ t now, EndsTick cs co wired ops t now → ∃ log,
    drainResultAt cs co wired ops t = some (.ticked log) ∧
      log.map Delivery.ev = (fired t).map Prod.snd ∧ ∀ d ∈ log, FateOk wired d
  /-- A tick fires the staged events its beat has reached and no tick has fired before. -/
  mem : ∀ t now, EndsTick cs co wired ops t now → ∀ i ev, (i, ev) ∈ fired t ↔
    Staged cs co wired ops i ev ∧ i < t ∧ ev.beat ≤ now ∧ NotFiredBetween cs co wired ops i t ev

/-- Every run has such a record. -/
theorem exists_firedRecord (cs co : Capacity) (wired : Bool) (ops : List (DrainOp B C O)) :
    ∃ fired, FiredRecord cs co wired ops fired := by
  have hlist : ∀ t : Nat, ∃ l : List (Nat × ScheduledEvent B C O), ∀ now,
      EndsTick cs co wired ops t now →
        (∃ log, drainResultAt cs co wired ops t = some (.ticked log) ∧
          log.map Delivery.ev = l.map Prod.snd ∧ ∀ d ∈ log, FateOk wired d) ∧
        ∀ i ev, (i, ev) ∈ l ↔ Staged cs co wired ops i ev ∧ i < t ∧ ev.beat ≤ now ∧
          NotFiredBetween cs co wired ops i t ev := by
    intro t
    by_cases ht : ∃ now, EndsTick cs co wired ops t now
    · obtain ⟨now, hend⟩ := ht
      have hlt := (List.getElem?_eq_some_iff.mp hend.1).1
      obtain ⟨stag, pend, h⟩ := drainInv_of_le cs co wired ops t (Nat.le_of_lt hlt)
      refine ⟨(pend.mergeSort leBeat).filter fun a => decide (a.2.beat ≤ now), ?_⟩
      intro now' hend'
      -- a step ends one tick only
      obtain rfl : now = now' := Option.some.inj (hend.2.1.symm.trans hend'.2.1)
      exact h.fired hend
    · exact ⟨[], fun now hend => absurd ⟨now, hend⟩ ht⟩
  choose fired hfired using hlist
  exact ⟨fired, fun t now hend => (hfired t now hend).1, fun t now hend => (hfired t now hend).2⟩

end Fired

end NomosRt.Scheduler
