/-
  NomosRt.Rcu.Callbacks

  Every callback runs.

  The thread's call of `synchronize_rcu` comes back once the readers leave their sections,
  and the thread goes on behind it; so from every reachable state the readers' leaving, the
  calls in progress and the thread lead to one in which nothing is left in the queue.
-/

import NomosRt.Rcu.CallRcu

namespace NomosRt.Rcu

open NomosRt.Lib

/-! ## The thread's call of `synchronize_rcu` -/

section Sync

variable {T W : Type*} [DecidableEq T] [DecidableEq W] {u u' : UrcuState T W} {w w' : W}

omit [DecidableEq W] in
theorem sync_visit (u : UrcuState T W) (second : Bool) (t : T) :
    (u.visit second t).sync = u.sync := by
  unfold UrcuState.visit UrcuState.unlink
  split
  · split_ifs <;> rfl
  · split_ifs <;> rfl
  · rfl

/-- A call of `synchronize_rcu` moves itself. -/
theorem sync_syncNext (hs : u.syncNext w' = some u') (hne : w ≠ w') : u'.sync w = u.sync w := by
  unfold UrcuState.syncNext at hs
  split at hs
  · cases hs
  · simp only [Option.ite_none_right_eq_some, Option.some.injEq] at hs
    rw [← hs.2]
    exact Function.update_of_ne hne ..
  · simp only [Option.ite_none_right_eq_some, Option.some.injEq] at hs
    rw [← hs.2]
    exact Function.update_of_ne hne ..
  · cases hs
    exact (Function.update_of_ne hne ..).trans (congrFun (sync_visit ..) w)
  · split_ifs at hs <;> cases hs <;> exact Function.update_of_ne hne ..
  · simp only [Option.ite_none_right_eq_some, Option.some.injEq] at hs
    rw [← hs.2]
    exact Function.update_of_ne hne ..
  all_goals
    cases hs
    exact Function.update_of_ne hne ..

/-- Who has not called `synchronize_rcu` is not in it. -/
theorem sync_idle_step {a : UrcuAct T W} (hidle : u.sync w = .idle) (ha : a ≠ .syncCall w)
    (hs : urcuStep u a = some u') : u'.sync w = .idle := by
  cases a with
  | register t | unregister t | loadGp t | nest t =>
      simp only [urcuStep, Option.ite_none_right_eq_some, Option.some.injEq] at hs
      rw [← hs.2]
      exact hidle
  | storeCtr t =>
      simp only [urcuStep] at hs
      split at hs <;> cases hs
      exact hidle
  | unlock t =>
      simp only [urcuStep, Option.ite_none_right_eq_some, Option.some.injEq] at hs
      rw [← hs.2]
      dsimp only
      split_ifs <;> exact hidle
  | syncCall w' =>
      simp only [urcuStep, Option.ite_none_right_eq_some, Option.some.injEq] at hs
      rw [← hs.2]
      have hne : w ≠ w' := by
        rintro rfl
        exact ha rfl
      exact (Function.update_of_ne hne ..).trans hidle
  | syncNext w' =>
      have hne : w ≠ w' := by
        rintro rfl
        simp [urcuStep, UrcuState.syncNext, hidle] at hs
      exact (sync_syncNext hs hne).trans hidle

end Sync

/-! ## The whole -/

section Live

variable {C N T W : Type*}

/-- The futex is right, and the thread is in `synchronize_rcu` only behind its splice. -/
structure CallRcu.LiveInv (s : CallRcu C N T W) : Prop where
  wake : s.queue.WakeInv
  idle : s.syncing = false → s.urcu.sync none = .idle
  spliced : s.syncing = true → s.queue.thread.isSpliced = true

variable [DecidableEq C] [DecidableEq N] [DecidableEq T] [DecidableEq W] {s s' : CallRcu C N T W}

theorem live_step (h : s.Inv) (hlive : s.LiveInv) {a : CallRcuAct C N T W}
    (hs : callRcuStep s a = some s') : s'.LiveInv := by
  obtain ⟨b, u, rfl, hb, hu, rfl⟩ | ⟨u, rfl, hpc, hu, rfl⟩ | ⟨c, q, rfl, hq, rfl⟩ |
    ⟨freed, q, rfl, hq, hpc, rfl⟩ | ⟨b, q, rfl, hq, -, -, -, -, hspliced, rfl⟩ :=
    callRcuStep_cases hs
  · exact ⟨hlive.wake, fun hsync => sync_idle_step (hlive.idle hsync) hb hu, hlive.spliced⟩
  · exact ⟨hlive.wake, fun hsync => (by cases hsync), fun _ => hpc⟩
  · obtain ⟨-, -, hspliced, -⟩ := nodes_callerNext hq
    exact ⟨wakeInv_callerNext hlive.wake hq, hlive.idle,
      fun hsync => hspliced.trans (hlive.spliced hsync)⟩
  · refine ⟨wakeInv_threadNext h.queue hlive.wake hq, fun _ => ?_, fun hsync => by cases hsync⟩
    cases hsync : s.syncing with
    | false => exact hlive.idle hsync
    | true => exact (hpc (hlive.spliced hsync)).2
  · exact ⟨wakeInv_step h.queue hlive.wake hq, hlive.idle,
      fun hsync => hspliced.trans (hlive.spliced hsync)⟩

/-- Both invariants. -/
def CallRcu.Good (s : CallRcu C N T W) : Prop := s.Inv ∧ s.LiveInv

theorem good_reached {as : List (CallRcuAct C N T W)}
    (h : (callRcuMachine C N T W).Reached CallRcuOk as s) : s.Good := by
  refine h.invariant ⟨inv_callRcuMachine, ?_⟩ fun _ _ _ hgood hG hs =>
    ⟨inv_callRcuStep hgood.1 hG hs, live_step hgood.1 hgood.2 hs⟩
  exact ⟨wakeInv_start, fun _ => rfl, fun hsync => by cases hsync⟩

/-- A reader leaves, or a call in progress or the thread goes on. -/
def CallRcuAct.goesOn : CallRcuAct C N T W → Prop
  | .urcu (.unlock _) | .urcu (.syncNext _) | .queue (.caller _) | .queue (.thread _)
  | .synchronize => True
  | _ => False

omit [DecidableEq C] [DecidableEq N] [DecidableEq T] [DecidableEq W] in
theorem callRcuOk_of_goesOn {a : CallRcuAct C N T W} (ha : a.goesOn) : CallRcuOk s a := by
  cases a with
  | synchronize => trivial
  | urcu b => cases b <;> trivial
  | queue b => cases b <;> trivial

theorem good_step (h : s.Good) {a : CallRcuAct C N T W} (hs : callRcuStep s a = some s')
    (ha : a.goesOn) : s'.Good :=
  ⟨inv_callRcuStep h.1 (callRcuOk_of_goesOn ha) hs, live_step h.1 h.2 hs⟩

/-- The readers can leave their sections. -/
theorem canReach_allClosed (h : s.Good) :
    (callRcuMachine C N T W).CanReach CallRcuAct.goesOn
      (fun t => t.Good ∧ t.queue = s.queue ∧ t.urcu.Closed) s := by
  refine Machine.canReach_of_rank (I := fun t => t.Good ∧ t.queue = s.queue)
    (fun t => t.urcu.depths) ?_ ⟨h, rfl⟩
  rintro t ⟨hgood, hqueue⟩ hopen
  obtain ⟨r, u, hu, hlt⟩ := depths_unlock hgood.1.urcu fun hclosed => hopen ⟨hgood, hqueue, hclosed⟩
  have hs : callRcuStep t (.urcu (.unlock r)) = some
      { t with urcu := u, waits := fun n => (t.waits n).filter (· ∈ u.sections) } := by
    simp only [callRcuStep, hu, Option.map_some]
  exact ⟨.urcu (.unlock r), _, trivial, hs, ⟨good_step hgood hs trivial, hqueue⟩, hlt⟩

/-- The calls of `call_rcu` in progress can end. -/
theorem canReach_allIdle [Fintype C] (h : s.Good) (hclosed : s.urcu.Closed) :
    (callRcuMachine C N T W).CanReach CallRcuAct.goesOn
      (fun t => (t.Good ∧ t.urcu.Closed ∧ ∀ c, t.queue.callers c = .idle) ∧
        s.queue.calls <+: t.queue.calls) s := by
  refine Machine.canReach_of_rank
    (I := fun t => t.Good ∧ t.urcu.Closed ∧ s.queue.calls <+: t.queue.calls)
    (fun t => ∑ c, (t.queue.callers c).left) ?_ ⟨h, hclosed, List.prefix_rfl⟩
  rintro t ⟨hgood, hclosed, hcalls⟩ hbusy
  obtain ⟨c, hc⟩ : ∃ c, t.queue.callers c ≠ .idle := by
    by_contra hno
    exact hbusy ⟨⟨hgood, hclosed, fun c => not_not.mp fun hc => hno ⟨c, hc⟩⟩, hcalls⟩
  obtain ⟨q, hq⟩ := callerNext_isSome hc
  obtain ⟨hcalls', hlt⟩ := callers_left hq
  have hs : callRcuStep t (.queue (.caller c)) = some { t with queue := q, waits := t.queued c } := by
    simp only [callRcuStep, hq, Option.map_some]
  exact ⟨.queue (.caller c), _, trivial, hs,
    ⟨good_step hgood hs trivial, hclosed, hcalls.trans hcalls'⟩, hlt⟩

/-- The thread's call of `synchronize_rcu` can come back. -/
theorem canReach_returned (h : s.Good) (hclosed : s.urcu.Closed) (hsync : s.syncing = true) :
    (callRcuMachine C N T W).CanReach CallRcuAct.goesOn
      (fun t => t.Good ∧ t.urcu.Closed ∧ t.queue = s.queue ∧ t.syncing = true ∧
        t.urcu.sync none = .idle) s := by
  refine Machine.canReach_of_rank
    (I := fun t => t.Good ∧ t.urcu.Closed ∧ t.queue = s.queue ∧ t.syncing = true)
    (fun t => t.urcu.rank none) ?_ ⟨h, hclosed, rfl, hsync⟩
  rintro t ⟨hgood, hclosed, hqueue, hsync⟩ hcalled
  obtain ⟨w, u, hu, hclosed', hlt⟩ := rank_proceeds hgood.1.urcu hclosed fun hidle =>
    hcalled ⟨hgood, hclosed, hqueue, hsync, hidle⟩
  have hs : callRcuStep t (.urcu (.syncNext w)) = some
      { t with urcu := u, waits := fun n => (t.waits n).filter (· ∈ u.sections) } := by
    simp only [callRcuStep, urcuStep, hu, Option.map_some]
  exact ⟨.urcu (.syncNext w), _, trivial, hs, ⟨good_step hgood hs trivial, hclosed', hqueue, hsync⟩,
    hlt⟩

/-- Behind its splice the thread can get to where its call has come back. -/
theorem canReach_synchronized (h : s.Good) (hclosed : s.urcu.Closed)
    (hpc : s.queue.thread.isSpliced = true) :
    (callRcuMachine C N T W).CanReach CallRcuAct.goesOn
      (fun t => t.Good ∧ t.urcu.Closed ∧ t.queue = s.queue ∧ t.syncing = true ∧
        t.urcu.sync none = .idle) s := by
  cases hsync : s.syncing with
  | true => exact canReach_returned h hclosed hsync
  | false =>
      have hu : urcuStep s.urcu (.syncCall none) = some
          { s.urcu.moveTo none .called with
            owed := Function.update s.urcu.owed none s.urcu.sections } :=
        if_pos (h.2.idle hsync)
      have hs : callRcuStep s .synchronize = some
          { s with
            urcu := { s.urcu.moveTo none .called with
              owed := Function.update s.urcu.owed none s.urcu.sections }
            syncing := true } := by
        rw [callRcuStep, if_pos ⟨hpc, hsync⟩, hu]
        rfl
      exact .step (a := .synchronize) trivial hs
        (canReach_returned (good_step h hs trivial) hclosed rfl)

/-- While there are nodes, the thread gets nearer to the last callback. -/
theorem canReach_nearer (h : s.Good) (hclosed : s.urcu.Closed)
    (hidle : ∀ c, s.queue.callers c = .idle) (hne : s.queue.batch ++ s.queue.queue ≠ []) :
    (callRcuMachine C N T W).CanReach CallRcuAct.goesOn
      (fun t => (t.Good ∧ t.urcu.Closed ∧ (∀ c, t.queue.callers c = .idle) ∧
        t.queue.calls = s.queue.calls) ∧ t.queue.left < s.queue.left) s := by
  obtain ⟨q, hq, hcallers, hcalls, hlt⟩ := threadNext_left h.1.queue h.2.wake hidle hne
  -- the thread's step, wherever the rest is
  have hthread : ∀ t : CallRcu C N T W, t.Good → t.urcu.Closed → t.queue = s.queue →
      (t.queue.thread.isSpliced = true → t.syncing = true ∧ t.urcu.sync none = .idle) →
      (callRcuMachine C N T W).CanReach CallRcuAct.goesOn
        (fun t => (t.Good ∧ t.urcu.Closed ∧ (∀ c, t.queue.callers c = .idle) ∧
          t.queue.calls = s.queue.calls) ∧ t.queue.left < s.queue.left) t := by
    intro t hgood hclosed hqueue hpc
    have hs : callRcuStep t (.queue (.thread none)) = some
        { t with queue := q, syncing := false } := by
      rw [callRcuStep, if_neg fun hblocked => hblocked.2 (hpc hblocked.1), hqueue, hq]
      rfl
    refine .step (a := .queue (.thread none)) trivial hs
      (.here ⟨⟨good_step hgood hs trivial, hclosed, ?_, hcalls⟩, hlt⟩)
    rwa [hcallers]
  by_cases hpc : s.queue.thread.isSpliced = true
  · refine (canReach_synchronized h hclosed hpc).trans ?_
    rintro t ⟨hgood, hclosed, hqueue, hreturned⟩
    exact hthread t hgood hclosed hqueue fun _ => hreturned
  · exact hthread s h hclosed rfl fun hspliced => absurd hspliced hpc

/-- From every reachable state the readers' leaving, the calls in progress and the thread lead to
    one in which every callback has run, those of the calls in progress included. -/
theorem call_rcu_runs_callbacks [Fintype C] {as : List (CallRcuAct C N T W)}
    (h : (callRcuMachine C N T W).Reached CallRcuOk as s) :
    (callRcuMachine C N T W).CanReach CallRcuAct.goesOn
      (fun t => t.queue.runs = t.queue.calls ∧ s.queue.calls <+: t.queue.calls) s := by
  refine (canReach_allClosed (good_reached h)).trans ?_
  rintro t ⟨hgood, hqueue, hclosed⟩
  refine (canReach_allIdle hgood hclosed).trans ?_
  rintro u ⟨⟨hgood, hclosed, hidle⟩, hcalls⟩
  rw [hqueue] at hcalls
  refine Machine.canReach_of_stretch
    (I := fun v => v.Good ∧ v.urcu.Closed ∧ (∀ c, v.queue.callers c = .idle) ∧
      s.queue.calls <+: v.queue.calls) (fun v => v.queue.left) ?_ ⟨hgood, hclosed, hidle, hcalls⟩
  rintro v ⟨hgood, hclosed, hidle, hcalls⟩ hleft
  have hne : v.queue.batch ++ v.queue.queue ≠ [] := by
    intro hnil
    have hfifo := hgood.1.queue.fifo
    rw [hnil, List.append_nil] at hfifo
    exact hleft ⟨hfifo.symm, hcalls⟩
  refine (canReach_nearer hgood hclosed hidle hne).trans ?_
  rintro w ⟨⟨hgood, hclosed, hidle, hsame⟩, hlt⟩
  exact .here ⟨⟨hgood, hclosed, hidle, hsame ▸ hcalls⟩, hlt⟩

end Live

/-- The thread finds nothing and sleeps; a reader enters a section, and a caller puts a node into
    the queue. -/
def sleepRun : List (CallRcuAct Unit Nat Unit Unit) :=
  List.replicate 7 (.queue (.thread none)) ++ [.urcu (.register ()), .urcu (.loadGp ()),
    .urcu (.storeCtr ()), .queue (.call () 0), .queue (.caller ())]

theorem call_rcu_wakes_thread : ∃ s,
    (callRcuMachine Unit Nat Unit Unit).Reached CallRcuOk sleepRun s ∧
    s.queue.thread = .asleep ∧ s.queue.futex = -1 ∧ s.queue.queue = [0] ∧ s.waits 0 = [()] ∧
    (callRcuMachine Unit Nat Unit Unit).CanReach CallRcuAct.goesOn
      (fun t => t.queue.runs = t.queue.calls ∧ s.queue.calls <+: t.queue.calls) s := by
  have hrun : ((callRcuMachine Unit Nat Unit Unit).runIf CallRcuOk
      (callRcuMachine Unit Nat Unit Unit).start sleepRun).map
        (fun s => (s.queue.thread, s.queue.futex, s.queue.queue, s.waits 0)) =
          some (.asleep, -1, [0], [()]) := by decide
  obtain ⟨s, hs, heq⟩ := Option.map_eq_some_iff.mp hrun
  simp only [Prod.mk.injEq] at heq
  have hreached := Machine.reached_of_runIf hs
  exact ⟨s, hreached, heq.1, heq.2.1, heq.2.2.1, heq.2.2.2, call_rcu_runs_callbacks hreached⟩

end NomosRt.Rcu
