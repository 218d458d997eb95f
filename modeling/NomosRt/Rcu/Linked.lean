/-
  NomosRt.Rcu.Linked

  `rcu_managed<T>` (include/nomos/rt/rcu.hpp) linked with the vendored liburcu.

  `NomosRt.Rcu.Managed` takes read-side sections and callbacks from `NomosRt.Lib.Grace`;
  here they come from the counters, locks, lists and the queue of the library itself.  A
  guard's constructor is a load and a store of `_urcu_bp_read_lock`, `store` goes through
  every access of `call_rcu` to its node, the queue and the futex, `retire_cb` is run by
  the library's thread after its own grace period, and the destructor is one more caller
  of `synchronize_rcu`.  The section that `call_rcu` opens around its accesses is left
  out; without it a grace period has less to wait for.

  A node passed to `call_rcu` has the number of the value that it retires.  Sections of
  other users of the library may nest inside a guard's.  As in `NomosRt.Rcu.Managed` no
  section and no store begins once the destructor has begun, and no thread exits inside a
  guard.
-/

import NomosRt.Rcu.CallRcu
import NomosRt.Rcu.Managed

namespace NomosRt.Rcu

open NomosRt.Lib

/-! ## Steps -/

/-- The manager's life: `destroying` is inside `synchronize_rcu`. -/
inductive Life where
  | alive
  | destroying
  | dead
  deriving DecidableEq, Repr

/-- The manager, its users and the library.  Of the callers of `synchronize_rcu`, `none` is the
    thread of `call_rcu`, `some none` the destructor, and the others have nothing to do with the
    manager. -/
structure Linked (R W S : Type*) where
  ptr : Option Nat
  readers : R → ReaderPc
  writers : W → Option Nat
  rcu : CallRcu W Nat R (Option S)
  life : Life
  next : Nat
  displaced : List Nat
  handed : List Nat
  deleted : List Nat

/-- The steps of the library, and those of the manager that are not among them; `callRcu` enters
    `call_rcu`. -/
inductive LinkedAct (R W S : Type*) where
  | rcu (a : CallRcuAct W Nat R (Option S))
  | load (r : R)
  | use (r : R)
  | exchange (w : W) (null : Bool)
  | callRcu (w : W)
  | destroy
  | reap

section Steps

variable {R W S : Type*} [DecidableEq R] [DecidableEq W] [DecidableEq S]

/-- What a step of the library is to the manager. -/
def Linked.follow (s : Linked R W S) (rcu : CallRcu W Nat R (Option S)) :
    CallRcuAct W Nat R (Option S) → Option (Linked R W S)
  -- the constructor of a guard
  | .urcu (.loadGp r) =>
      if s.life = .alive ∧ s.readers r = .outside then some { s with rcu := rcu } else none
  | .urcu (.storeCtr r) =>
      if s.life = .alive then
        some { s with rcu := rcu, readers := Function.update s.readers r .locked }
      else none
  -- its destructor, or the end of a section inside the guard's
  | .urcu (.unlock r) =>
      if (s.rcu.urcu.ctr r - gpCount) &&& gpCtrNestMask = 0 then
        match s.readers r with
        | .holding _ =>
            some { s with rcu := rcu, readers := Function.update s.readers r .outside }
        | _ => none
      else some { s with rcu := rcu }
  | .urcu (.unregister r) =>
      if s.readers r = .outside then some { s with rcu := rcu } else none
  -- these are `destroy` and `callRcu`
  | .urcu (.syncCall (some none)) => none
  | .queue (.call _ _) => none
  | .queue (.caller w) =>
      match s.rcu.queue.callers w with
      | .ready p =>
          some { s with
            rcu := rcu
            writers := Function.update s.writers w none
            handed := s.handed ++ [p] }
      | _ => some { s with rcu := rcu }
  -- `retire_cb`
  | .queue (.thread _) =>
      match s.rcu.queue.thread with
      | .running p _ _ => some { s with rcu := rcu, deleted := s.deleted ++ [p] }
      | _ => some { s with rcu := rcu }
  | _ => some { s with rcu := rcu }

/-- One step. -/
def linkedStep (s : Linked R W S) : LinkedAct R W S → Option (Linked R W S)
  | .rcu a => (callRcuStep s.rcu a).bind fun rcu => s.follow rcu a
  | .load r =>
      if s.readers r = .locked then
        some { s with readers := Function.update s.readers r (.holding s.ptr) }
      else none
  | .use r =>
      match s.readers r with
      | .holding _ => some s
      | _ => none
  -- the writer's last `store` has come back
  | .exchange w null =>
      if s.life = .alive ∧ s.writers w = none ∧ s.rcu.queue.callers w = .idle then
        some { s with
          ptr := if null then none else some s.next
          next := if null then s.next else s.next + 1
          writers := Function.update s.writers w s.ptr
          displaced := s.displaced ++ s.ptr.toList }
      else none
  | .callRcu w =>
      match s.writers w with
      | some p => (callRcuStep s.rcu (.queue (.call w p))).map fun rcu => { s with rcu := rcu }
      | none => none
  | .destroy =>
      if s.life = .alive then
        (callRcuStep s.rcu (.urcu (.syncCall (some none)))).map fun rcu =>
          { s with rcu := rcu, life := .destroying }
      else none
  | .reap =>
      if s.life = .destroying ∧ s.rcu.urcu.sync (some none) = .idle then
        some { s with life := .dead, deleted := s.deleted ++ s.ptr.toList }
      else none

/-- A new manager, with an initial value or without, and the library at its start. -/
def linkedMachine (R W S : Type*) [DecidableEq R] [DecidableEq W] [DecidableEq S]
    (initial : Bool) : Machine (Linked R W S) (LinkedAct R W S) :=
  ⟨⟨if initial then some 0 else none, fun _ => .outside, fun _ => none,
    (callRcuMachine W Nat R (Option S)).start, .alive, if initial then 1 else 0, [], [], []⟩,
    linkedStep⟩

/-- Sections do not nest deeper than the counters count. -/
def LinkedOk (s : Linked R W S) : LinkedAct R W S → Prop
  | .rcu (.urcu a) => DepthInRange s.rcu.urcu a
  | _ => True

instance (s : Linked R W S) (a : LinkedAct R W S) : Decidable (LinkedOk s a) :=
  match a with
  | .rcu (.urcu a) => inferInstanceAs (Decidable (DepthInRange s.rcu.urcu a))
  | .rcu (.queue _) | .rcu .synchronize | .load _ | .use _ | .exchange _ _ | .callRcu _
  | .destroy | .reap => .isTrue trivial

/-! ## As the manager of `NomosRt.Rcu.Managed` -/

/-- The destructor waits for what its `synchronize_rcu` waits for. -/
def Linked.phase (s : Linked R W S) : Phase R :=
  match s.life with
  | .alive => .alive
  | .destroying => .destroying (s.rcu.urcu.owed (some none))
  | .dead => .dead

/-- The manager without the insides of the library. -/
def Linked.managed (s : Linked R W S) : RcuState R W :=
  ⟨s.ptr, s.readers, s.writers, s.rcu.grace, s.phase, s.next, s.displaced, s.handed, s.deleted⟩

/-- What a step shows. -/
def Linked.event (s : Linked R W S) : LinkedAct R W S → Option (RcuAct R W)
  | .rcu (.urcu (.storeCtr r)) => some (.readLock r)
  | .rcu (.urcu (.unlock r)) =>
      if (s.rcu.urcu.ctr r - gpCount) &&& gpCtrNestMask = 0 then some (.readUnlock r) else none
  | .rcu (.queue (.caller w)) =>
      match s.rcu.queue.callers w with
      | .ready _ => some (.callRcu w)
      | _ => none
  | .rcu (.queue (.thread _)) =>
      match s.rcu.queue.thread with
      | .running .. => some (.retireCb 0)
      | _ => none
  | .rcu _ | .callRcu _ => none
  | .load r => some (.load r)
  | .use r => some (.use r)
  | .exchange w null => some (.exchange w null)
  | .destroy => some .destroy
  | .reap => some .reap

end Steps

/-! ## What the library does to a call of `synchronize_rcu` and to the callers -/

section Library

variable {C N T W : Type*} [DecidableEq C] [DecidableEq N] [DecidableEq T] [DecidableEq W]

omit [DecidableEq N] in
/-- What a call waits for changes when a section ends. -/
theorem owed_urcuStep {u u' : UrcuState T W} {a : UrcuAct T W} (hs : urcuStep u a = some u')
    {w : W} (hcall : a ≠ .syncCall w) :
    (∃ t, u.event (N := N) a = some (.leave t) ∧ u'.owed w = (u.owed w).filter (· ≠ t)) ∨
      (∀ t, u.event (N := N) a ≠ some (.leave t)) ∧ u'.owed w = u.owed w := by
  cases a with
  | register t | loadGp t | nest t =>
      simp only [urcuStep, Option.ite_none_right_eq_some, Option.some.injEq] at hs
      rw [← hs.2]
      exact .inr ⟨fun _ => by simp [UrcuState.event], rfl⟩
  | syncNext v => exact .inr ⟨fun _ => by simp [UrcuState.event], congrFun (owed_syncNext hs) w⟩
  | syncCall v =>
      simp only [urcuStep, Option.ite_none_right_eq_some, Option.some.injEq] at hs
      rw [← hs.2]
      have hne : w ≠ v := fun heq => hcall (by rw [heq])
      exact .inr ⟨fun _ => by simp [UrcuState.event], Function.update_of_ne hne ..⟩
  | storeCtr t =>
      simp only [urcuStep] at hs
      split at hs <;> cases hs
      exact .inr ⟨fun _ => by simp [UrcuState.event], rfl⟩
  | unregister t =>
      simp only [urcuStep, Option.ite_none_right_eq_some, Option.some.injEq] at hs
      rw [← hs.2]
      exact .inl ⟨t, rfl, rfl⟩
  | unlock t =>
      simp only [urcuStep, Option.ite_none_right_eq_some, Option.some.injEq] at hs
      rw [← hs.2]
      by_cases hlast : (u.ctr t - gpCount) &&& gpCtrNestMask = 0
      · exact .inl ⟨t, if_pos hlast, by rw [if_pos hlast]; rfl⟩
      · exact .inr ⟨fun _ => by rw [UrcuState.event, if_neg hlast]; simp, by rw [if_neg hlast]⟩

variable {s s' : CallRcu C N T W} {a : CallRcuAct C N T W}

/-- The same in the whole library, for a call that is not the thread's own. -/
theorem owed_callRcuStep (hs : callRcuStep s a = some s') {w : W}
    (hcall : a ≠ .urcu (.syncCall (some w))) :
    (∃ t, s.event a = some (.leave t) ∧
        s'.urcu.owed (some w) = (s.urcu.owed (some w)).filter (· ≠ t)) ∨
      (∀ t, s.event a ≠ some (.leave t)) ∧ s'.urcu.owed (some w) = s.urcu.owed (some w) := by
  obtain ⟨b, u, rfl, -, hu, rfl⟩ | ⟨u, rfl, -, hu, rfl⟩ | ⟨c, q, rfl, -, rfl⟩ |
    ⟨freed, q, rfl, -, -, rfl⟩ | ⟨b, q, rfl, -, hevent, -, -, -, -, rfl⟩ :=
    callRcuStep_cases hs
  · exact owed_urcuStep hu fun heq => hcall (by rw [heq])
  · simp only [urcuStep, Option.ite_none_right_eq_some, Option.some.injEq] at hu
    rw [← hu.2]
    exact .inr ⟨fun _ => by simp [CallRcu.event],
      Function.update_of_ne (Option.some_ne_none w) s.urcu.sections s.urcu.owed⟩
  · refine .inr ⟨fun _ => ?_, rfl⟩
    simp only [CallRcu.event, CallQueue.event]
    split <;> simp
  · refine .inr ⟨fun _ => ?_, rfl⟩
    simp only [CallRcu.event, CallQueue.event]
    split <;> simp
  · exact .inr ⟨fun _ => by simp [CallRcu.event, hevent], rfl⟩

theorem owed_leave (hs : callRcuStep s a = some s') {w : W}
    (hcall : a ≠ .urcu (.syncCall (some w))) {t : T} (hevent : s.event a = some (.leave t)) :
    s'.urcu.owed (some w) = (s.urcu.owed (some w)).filter (· ≠ t) := by
  rcases owed_callRcuStep hs hcall with ⟨t', ht', howed⟩ | ⟨hnot, -⟩
  · rw [hevent] at ht'
    cases ht'
    exact howed
  · exact absurd hevent (hnot t)

theorem owed_eq (hs : callRcuStep s a = some s') {w : W} (hcall : a ≠ .urcu (.syncCall (some w)))
    (hnot : ∀ t, s.event a ≠ some (.leave t)) :
    s'.urcu.owed (some w) = s.urcu.owed (some w) := by
  rcases owed_callRcuStep hs hcall with ⟨t, hleave, -⟩ | ⟨-, howed⟩
  · exact absurd hleave (hnot t)
  · exact howed

omit [DecidableEq C] in
/-- The thread does not move the callers. -/
theorem callers_threadNext {q q' : CallQueue C N} {freed : Option N}
    (hs : q.threadNext freed = some q') : q'.callers = q.callers := by
  unfold CallQueue.threadNext at hs
  cases hpc : q.thread <;> rw [hpc] at hs <;> dsimp only at hs
  case grabbing | syncNext => split at hs <;> cases hs <;> rfl
  case asleep => cases hs
  all_goals cases hs; rfl

/-- A caller has a node in its hands from `cds_wfcq_node_init` until its exchange. -/
theorem ready_of_queueStep {q q' : CallQueue C N} {b : QueueAct C N}
    (hs : queueStep q b = some q') {c : C} {n : N} (hready : q'.callers c = .ready n) :
    b = .call c n ∨ q.callers c = .ready n ∧ b ≠ .caller c := by
  cases b with
  | call d m =>
      simp only [queueStep, Option.ite_none_right_eq_some, Option.some.injEq] at hs
      rw [← hs.2] at hready
      by_cases hcd : c = d
      · rw [hcd] at hready ⊢
        have hnode : m = n := by simpa [CallQueue.moveCaller] using hready
        exact .inl (by rw [hnode])
      · have hold : q.callers c = .ready n := by simpa [CallQueue.moveCaller, hcd] using hready
        exact .inr ⟨hold, by simp⟩
  | caller d =>
      simp only [queueStep, CallQueue.callerNext] at hs
      by_cases hcd : c = d
      · -- it has no new one behind it
        rw [hcd] at hready
        cases hpc : q.callers d <;> rw [hpc] at hs <;> dsimp only at hs <;> cases hs
        all_goals simp [CallQueue.moveCaller] at hready
        split at hready <;> cases hready
      · refine .inr ⟨?_, by simpa using fun heq => hcd heq.symm⟩
        cases hpc : q.callers d <;> rw [hpc] at hs <;> dsimp only at hs <;> cases hs
        all_goals simpa [CallQueue.moveCaller, hcd] using hready
  | thread freed =>
      rw [callers_threadNext hs] at hready
      exact .inr ⟨hready, by simp⟩
  | spurious =>
      simp only [queueStep, Option.ite_none_right_eq_some, Option.some.injEq] at hs
      rw [← hs.2] at hready
      exact .inr ⟨hready, by simp⟩

theorem ready_of_callRcuStep (hs : callRcuStep s a = some s') {c : C} {n : N}
    (hready : s'.queue.callers c = .ready n) :
    a = .queue (.call c n) ∨ s.queue.callers c = .ready n ∧ a ≠ .queue (.caller c) := by
  have hqueue : ∀ b : QueueAct C N, b = .call c n ∨ s.queue.callers c = .ready n ∧ b ≠ .caller c →
      (.queue b : CallRcuAct C N T W) = .queue (.call c n) ∨
        s.queue.callers c = .ready n ∧ (.queue b : CallRcuAct C N T W) ≠ .queue (.caller c) := by
    intro b hb
    simpa using hb
  obtain ⟨b, u, rfl, -, -, rfl⟩ | ⟨u, rfl, -, -, rfl⟩ | ⟨d, q, rfl, hq, rfl⟩ |
    ⟨freed, q, rfl, hq, -, rfl⟩ | ⟨b, q, rfl, hq, -, -, -, -, -, rfl⟩ :=
    callRcuStep_cases hs
  · exact .inr ⟨hready, by simp⟩
  · exact .inr ⟨hready, by simp⟩
  · exact hqueue (.caller d) (ready_of_queueStep (b := .caller d) hq hready)
  · exact hqueue (.thread freed) (ready_of_queueStep (b := .thread freed) hq hready)
  · exact hqueue b (ready_of_queueStep hq hready)

end Library

/-! ## The invariant -/

section Invariant

variable {R W S : Type*} {s s' : Linked R W S} {rcu : CallRcu W Nat R (Option S)}

/-- The library's invariant and the manager's; a writer inside `call_rcu` brings the value it has
    displaced. -/
structure Linked.Inv (s : Linked R W S) : Prop where
  rcu : s.rcu.Inv
  managed : ∃ place, RcuInv s.managed place
  calling : ∀ w p, s.rcu.queue.callers w = .ready p → s.writers w = some p

theorem Linked.Inv.mem_sections (h : s.Inv) (r : R) :
    r ∈ s.rcu.urcu.sections ↔ s.readers r ≠ .outside := by
  obtain ⟨place, hinv⟩ := h.managed
  exact hinv.sections r

/-- A value that a `store` has displaced is new to the queue. -/
theorem Linked.Inv.headIsFree (h : s.Inv) {w : W} {p : Nat} (hw : s.writers w = some p)
    (hidle : s.rcu.queue.callers w = .idle) : HeadIsFree s.rcu.queue (.call w p) := by
  obtain ⟨place, hinv⟩ := h.managed
  have hplace : place p = .displacedBy w := hinv.located.place_writer hw
  have hitems : s.managed.grace.items = s.rcu.queue.batch ++ s.rcu.queue.queue := by
    show ((s.rcu.queue.batch ++ s.rcu.queue.queue).map _).map Deferred.item = _
    rw [List.map_map]
    exact List.map_id _
  refine ⟨fun hmem => ?_, fun c hc => ?_⟩
  · rw [← hitems, hinv.located.items.mem_iff, hplace] at hmem
    cases hmem
  · have hother : place p = .displacedBy c := hinv.located.place_writer (h.calling c p hc)
    rw [hplace, Place.displacedBy.injEq] at hother
    rw [← hother, hidle] at hc
    cases hc

/-! ## Steps the manager does not see -/

/-- Sections, callbacks and what the destructor waits for are all that the manager sees of the
    library. -/
theorem managed_congr (hgrace : rcu.grace = s.rcu.grace)
    (howed : rcu.urcu.owed (some none) = s.rcu.urcu.owed (some none)) :
    ({ s with rcu := rcu } : Linked R W S).managed = s.managed := by
  simp only [Linked.managed, Linked.phase, hgrace, howed]

variable [DecidableEq R] [DecidableEq W] [DecidableEq S]

theorem managed_quiet (h : s.rcu.Inv) {a : CallRcuAct W Nat R (Option S)}
    (hs : callRcuStep s.rcu a = some rcu) (hcall : a ≠ .urcu (.syncCall (some none)))
    (hevent : s.rcu.event a = none) :
    ({ s with rcu := rcu } : Linked R W S).managed = s.managed := by
  refine managed_congr ?_ ?_
  · have hgrace := grace_step h hs
    rw [hevent] at hgrace
    exact (Option.some.inj hgrace).symm
  · exact owed_eq hs hcall (by simp [hevent])

/-- A thread that is outside all sections takes none with it when it exits. -/
theorem managed_unregister (h : s.Inv) {r : R}
    (hs : callRcuStep s.rcu (.urcu (.unregister r)) = some rcu) (hr : s.readers r = .outside) :
    ({ s with rcu := rcu } : Linked R W S).managed = s.managed := by
  have hout : r ∉ s.rcu.urcu.sections := fun hmem => (h.mem_sections r).mp hmem hr
  refine managed_congr ?_ ?_
  · have hgrace : some (s.rcu.grace.leave r) = some rcu.grace := grace_step h.rcu hs
    rw [← Option.some.inj hgrace]
    refine Grace.leave_eq_self hout fun d hd => ?_
    obtain ⟨n, hn, rfl⟩ := List.mem_map.mp hd
    exact fun hmem => hout (h.rcu.waits.open_of_waits n hn r hmem)
  · rw [owed_leave (w := none) hs (by simp) rfl, List.filter_eq_self]
    intro x hx
    have hxr : x ≠ r := by
      rintro rfl
      exact hout (h.rcu.urcu.calls.open_of_owed _ _ hx)
    simpa using hxr

/-! ## Steps the manager sees -/

/-- A guard's section begins with the store of the counter. -/
theorem readLock_managed (h : s.Inv) {r : R}
    (hs : callRcuStep s.rcu (.urcu (.storeCtr r)) = some rcu) (halive : s.life = .alive) :
    rcuStep s.managed (.readLock r) =
      some ({ s with rcu := rcu, readers := Function.update s.readers r .locked } :
        Linked R W S).managed := by
  have hgrace : some (s.rcu.grace.enter r) = some rcu.grace := grace_step h.rcu hs
  have hout : s.readers r = .outside := by
    obtain ⟨u, hu, -⟩ := Option.map_eq_some_iff.mp hs
    simp only [urcuStep] at hu
    split at hu
    · next v hlock =>
        have hzero := (h.rcu.urcu.words.loaded r v hlock).2.1
        by_contra hr
        exact (h.rcu.urcu.words.mem_sections r).mp ((h.mem_sections r).mpr hr) hzero
    · cases hu
  have hphase : s.phase = .alive := by rw [Linked.phase, halive]
  rw [rcuStep, if_pos ⟨hphase, hout⟩]
  simp only [Linked.managed, Linked.phase, halive, ← Option.some.inj hgrace]

/-- It ends when the depth is back at zero. -/
theorem readUnlock_managed (h : s.Inv) {r : R} {q : Option Nat}
    (hs : callRcuStep s.rcu (.urcu (.unlock r)) = some rcu)
    (hlast : (s.rcu.urcu.ctr r - gpCount) &&& gpCtrNestMask = 0)
    (hr : s.readers r = .holding q) :
    rcuStep s.managed (.readUnlock r) =
      some ({ s with rcu := rcu, readers := Function.update s.readers r .outside } :
        Linked R W S).managed := by
  have hevent : s.rcu.event (.urcu (.unlock r)) = some (.leave r) := if_pos hlast
  have hgrace := grace_step h.rcu hs
  rw [hevent] at hgrace
  have hleave : s.rcu.grace.leave r = rcu.grace := Option.some.inj hgrace
  have howed := owed_leave (w := none) hs (by simp) hevent
  have hphase : ({ s with rcu := rcu, readers := Function.update s.readers r .outside } :
      Linked R W S).phase = s.phase.leave r := by
    unfold Linked.phase
    cases s.life with
    | alive | dead => rfl
    | destroying => exact congrArg Phase.destroying howed
  simp only [rcuStep, Linked.managed, hr, hphase, hleave]

/-- The exchange on the tail hands the value over. -/
theorem callRcu_managed (h : s.Inv) {w : W} {p : Nat}
    (hs : callRcuStep s.rcu (.queue (.caller w)) = some rcu)
    (hready : s.rcu.queue.callers w = .ready p) :
    rcuStep s.managed (.callRcu w) =
      some ({ s with
        rcu := rcu
        writers := Function.update s.writers w none
        handed := s.handed ++ [p] } : Linked R W S).managed := by
  have hevent : s.rcu.event (.queue (.caller w)) = some (.call p) := by
    simp only [CallRcu.event, CallQueue.event, hready]
  have hgrace := grace_step h.rcu hs
  rw [hevent] at hgrace
  have hcall : s.rcu.grace.call p = rcu.grace := Option.some.inj hgrace
  have howed := owed_eq (w := none) hs (by simp) (by simp [hevent])
  have hw : s.writers w = some p := h.calling w p hready
  simp only [rcuStep, Linked.managed, Linked.phase, hw, hcall, howed]

/-- `retire_cb` runs for the first value in the queue. -/
theorem retireCb_managed (h : s.Inv) {freed nxt t : Option Nat} {p : Nat}
    (hs : callRcuStep s.rcu (.queue (.thread freed)) = some rcu)
    (hthread : s.rcu.queue.thread = .running p nxt t) :
    rcuStep s.managed (.retireCb 0) =
      some ({ s with rcu := rcu, deleted := s.deleted ++ [p] } : Linked R W S).managed := by
  have hevent : s.rcu.event (.queue (.thread freed)) = some (.run 0 p) := by
    simp only [CallRcu.event, CallQueue.event, hthread]
  have hgrace := grace_step h.rcu hs
  rw [hevent] at hgrace
  have hact : s.rcu.grace.act (.run 0 p) = some rcu.grace := by
    rwa [Option.toList_some, Machine.run_singleton] at hgrace
  have howed := owed_eq (w := none) hs (by simp) (by simp [hevent])
  have hrun := Grace.run_of_act hact
  simp only [rcuStep, Linked.managed, Linked.phase, hrun, howed, Option.map_some]

theorem run_quiet (h : s.Inv) {a : CallRcuAct W Nat R (Option S)}
    (hs : callRcuStep s.rcu a = some rcu) (hcall : a ≠ .urcu (.syncCall (some none)))
    (hevent : s.rcu.event a = none) (heq : s' = { s with rcu := rcu }) :
    some s.managed = some s'.managed := by
  rw [heq, managed_quiet h.rcu hs hcall hevent]

/-- A step of the read side is one step of the manager, or none. -/
theorem managed_urcu (initial : Bool) (h : s.Inv) {a : UrcuAct R (Option (Option S))}
    (hs : callRcuStep s.rcu (.urcu a) = some rcu) (hf : s.follow rcu (.urcu a) = some s') :
    (rcuMachine R W initial).run s.managed (s.event (.rcu (.urcu a))).toList =
      some s'.managed := by
  cases a with
  | register r | nest r | syncNext w => exact run_quiet h hs (by simp) rfl (Option.some.inj hf).symm
  | loadGp r =>
      simp only [Linked.follow, Option.ite_none_right_eq_some, Option.some.injEq] at hf
      exact run_quiet h hs (by simp) rfl hf.2.symm
  | unregister r =>
      simp only [Linked.follow, Option.ite_none_right_eq_some, Option.some.injEq] at hf
      obtain ⟨hr, rfl⟩ := hf
      exact congrArg some (managed_unregister h hs hr).symm
  | storeCtr r =>
      simp only [Linked.follow, Option.ite_none_right_eq_some, Option.some.injEq] at hf
      obtain ⟨halive, rfl⟩ := hf
      exact (Machine.run_singleton ..).trans (readLock_managed h hs halive)
  | unlock r =>
      simp only [Linked.follow] at hf
      split_ifs at hf with hlast
      · split at hf
        · next q hr =>
            cases hf
            rw [Linked.event, if_pos hlast]
            exact (Machine.run_singleton ..).trans (readUnlock_managed h hs hlast hr)
        · cases hf
      · -- a section inside the guard's ends
        rw [Linked.event, if_neg hlast]
        exact run_quiet h hs (by simp) (if_neg hlast) (Option.some.inj hf).symm
  | syncCall w =>
      rcases w with _ | _ | w
      · cases hs
      · cases hf
      · exact run_quiet h hs (by simp) rfl (Option.some.inj hf).symm

/-- So is a step of the queue. -/
theorem managed_queue (initial : Bool) (h : s.Inv) {a : QueueAct W Nat}
    (hs : callRcuStep s.rcu (.queue a) = some rcu) (hf : s.follow rcu (.queue a) = some s') :
    (rcuMachine R W initial).run s.managed (s.event (.rcu (.queue a))).toList =
      some s'.managed := by
  cases a with
  | call c n => cases hf
  | spurious => exact run_quiet h hs (by simp) rfl (Option.some.inj hf).symm
  | caller w =>
      simp only [Linked.follow] at hf
      split at hf
      · next p hready =>
          cases hf
          simp only [Linked.event, hready]
          exact (Machine.run_singleton ..).trans (callRcu_managed h hs hready)
      · next hnot =>
          have hevent : s.event (.rcu (.queue (.caller w))) = none := by
            simp only [Linked.event]
          have hsilent : s.rcu.event (.queue (.caller w)) = none := by
            simp only [CallRcu.event, CallQueue.event]
          rw [hevent]
          exact run_quiet h hs (by simp) hsilent (Option.some.inj hf).symm
  | thread freed =>
      simp only [Linked.follow] at hf
      split at hf
      · next p nxt t hthread =>
          cases hf
          simp only [Linked.event, hthread]
          exact (Machine.run_singleton ..).trans (retireCb_managed h hs hthread)
      · next hnot =>
          have hevent : s.event (.rcu (.queue (.thread freed))) = none := by
            simp only [Linked.event]
          have hsilent : s.rcu.event (.queue (.thread freed)) = none := by
            simp only [CallRcu.event, CallQueue.event]
          rw [hevent]
          exact run_quiet h hs (by simp) hsilent (Option.some.inj hf).symm

/-- The destructor waits for every section that is open. -/
theorem managed_destroy (h : s.Inv) (halive : s.life = .alive)
    (hs : callRcuStep s.rcu (.urcu (.syncCall (some none))) = some rcu) :
    rcuStep s.managed .destroy =
      some ({ s with rcu := rcu, life := .destroying } : Linked R W S).managed := by
  have hphase : s.managed.phase = .alive := by
    rw [Linked.managed, Linked.phase, halive]
  have hgrace : some s.rcu.grace = some rcu.grace := grace_step h.rcu hs
  have howed : rcu.urcu.owed (some none) = s.rcu.urcu.sections := by
    obtain ⟨u, hu, rfl⟩ := Option.map_eq_some_iff.mp hs
    simp only [urcuStep, Option.ite_none_right_eq_some, Option.some.injEq] at hu
    rw [← hu.2]
    exact Function.update_self (some none) s.rcu.urcu.sections s.rcu.urcu.owed
  rw [rcuStep, if_pos hphase]
  simp only [Linked.managed, Linked.phase, howed, ← Option.some.inj hgrace]
  rfl

omit [DecidableEq S] in
/-- `synchronize_rcu` has come back to the destructor, so it waits for nobody. -/
theorem managed_reap (h : s.Inv) (hlife : s.life = .destroying)
    (hidle : s.rcu.urcu.sync (some none) = .idle) :
    rcuStep s.managed .reap =
      some ({ s with life := .dead, deleted := s.deleted ++ s.ptr.toList } :
        Linked R W S).managed := by
  have howed : s.rcu.urcu.owed (some none) = [] := by
    refine List.eq_nil_iff_forall_not_mem.mpr fun t ht => ?_
    have hawaited := h.rcu.urcu.calls.awaited (some none) t ht
    rw [hidle] at hawaited
    exact hawaited
  simp only [rcuStep, Linked.managed, Linked.phase, hlife, howed]

/-- A step is one step of the manager, or none. -/
theorem managed_step (initial : Bool) (h : s.Inv) {a : LinkedAct R W S}
    (hs : linkedStep s a = some s') :
    (rcuMachine R W initial).run s.managed (s.event a).toList = some s'.managed := by
  cases a with
  | rcu a =>
      obtain ⟨rcu, hrcu, hf⟩ := Option.bind_eq_some_iff.mp hs
      cases a with
      | urcu b => exact managed_urcu initial h hrcu hf
      | queue b => exact managed_queue initial h hrcu hf
      | synchronize => exact run_quiet h hrcu (by simp) rfl (Option.some.inj hf).symm
  | load r =>
      simp only [linkedStep, Option.ite_none_right_eq_some, Option.some.injEq] at hs
      obtain ⟨hr, rfl⟩ := hs
      exact (Machine.run_singleton ..).trans (if_pos hr)
  | use r =>
      simp only [linkedStep] at hs
      split at hs
      · next q hr =>
          cases hs
          have huse : rcuStep s.managed (.use r) = some s.managed := by
            simp only [rcuStep, Linked.managed, hr]
          exact (Machine.run_singleton ..).trans huse
      · cases hs
  | exchange w null =>
      simp only [linkedStep, Option.ite_none_right_eq_some, Option.some.injEq] at hs
      obtain ⟨⟨halive, hw, -⟩, rfl⟩ := hs
      have hphase : s.phase = .alive := by rw [Linked.phase, halive]
      exact (Machine.run_singleton ..).trans (if_pos ⟨hphase, hw⟩)
  | callRcu w =>
      simp only [linkedStep] at hs
      split at hs
      · next p hw =>
          obtain ⟨rcu, hrcu, rfl⟩ := Option.map_eq_some_iff.mp hs
          exact congrArg some (managed_quiet h.rcu hrcu (by simp) rfl).symm
      · cases hs
  | destroy =>
      simp only [linkedStep, Option.ite_none_right_eq_some] at hs
      obtain ⟨halive, hs⟩ := hs
      obtain ⟨rcu, hrcu, rfl⟩ := Option.map_eq_some_iff.mp hs
      exact (Machine.run_singleton ..).trans (managed_destroy h halive hrcu)
  | reap =>
      simp only [linkedStep, Option.ite_none_right_eq_some, Option.some.injEq] at hs
      obtain ⟨⟨hlife, hidle⟩, rfl⟩ := hs
      exact (Machine.run_singleton ..).trans (managed_reap h hlife hidle)

/-! ## Runs -/

omit [DecidableEq S] in
/-- A step of the library leaves the displaced values alone but for the one that is handed over. -/
theorem follow_frame {a : CallRcuAct W Nat R (Option S)} (hf : s.follow rcu a = some s') :
    s'.rcu = rcu ∧ (∀ w p, a ≠ .queue (.call w p)) ∧
      ∀ w, a ≠ .queue (.caller w) → s'.writers w = s.writers w := by
  have hsame : s' = { s with rcu := rcu } → (∀ w p, a ≠ .queue (.call w p)) →
      s'.rcu = rcu ∧ (∀ w p, a ≠ .queue (.call w p)) ∧
        ∀ w, a ≠ .queue (.caller w) → s'.writers w = s.writers w := by
    rintro rfl hcall
    exact ⟨rfl, hcall, fun _ _ => rfl⟩
  cases a with
  | synchronize => exact hsame (Option.some.inj hf).symm (by simp)
  | urcu b =>
      cases b with
      | register r | nest r | syncNext w => exact hsame (Option.some.inj hf).symm (by simp)
      | loadGp r | unregister r =>
          simp only [Linked.follow, Option.ite_none_right_eq_some, Option.some.injEq] at hf
          exact hsame hf.2.symm (by simp)
      | storeCtr r =>
          simp only [Linked.follow, Option.ite_none_right_eq_some, Option.some.injEq] at hf
          rw [← hf.2]
          exact ⟨rfl, by simp, fun _ _ => rfl⟩
      | unlock r =>
          simp only [Linked.follow] at hf
          split_ifs at hf
          · split at hf <;> cases hf
            exact ⟨rfl, by simp, fun _ _ => rfl⟩
          · exact hsame (Option.some.inj hf).symm (by simp)
      | syncCall w =>
          rcases w with _ | _ | w
          · exact hsame (Option.some.inj hf).symm (by simp)
          · cases hf
          · exact hsame (Option.some.inj hf).symm (by simp)
  | queue b =>
      cases b with
      | call c n => cases hf
      | spurious => exact hsame (Option.some.inj hf).symm (by simp)
      | caller c =>
          simp only [Linked.follow] at hf
          split at hf <;> cases hf
          · refine ⟨rfl, by simp, fun w hw => Function.update_of_ne ?_ ..⟩
            rintro rfl
            exact hw rfl
          · exact hsame rfl (by simp)
      | thread freed =>
          simp only [Linked.follow] at hf
          split at hf <;> cases hf
          · exact ⟨rfl, by simp, fun _ _ => rfl⟩
          · exact hsame rfl (by simp)

theorem inv_follow (h : s.Inv) {a : CallRcuAct W Nat R (Option S)} (hG : LinkedOk s (.rcu a))
    (hs : callRcuStep s.rcu a = some rcu) (hf : s.follow rcu a = some s') :
    s'.rcu.Inv ∧ ∀ w p, s'.rcu.queue.callers w = .ready p → s'.writers w = some p := by
  obtain ⟨hrcu, hcall, hwriters⟩ := follow_frame hf
  have hok : CallRcuOk s.rcu a := by
    cases a with
    | urcu b => exact hG
    | synchronize => trivial
    | queue b =>
        cases b with
        | call c n => exact absurd rfl (hcall c n)
        | caller c | thread freed | spurious => trivial
  rw [hrcu]
  refine ⟨inv_callRcuStep h.rcu hok hs, fun w p hready => ?_⟩
  rcases ready_of_callRcuStep hs hready with heq | ⟨hold, hne⟩
  · exact absurd heq (hcall w p)
  · rw [hwriters w hne]
    exact h.calling w p hold

/-- A writer that enters `call_rcu` meets what it asks of its callers. -/
theorem inv_callRcu_enter (h : s.Inv) {w : W} {p : Nat} (hw : s.writers w = some p)
    (hs : callRcuStep s.rcu (.queue (.call w p)) = some rcu) :
    rcu.Inv ∧ ∀ w p, rcu.queue.callers w = .ready p → s.writers w = some p := by
  have hidle : s.rcu.queue.callers w = .idle := by
    obtain ⟨q, hq, -⟩ := Option.map_eq_some_iff.mp hs
    simp only [queueStep, Option.ite_none_right_eq_some] at hq
    exact hq.1
  have hok : CallRcuOk s.rcu (.queue (.call w p)) := h.headIsFree hw hidle
  refine ⟨inv_callRcuStep h.rcu hok hs, fun c n hready => ?_⟩
  rcases ready_of_callRcuStep hs hready with heq | ⟨hold, -⟩
  · cases heq
    exact hw
  · exact h.calling c n hold

theorem inv_linkedStep (h : s.Inv) {a : LinkedAct R W S} (hG : LinkedOk s a)
    (hs : linkedStep s a = some s') : s'.Inv := by
  have hmanaged : ∃ place, RcuInv s'.managed place := by
    have hrun := managed_step true h hs
    cases hevent : s.event a with
    | none =>
        rw [hevent] at hrun
        rw [← Option.some.inj hrun]
        exact h.managed
    | some e =>
        rw [hevent] at hrun
        exact rcuInv_step h.managed ((Machine.run_singleton ..).symm.trans hrun)
  suffices hparts : s'.rcu.Inv ∧
      ∀ w p, s'.rcu.queue.callers w = .ready p → s'.writers w = some p from
    ⟨hparts.1, hmanaged, hparts.2⟩
  cases a with
  | rcu a =>
      obtain ⟨rcu, hrcu, hf⟩ := Option.bind_eq_some_iff.mp hs
      exact inv_follow h hG hrcu hf
  | load r =>
      simp only [linkedStep, Option.ite_none_right_eq_some, Option.some.injEq] at hs
      rw [← hs.2]
      exact ⟨h.rcu, h.calling⟩
  | use r =>
      simp only [linkedStep] at hs
      split at hs <;> cases hs
      exact ⟨h.rcu, h.calling⟩
  | exchange w null =>
      simp only [linkedStep, Option.ite_none_right_eq_some, Option.some.injEq] at hs
      obtain ⟨⟨-, -, hidle⟩, rfl⟩ := hs
      refine ⟨h.rcu, fun c p hready => ?_⟩
      have hcw : c ≠ w := by
        rintro rfl
        rw [hidle] at hready
        cases hready
      show Function.update s.writers w s.ptr c = some p
      rw [Function.update_of_ne hcw]
      exact h.calling c p hready
  | callRcu w =>
      simp only [linkedStep] at hs
      split at hs
      · next p hw =>
          obtain ⟨rcu, hrcu, rfl⟩ := Option.map_eq_some_iff.mp hs
          exact inv_callRcu_enter (s := s) h hw hrcu
      · cases hs
  | destroy =>
      simp only [linkedStep, Option.ite_none_right_eq_some] at hs
      obtain ⟨rcu, hrcu, rfl⟩ := Option.map_eq_some_iff.mp hs.2
      have hok : CallRcuOk s.rcu (.urcu (.syncCall (some none))) := trivial
      refine ⟨inv_callRcuStep h.rcu hok hrcu, fun c p hready => ?_⟩
      rcases ready_of_callRcuStep hrcu hready with heq | ⟨hold, -⟩
      · cases heq
      · exact h.calling c p hold
  | reap =>
      simp only [linkedStep, Option.ite_none_right_eq_some, Option.some.injEq] at hs
      rw [← hs.2]
      exact ⟨h.rcu, h.calling⟩

variable {initial : Bool}

theorem inv_linkedMachine : (linkedMachine R W S initial).start.Inv :=
  ⟨inv_callRcuMachine, rcuInv_start initial, fun _ _ hready => by cases hready⟩

/-- `rcu_managed` over the vendored liburcu: in every run, over every access of readers, writers,
    the callback thread and callers of `synchronize_rcu`, what the manager does is a run of
    `NomosRt.Rcu.Managed`, and no value that a reader holds is deleted, each displaced value is
    handed over exactly once, and none is deleted twice. -/
theorem rcu_managed_over_liburcu {as : List (LinkedAct R W S)}
    (h : (linkedMachine R W S initial).Reached LinkedOk as s) :
    (rcuMachine R W initial).run (rcuMachine R W initial).start
        ((linkedMachine R W S initial).events Linked.event
          (linkedMachine R W S initial).start as) = some s.managed ∧
      Reclaims s.managed := by
  have hinv : s.Inv :=
    h.invariant inv_linkedMachine fun _ _ _ hinv hG hs => inv_linkedStep hinv hG hs
  obtain ⟨place, hplace⟩ := hinv.managed
  refine ⟨h.simulates inv_linkedMachine
    (fun _ _ _ hinv hG hs => inv_linkedStep hinv hG hs) rfl
    fun _ _ _ hinv _ hs => managed_step initial hinv hs, hplace.reclaims⟩

end Invariant

/-- A reader holds the first value while a `store` replaces it and the thread takes it from the
    queue; the callback runs when the reader has left, and the destructor deletes the second. -/
def replacedRun : List (LinkedAct Unit Unit Unit) :=
  List.flatten
    [[.rcu (.urcu (.register ())), .rcu (.urcu (.loadGp ())), .rcu (.urcu (.storeCtr ())),
        .load (), .exchange () false, .callRcu (), .rcu (.queue (.caller ())),
        .rcu (.queue (.caller ()))],
      List.replicate 4 (.rcu (.queue (.thread none))), [.rcu .synchronize],
      List.replicate 7 (.rcu (.urcu (.syncNext none))), [.use (), .rcu (.urcu (.unlock ()))],
      List.replicate 6 (.rcu (.urcu (.syncNext none))),
      List.replicate 3 (.rcu (.queue (.thread none))), [.destroy],
      List.replicate 9 (.rcu (.urcu (.syncNext (some none)))), [.reap]]

deriving instance DecidableEq for RcuAct

theorem rcu_managed_over_liburcu_replaced : ∃ s,
    (linkedMachine Unit Unit Unit true).Reached LinkedOk replacedRun s ∧ s.deleted = [0, 1] ∧
    (linkedMachine Unit Unit Unit true).events Linked.event
        (linkedMachine Unit Unit Unit true).start replacedRun =
      [.readLock (), .load (), .exchange () false, .callRcu (), .use (), .readUnlock (),
        .retireCb 0, .destroy, .reap] ∧
    (rcuMachine Unit Unit true).run (rcuMachine Unit Unit true).start
        ((linkedMachine Unit Unit Unit true).events Linked.event
          (linkedMachine Unit Unit Unit true).start replacedRun) = some s.managed ∧
    Reclaims s.managed := by
  have hrun : ((linkedMachine Unit Unit Unit true).runIf LinkedOk
      (linkedMachine Unit Unit Unit true).start replacedRun).map (fun s => s.deleted) =
        some [0, 1] := by decide
  obtain ⟨s, hs, heq⟩ := Option.map_eq_some_iff.mp hrun
  have hreached := Machine.reached_of_runIf hs
  exact ⟨s, hreached, heq, by decide, rcu_managed_over_liburcu hreached⟩

end NomosRt.Rcu
