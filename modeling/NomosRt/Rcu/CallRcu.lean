/-
  NomosRt.Rcu.CallRcu

  `call_rcu` over `synchronize_rcu` (third_party/liburcu: src/urcu-call-rcu-impl.h).

  The queue and the grace periods together: the thread that runs the callbacks is one of
  the callers of `synchronize_rcu`, the one called `none`, and goes on behind its splice
  only when its call has come back.

  Whoever looks at sections and callbacks alone sees `NomosRt.Lib.Grace`: a callback is
  queued by the exchange of its caller, waits for the sections open at that moment, and
  runs after these have ended, in the order of the queue.  `waits` is not in the code: the
  sections open at the exchange that are open still.
-/

import NomosRt.Lib.Grace
import NomosRt.Lib.Simulation
import NomosRt.Rcu.CallRun
import NomosRt.Rcu.Synchronize

namespace NomosRt.Rcu

open NomosRt.Lib

/-! ## Steps -/

/-- The read side, the queue, and whether the thread has called `synchronize_rcu` for the list it
    has taken. -/
structure CallRcu (C N T W : Type*) where
  urcu : UrcuState T (Option W)
  queue : CallQueue C N
  syncing : Bool
  waits : N → List T

/-- The steps of readers and of callers of `synchronize_rcu`, those of callers of `call_rcu` and of
    the thread, and the thread's own call of `synchronize_rcu`. -/
inductive CallRcuAct (C N T W : Type*) where
  | urcu (a : UrcuAct T (Option W))
  | queue (a : QueueAct C N)
  | synchronize

/-- The thread has taken a list and has still to wait for a grace period. -/
def ThreadPc.isSpliced {N : Type*} : ThreadPc N → Bool
  | .spliced .. => true
  | _ => false

section Steps

variable {C N T W : Type*} [DecidableEq C] [DecidableEq N] [DecidableEq T] [DecidableEq W]

/-- The sections a node waits for, when a caller puts it into the queue. -/
def CallRcu.queued (s : CallRcu C N T W) (c : C) : N → List T :=
  match s.queue.callers c with
  | .ready n => Function.update s.waits n s.urcu.sections
  | _ => s.waits

/-- One step. -/
def callRcuStep (s : CallRcu C N T W) : CallRcuAct C N T W → Option (CallRcu C N T W)
  -- the thread's call is `synchronize`
  | .urcu (.syncCall none) => none
  | .urcu a =>
      (urcuStep s.urcu a).map fun u =>
        { s with urcu := u, waits := fun n => (s.waits n).filter (· ∈ u.sections) }
  | .queue (.thread freed) =>
      if s.queue.thread.isSpliced = true ∧ ¬ (s.syncing = true ∧ s.urcu.sync none = .idle) then none
      else (s.queue.threadNext freed).map fun q => { s with queue := q, syncing := false }
  | .queue (.caller c) =>
      (s.queue.callerNext c).map fun q => { s with queue := q, waits := s.queued c }
  | .queue a => (queueStep s.queue a).map fun q => { s with queue := q }
  | .synchronize =>
      if s.queue.thread.isSpliced = true ∧ s.syncing = false then
        (urcuStep s.urcu (.syncCall none)).map fun u => { s with urcu := u, syncing := true }
      else none

/-- Both machines at their start. -/
def callRcuMachine (C N T W : Type*) [DecidableEq C] [DecidableEq N] [DecidableEq T]
    [DecidableEq W] : Machine (CallRcu C N T W) (CallRcuAct C N T W) :=
  ⟨⟨(urcuMachine T (Option W)).start, (queueMachine C N).start, false, fun _ => []⟩, callRcuStep⟩

/-- What the two parts ask of their callers. -/
def CallRcuOk (s : CallRcu C N T W) : CallRcuAct C N T W → Prop
  | .urcu a => DepthInRange s.urcu a
  | .queue a => HeadIsFree s.queue a
  | .synchronize => True

instance [Fintype C] (s : CallRcu C N T W) (a : CallRcuAct C N T W) : Decidable (CallRcuOk s a) :=
  match a with
  | .urcu a => inferInstanceAs (Decidable (DepthInRange s.urcu a))
  | .queue a => inferInstanceAs (Decidable (HeadIsFree s.queue a))
  | .synchronize => .isTrue trivial

/-- The sections and the callbacks. -/
def CallRcu.grace (s : CallRcu C N T W) : Grace T N :=
  ⟨s.urcu.sections, (s.queue.batch ++ s.queue.queue).map fun n => ⟨n, s.waits n⟩⟩

/-- What a step of the read side does to the sections. -/
def UrcuState.event (s : UrcuState T W) : UrcuAct T W → Option (Grace.Act T N)
  | .storeCtr t => some (.enter t)
  | .unlock t => if (s.ctr t - gpCount) &&& gpCtrNestMask = 0 then some (.leave t) else none
  | .unregister t => some (.leave t)
  | _ => none

/-- What a step does to the callbacks. -/
def CallQueue.event (s : CallQueue C N) : QueueAct C N → Option (Grace.Act T N)
  | .caller c =>
      match s.callers c with
      | .ready n => some (.call n)
      | _ => none
  | .thread _ =>
      match s.thread with
      | .running cur _ _ => some (.run 0 cur)
      | _ => none
  | _ => none

/-- What a step shows. -/
def CallRcu.event (s : CallRcu C N T W) : CallRcuAct C N T W → Option (Grace.Act T N)
  | .urcu a => s.urcu.event a
  | .queue a => s.queue.event a
  | .synchronize => none

end Steps

/-! ## What the two parts do -/

section Parts

variable {C N T W : Type*} [DecidableEq C] [DecidableEq N] [DecidableEq T] [DecidableEq W]
  {u u' : UrcuState T W} {q q' : CallQueue C N}

omit [DecidableEq W] in
theorem sections_visit (u : UrcuState T W) (second : Bool) (t : T) :
    (u.visit second t).sections = u.sections := by
  unfold UrcuState.visit UrcuState.unlink
  split
  · split_ifs <;> rfl
  · split_ifs <;> rfl
  · rfl

theorem sections_syncNext {w : W} (hs : u.syncNext w = some u') : u'.sections = u.sections := by
  unfold UrcuState.syncNext at hs
  split at hs
  · cases hs
  · simp only [Option.ite_none_right_eq_some, Option.some.injEq] at hs
    rw [← hs.2]
    rfl
  · simp only [Option.ite_none_right_eq_some, Option.some.injEq] at hs
    rw [← hs.2]
    rfl
  · cases hs
    exact sections_visit ..
  · split_ifs at hs <;> cases hs <;> rfl
  · simp only [Option.ite_none_right_eq_some, Option.some.injEq] at hs
    rw [← hs.2]
    rfl
  all_goals cases hs; rfl

omit [DecidableEq N] in
/-- A step of the read side changes the sections as its event says. -/
theorem sections_urcuStep {a : UrcuAct T W} (hs : urcuStep u a = some u') :
    (u.event (N := N) a = none ∧ u'.sections = u.sections) ∨
      (∃ t, u.event (N := N) a = some (.enter t) ∧ u'.sections = t :: u.sections) ∨
      ∃ t, u.event (N := N) a = some (.leave t) ∧ u'.sections = u.sections.filter (· ≠ t) := by
  cases a with
  | register t | loadGp t | nest t | syncCall t =>
      simp only [urcuStep, Option.ite_none_right_eq_some, Option.some.injEq] at hs
      rw [← hs.2]
      exact .inl ⟨rfl, rfl⟩
  | syncNext w => exact .inl ⟨rfl, sections_syncNext hs⟩
  | storeCtr t =>
      simp only [urcuStep] at hs
      split at hs <;> cases hs
      exact .inr (.inl ⟨t, rfl, rfl⟩)
  | unregister t =>
      simp only [urcuStep, Option.ite_none_right_eq_some, Option.some.injEq] at hs
      rw [← hs.2]
      exact .inr (.inr ⟨t, rfl, rfl⟩)
  | unlock t =>
      simp only [urcuStep, Option.ite_none_right_eq_some, Option.some.injEq] at hs
      rw [← hs.2]
      by_cases hlast : (u.ctr t - gpCount) &&& gpCtrNestMask = 0
      · exact .inr (.inr ⟨t, if_pos hlast, by rw [if_pos hlast]; rfl⟩)
      · exact .inl ⟨if_neg hlast, by rw [if_neg hlast]⟩

/-- A caller queues the node it has in its hands, or leaves the nodes alone. -/
theorem nodes_callerNext {c : C} (hs : q.callerNext c = some q') :
    q'.batch = q.batch ∧ q'.thread.node = q.thread.node ∧
      q'.thread.isSpliced = q.thread.isSpliced ∧
      ((∃ n, q.callers c = .ready n ∧ q'.queue = q.queue ++ [n]) ∨
        (∀ n, q.callers c ≠ .ready n) ∧ q'.queue = q.queue) := by
  unfold CallQueue.callerNext at hs
  cases hpc : q.callers c <;> rw [hpc] at hs <;> dsimp only at hs <;> cases hs
  case ready n => exact ⟨rfl, rfl, rfl, .inl ⟨n, rfl, rfl⟩⟩
  case stored =>
      refine ⟨rfl, ?_, ?_, .inr ⟨by simp, rfl⟩⟩
      · show q.thread.woken.node = q.thread.node
        cases q.thread <;> rfl
      · show q.thread.woken.isSpliced = q.thread.isSpliced
        cases q.thread <;> rfl
  all_goals exact ⟨rfl, rfl, rfl, .inr ⟨by simp, rfl⟩⟩

omit [DecidableEq C] in
/-- The thread runs the callback of its first node, or leaves the nodes alone; it walks the list it
    has waited for. -/
theorem nodes_threadNext (h : q.ListInv) {freed : Option N} (hs : q.threadNext freed = some q') :
    ((∃ cur nxt t, q.thread = .running cur nxt t ∧ q.batch = cur :: q'.batch ∧
        q'.queue = q.queue) ∨
      (∀ cur nxt t, q.thread ≠ .running cur nxt t) ∧
        q'.batch ++ q'.queue = q.batch ++ q.queue) ∧
    (q'.thread.node ≠ none → (∀ n ∈ q'.batch, n ∈ q.batch) ∧
      (q.thread.node ≠ none ∨ q.thread.isSpliced = true)) := by
  have hknows := h.thread
  unfold CallQueue.ThreadKnows at hknows
  unfold CallQueue.threadNext at hs
  cases hpc : q.thread <;> rw [hpc] at hknows hs <;> dsimp only at hknows hs
  case asleep => cases hs
  case running cur nxt t =>
      cases hs
      obtain ⟨l, hb⟩ := cons_of_head? hknows.1
      refine ⟨.inl ⟨cur, nxt, t, rfl, ?_, rfl⟩, fun _ => ⟨fun n hn => ?_, .inl ?_⟩⟩
      · rw [hb]
        rfl
      · exact List.mem_of_mem_tail hn
      · simp [ThreadPc.node]
  case swapping x =>
      cases hs
      refine ⟨.inr ⟨by simp, ?_⟩, fun hnode => absurd rfl hnode⟩
      show q.queue ++ [] = q.batch ++ q.queue
      rw [hknows.1, List.append_nil, List.nil_append]
  case spliced x t =>
      cases hs
      exact ⟨.inr ⟨by simp, rfl⟩, fun _ => ⟨fun _ hn => hn, .inr rfl⟩⟩
  case looking cur t =>
      cases hs
      exact ⟨.inr ⟨by simp, rfl⟩, fun _ => ⟨fun _ hn => hn, .inl (by simp [ThreadPc.node])⟩⟩
  case syncNext cur t =>
      split at hs <;> cases hs
      exact ⟨.inr ⟨by simp, rfl⟩, fun _ => ⟨fun _ hn => hn, .inl (by simp [ThreadPc.node])⟩⟩
  case grabbing =>
      split at hs <;> cases hs
      all_goals exact ⟨.inr ⟨by simp, rfl⟩, fun hnode => absurd rfl hnode⟩
  case starting | waited =>
      cases hs
      exact ⟨.inr ⟨by simp, rfl⟩, fun hnode => absurd rfl hnode⟩
  all_goals
    cases hs
    refine ⟨.inr ⟨by simp, rfl⟩, fun hnode => absurd ?_ hnode⟩
    split_ifs <;> rfl

end Parts

/-! ## The invariant -/

section Inv

variable {C N T W : Type*}

/-- The nodes against the sections: what a node waits for is open; it is what the thread's call of
    `synchronize_rcu` waits for, or less, while there is one; and nothing once the thread walks the
    list. -/
structure CallRcu.WaitsInv (s : CallRcu C N T W) : Prop where
  open_of_waits : ∀ n ∈ s.queue.batch ++ s.queue.queue, ∀ t ∈ s.waits n, t ∈ s.urcu.sections
  owed : s.syncing = true → ∀ n ∈ s.queue.batch, ∀ t ∈ s.waits n, t ∈ s.urcu.owed none
  done : s.queue.thread.node ≠ none → ∀ n ∈ s.queue.batch, s.waits n = []

/-- The invariant. -/
structure CallRcu.Inv (s : CallRcu C N T W) : Prop where
  urcu : s.urcu.Inv
  queue : s.queue.ListInv
  waits : s.WaitsInv

variable [DecidableEq C] [DecidableEq N] [DecidableEq T] [DecidableEq W] {s s' : CallRcu C N T W}

omit [DecidableEq C] [DecidableEq N] in
/-- A step of the read side closes sections or opens new ones. -/
theorem inv_urcu (h : s.Inv) {a : UrcuAct T (Option W)} {u : UrcuState T (Option W)}
    (hG : DepthInRange s.urcu a) (hu : urcuStep s.urcu a = some u) :
    ({ s with urcu := u, waits := fun n => (s.waits n).filter (· ∈ u.sections) } :
      CallRcu C N T W).Inv := by
  have hurcu := inv_urcuStep h.urcu hG hu
  refine ⟨hurcu, h.queue, ⟨?_, ?_, ?_⟩⟩
  · intro n _ t ht
    exact of_decide_eq_true (List.mem_filter.mp ht).2
  · intro hsync n hn t ht
    obtain ⟨ht, hopen⟩ := List.mem_filter.mp ht
    have hctr := (hurcu.words.mem_sections t).mp (of_decide_eq_true hopen)
    exact mem_owed_step h.urcu hu (h.waits.owed hsync n hn t ht) hctr
  · intro hnode n hn
    show (s.waits n).filter (· ∈ u.sections) = []
    rw [h.waits.done hnode n hn]
    rfl

omit [DecidableEq C] [DecidableEq N] in
/-- The thread's call of `synchronize_rcu` waits for all that is open. -/
theorem inv_synchronize (h : s.Inv) {u : UrcuState T (Option W)}
    (hpc : s.queue.thread.isSpliced = true) (hu : urcuStep s.urcu (.syncCall none) = some u) :
    ({ s with urcu := u, syncing := true } : CallRcu C N T W).Inv := by
  have hG : DepthInRange s.urcu (.syncCall none) := trivial
  refine ⟨inv_urcuStep h.urcu hG hu, h.queue, ?_⟩
  simp only [urcuStep, Option.ite_none_right_eq_some, Option.some.injEq] at hu
  obtain ⟨-, rfl⟩ := hu
  refine ⟨h.waits.open_of_waits, fun _ n hn t ht => ?_, fun hnode => ?_⟩
  · show t ∈ Function.update s.urcu.owed none s.urcu.sections none
    rw [Function.update_self]
    exact h.waits.open_of_waits n (List.mem_append_left _ hn) t ht
  · have hnone : s.queue.thread.node = none := by
      cases hthread : s.queue.thread <;> rw [hthread] at hpc <;> cases hpc
      rfl
    exact absurd hnone hnode

omit [DecidableEq T] [DecidableEq W] in
/-- A node that is queued waits for the sections that are open. -/
theorem inv_caller (h : s.Inv) {c : C} {q : CallQueue C N} (hq : s.queue.callerNext c = some q) :
    ({ s with queue := q, waits := s.queued c } : CallRcu C N T W).Inv := by
  refine ⟨h.urcu, listInv_callerNext h.queue hq, ?_⟩
  obtain ⟨hbatch, hnode, -, ⟨n, hready, hqueue⟩ | ⟨hnot, hqueue⟩⟩ := nodes_callerNext hq
  · have hqueued : s.queued c = Function.update s.waits n s.urcu.sections := by
      rw [CallRcu.queued, hready]
    have hfree := (h.queue.ready c n hready).1
    have hsame : ∀ m ∈ s.queue.batch ++ s.queue.queue, s.queued c m = s.waits m := by
      intro m hm
      rw [hqueued, Function.update_of_ne]
      rintro rfl
      exact hfree hm
    refine ⟨fun m hm t ht => ?_, fun hsync m hm t ht => ?_, fun hpc m hm => ?_⟩
    · dsimp only at hm ht
      rw [hbatch, hqueue, ← List.append_assoc, List.mem_append, List.mem_singleton] at hm
      rcases hm with hm | rfl
      · rw [hsame m hm] at ht
        exact h.waits.open_of_waits m hm t ht
      · rwa [hqueued, Function.update_self] at ht
    · dsimp only at hm ht
      rw [hbatch] at hm
      rw [hsame m (List.mem_append_left _ hm)] at ht
      exact h.waits.owed hsync m hm t ht
    · dsimp only at hpc hm ⊢
      rw [hbatch] at hm
      rw [hnode] at hpc
      rw [hsame m (List.mem_append_left _ hm)]
      exact h.waits.done hpc m hm
  · have hqueued : s.queued c = s.waits := by
      rw [CallRcu.queued]
      split
      · next n hn => exact absurd hn (hnot n)
      · rfl
    rw [hqueued]
    refine ⟨?_, ?_, ?_⟩
    · dsimp only
      rw [hbatch, hqueue]
      exact h.waits.open_of_waits
    · dsimp only
      rw [hbatch]
      exact h.waits.owed
    · dsimp only
      rw [hbatch, hnode]
      exact h.waits.done

omit [DecidableEq C] [DecidableEq N] [DecidableEq T] [DecidableEq W] in
/-- A call that has come back waits for nothing. -/
theorem waits_of_returned (h : s.Inv) (hsync : s.syncing = true) (hidle : s.urcu.sync none = .idle)
    {n : N} (hn : n ∈ s.queue.batch) : s.waits n = [] := by
  refine List.eq_nil_iff_forall_not_mem.mpr fun t ht => ?_
  have hawaited := h.urcu.calls.awaited none t (h.waits.owed hsync n hn t ht)
  rw [hidle] at hawaited
  exact hawaited

omit [DecidableEq C] [DecidableEq T] [DecidableEq W] in
/-- The thread walks a list only when its grace period is over. -/
theorem inv_thread (h : s.Inv) {freed : Option N} {q : CallQueue C N}
    (hq : s.queue.threadNext freed = some q)
    (hpc : s.queue.thread.isSpliced = true → s.syncing = true ∧ s.urcu.sync none = .idle) :
    ({ s with queue := q, syncing := false } : CallRcu C N T W).Inv := by
  refine ⟨h.urcu, listInv_threadNext h.queue hq, ?_⟩
  obtain ⟨hnodes, hwalk⟩ := nodes_threadNext h.queue hq
  refine ⟨fun n hn => h.waits.open_of_waits n ?_, fun hsync => (by cases hsync), fun hnode n hn => ?_⟩
  · rcases hnodes with ⟨cur, nxt, t, -, hbatch, hqueue⟩ | ⟨-, hsame⟩
    · rw [hbatch, List.cons_append, ← hqueue]
      exact List.mem_cons_of_mem _ hn
    · rwa [← hsame]
  · obtain ⟨hold, hplace⟩ := hwalk hnode
    rcases hplace with hplace | hspliced
    · exact h.waits.done hplace n (hold n hn)
    · obtain ⟨hsync, hidle⟩ := hpc hspliced
      exact waits_of_returned h hsync hidle (hold n hn)

omit [DecidableEq C] [DecidableEq N] [DecidableEq T] [DecidableEq W] in
/-- A step of the queue that leaves the nodes and the thread's place in its list alone. -/
theorem inv_quiet (h : s.Inv) {q : CallQueue C N} (hlist : q.ListInv)
    (hbatch : q.batch = s.queue.batch) (hqueue : q.queue = s.queue.queue)
    (hnode : q.thread.node = s.queue.thread.node) :
    ({ s with queue := q } : CallRcu C N T W).Inv := by
  refine ⟨h.urcu, hlist, ⟨?_, ?_, ?_⟩⟩
  · dsimp only
    rw [hbatch, hqueue]
    exact h.waits.open_of_waits
  · dsimp only
    rw [hbatch]
    exact h.waits.owed
  · dsimp only
    rw [hbatch, hnode]
    exact h.waits.done

/-- What a step can be. -/
theorem callRcuStep_cases {a : CallRcuAct C N T W} (hs : callRcuStep s a = some s') :
    (∃ b u, a = .urcu b ∧ b ≠ .syncCall none ∧ urcuStep s.urcu b = some u ∧
      s' = { s with urcu := u, waits := fun n => (s.waits n).filter (· ∈ u.sections) }) ∨
    (∃ u, a = .synchronize ∧ s.queue.thread.isSpliced = true ∧
      urcuStep s.urcu (.syncCall none) = some u ∧ s' = { s with urcu := u, syncing := true }) ∨
    (∃ c q, a = .queue (.caller c) ∧ s.queue.callerNext c = some q ∧
      s' = { s with queue := q, waits := s.queued c }) ∨
    (∃ freed q, a = .queue (.thread freed) ∧ s.queue.threadNext freed = some q ∧
      (s.queue.thread.isSpliced = true → s.syncing = true ∧ s.urcu.sync none = .idle) ∧
      s' = { s with queue := q, syncing := false }) ∨
    (∃ b q, a = .queue b ∧ queueStep s.queue b = some q ∧ s.queue.event (T := T) b = none ∧
      q.batch = s.queue.batch ∧ q.queue = s.queue.queue ∧
      q.thread.node = s.queue.thread.node ∧
      q.thread.isSpliced = s.queue.thread.isSpliced ∧ s' = { s with queue := q }) := by
  unfold callRcuStep at hs
  split at hs
  · cases hs
  · next b hb =>
      obtain ⟨u, hu, rfl⟩ := Option.map_eq_some_iff.mp hs
      exact .inl ⟨b, u, rfl, hb, hu, rfl⟩
  · next freed =>
      split_ifs at hs with hpc
      obtain ⟨q, hq, rfl⟩ := Option.map_eq_some_iff.mp hs
      refine .inr (.inr (.inr (.inl ⟨freed, q, rfl, hq, fun hspliced => ?_, rfl⟩)))
      exact not_not.mp fun hnot => hpc ⟨hspliced, hnot⟩
  · obtain ⟨q, hq, rfl⟩ := Option.map_eq_some_iff.mp hs
    exact .inr (.inr (.inl ⟨_, q, rfl, hq, rfl⟩))
  · next b hthread hcaller =>
      obtain ⟨q, hq, rfl⟩ := Option.map_eq_some_iff.mp hs
      refine .inr (.inr (.inr (.inr ⟨b, q, rfl, hq, ?_⟩)))
      cases b with
      | thread freed => exact absurd rfl (hthread freed)
      | caller c => exact absurd rfl (hcaller c)
      | call c n =>
          simp only [queueStep, Option.ite_none_right_eq_some, Option.some.injEq] at hq
          rw [← hq.2]
          exact ⟨rfl, rfl, rfl, rfl, rfl, rfl⟩
      | spurious =>
          simp only [queueStep, Option.ite_none_right_eq_some, Option.some.injEq] at hq
          rw [← hq.2]
          refine ⟨rfl, rfl, rfl, ?_, ?_, rfl⟩
          · rw [hq.1]
            rfl
          · rw [hq.1]
            rfl
  · split_ifs at hs with hpc
    obtain ⟨u, hu, rfl⟩ := Option.map_eq_some_iff.mp hs
    exact .inr (.inl ⟨u, rfl, hpc.1, hu, rfl⟩)

theorem inv_callRcuStep (h : s.Inv) {a : CallRcuAct C N T W} (hG : CallRcuOk s a)
    (hs : callRcuStep s a = some s') : s'.Inv := by
  obtain ⟨b, u, rfl, -, hu, rfl⟩ | ⟨u, rfl, hpc, hu, rfl⟩ | ⟨c, q, rfl, hq, rfl⟩ |
    ⟨freed, q, rfl, hq, hpc, rfl⟩ | ⟨b, q, rfl, hq, -, hbatch, hqueue, hnode, -, rfl⟩ :=
    callRcuStep_cases hs
  · exact inv_urcu h hG hu
  · exact inv_synchronize h hpc hu
  · exact inv_caller h hq
  · exact inv_thread h hq hpc
  · exact inv_quiet h (listInv_step h.queue hG hq) hbatch hqueue hnode

theorem inv_callRcuMachine : (callRcuMachine C N T W).start.Inv :=
  ⟨inv_urcuMachine, listInv_start, ⟨fun _ hn => absurd hn List.not_mem_nil,
    fun hsync => (by cases hsync), fun hnode => absurd rfl hnode⟩⟩

end Inv

/-! ## Refinement -/

section Refinement

variable {C N T W : Type*} [DecidableEq C] [DecidableEq N] [DecidableEq T] [DecidableEq W]
  {s s' : CallRcu C N T W}

omit [DecidableEq C] [DecidableEq N] [DecidableEq W] in
/-- What the nodes wait for, when it is known which sections stay open. -/
theorem grace_filter (h : s.Inv) {u : UrcuState T (Option W)} (p : T → Bool)
    (hp : ∀ t ∈ s.urcu.sections, decide (t ∈ u.sections) = p t) :
    ({ s with urcu := u, waits := fun n => (s.waits n).filter (· ∈ u.sections) } :
        CallRcu C N T W).grace =
      ⟨u.sections,
        (s.queue.batch ++ s.queue.queue).map fun n => ⟨n, (s.waits n).filter p⟩⟩ := by
  have hall : ∀ n ∈ s.queue.batch ++ s.queue.queue,
      (⟨n, (s.waits n).filter (· ∈ u.sections)⟩ : Deferred T N) = ⟨n, (s.waits n).filter p⟩ := by
    intro n hn
    rw [List.filter_congr fun t ht => hp t (h.waits.open_of_waits n hn t ht)]
  exact congrArg (Grace.mk u.sections) (List.map_congr_left hall)

omit [DecidableEq C] in
/-- A step of the read side opens a section, ends one, or shows nothing. -/
theorem grace_urcu (h : s.Inv) {a : UrcuAct T (Option W)} {u : UrcuState T (Option W)}
    (hu : urcuStep s.urcu a = some u) :
    (Grace.machine T N).run s.grace (s.urcu.event a).toList =
      some ({ s with urcu := u, waits := fun n => (s.waits n).filter (· ∈ u.sections) } :
        CallRcu C N T W).grace := by
  rcases sections_urcuStep (N := N) hu with ⟨hev, hsec⟩ | ⟨t, hev, hsec⟩ | ⟨t, hev, hsec⟩
  · rw [hev, grace_filter h (fun _ => true) fun t ht => by simpa [hsec] using ht, hsec]
    simp only [List.filter_true]
    rfl
  · rw [hev, grace_filter h (fun _ => true) fun t' ht => by simp [hsec, ht], hsec]
    simp only [List.filter_true]
    rfl
  · rw [hev, grace_filter h (· ≠ t) fun t' ht => by simp [hsec, ht], hsec]
    show some (s.grace.leave t) = _
    rw [Grace.leave, CallRcu.grace, List.map_map]
    rfl

omit [DecidableEq W] in
/-- A caller queues a callback, or shows nothing. -/
theorem grace_caller (h : s.Inv) {c : C} {q : CallQueue C N} (hq : s.queue.callerNext c = some q) :
    (Grace.machine T N).run s.grace (s.queue.event (.caller c)).toList =
      some ({ s with queue := q, waits := s.queued c } : CallRcu C N T W).grace := by
  obtain ⟨hbatch, -, -, ⟨n, hready, hqueue⟩ | ⟨hnot, hqueue⟩⟩ := nodes_callerNext hq
  · have hfree := (h.queue.ready c n hready).1
    have hsame : ∀ m ∈ s.queue.batch ++ s.queue.queue,
        (⟨m, Function.update s.waits n s.urcu.sections m⟩ : Deferred T N) = ⟨m, s.waits m⟩ := by
      intro m hm
      rw [Function.update_of_ne]
      rintro rfl
      exact hfree hm
    have hpending : (s.queue.batch ++ (s.queue.queue ++ [n])).map
          (fun m => (⟨m, Function.update s.waits n s.urcu.sections m⟩ : Deferred T N)) =
        (s.queue.batch ++ s.queue.queue).map (fun m => ⟨m, s.waits m⟩) ++
          [⟨n, s.urcu.sections⟩] := by
      rw [← List.append_assoc, List.map_append, List.map_congr_left hsame]
      simp
    simp only [CallQueue.event, CallRcu.queued, hready, CallRcu.grace, hbatch, hqueue, hpending]
    rfl
  · have hevent : s.queue.event (T := T) (.caller c) = none := by
      unfold CallQueue.event
      dsimp only
      split
      · next n hn => exact absurd hn (hnot n)
      · rfl
    have hqueued : s.queued c = s.waits := by
      unfold CallRcu.queued
      split
      · next n hn => exact absurd hn (hnot n)
      · rfl
    rw [hevent, hqueued]
    simp [Machine.run, CallRcu.grace, hbatch, hqueue]

omit [DecidableEq C] [DecidableEq W] in
/-- The thread runs the first callback, which waits for nobody, or shows nothing. -/
theorem grace_thread (h : s.Inv) {freed : Option N} {q : CallQueue C N}
    (hq : s.queue.threadNext freed = some q) :
    (Grace.machine T N).run s.grace (s.queue.event (.thread freed)).toList =
      some ({ s with queue := q, syncing := false } : CallRcu C N T W).grace := by
  rcases (nodes_threadNext h.queue hq).1 with ⟨cur, nxt, t, hpc, hbatch, hqueue⟩ | ⟨hnot, hsame⟩
  · have hdone : s.waits cur = [] := by
      refine h.waits.done (by simp [hpc, ThreadPc.node]) cur ?_
      rw [hbatch]
      exact List.mem_cons_self ..
    simp [CallQueue.event, hpc, CallRcu.grace, hbatch, hqueue, hdone, Machine.run, Grace.machine,
      Grace.act, Grace.run]
  · have hevent : s.queue.event (T := T) (.thread freed) = none := by
      unfold CallQueue.event
      dsimp only
      split
      · next cur nxt t hpc => exact absurd hpc (hnot cur nxt t)
      · rfl
    rw [hevent]
    simp only [CallRcu.grace, hsame]
    rfl

theorem grace_step (h : s.Inv) {a : CallRcuAct C N T W} (hs : callRcuStep s a = some s') :
    (Grace.machine T N).run s.grace (s.event a).toList = some s'.grace := by
  obtain ⟨b, u, rfl, -, hu, rfl⟩ | ⟨u, rfl, -, hu, rfl⟩ | ⟨c, q, rfl, hq, rfl⟩ |
    ⟨freed, q, rfl, hq, -, rfl⟩ | ⟨b, q, rfl, -, hevent, hbatch, hqueue, -, -, rfl⟩ :=
    callRcuStep_cases hs
  · exact grace_urcu h hu
  · simp only [urcuStep, Option.ite_none_right_eq_some, Option.some.injEq] at hu
    rw [← hu.2]
    rfl
  · exact grace_caller h hq
  · exact grace_thread h hq
  · simp [CallRcu.event, hevent, Machine.run, CallRcu.grace, hbatch, hqueue]

/-- `call_rcu` is what `NomosRt.Lib.Grace` says: in every run, whatever readers, callers and other
    callers of `synchronize_rcu` do, the sections and callbacks are a run of that machine, in which
    a callback runs only when the sections open at its exchange have all been left. -/
theorem call_rcu_refines_grace {as : List (CallRcuAct C N T W)}
    (h : (callRcuMachine C N T W).Reached CallRcuOk as s) :
    (Grace.machine T N).run Grace.empty
        ((callRcuMachine C N T W).events CallRcu.event (callRcuMachine C N T W).start as) =
      some s.grace :=
  h.simulates inv_callRcuMachine
    (fun _ _ _ hinv hG hs => inv_callRcuStep hinv hG hs) rfl
    fun _ _ _ hinv _ hs => grace_step hinv hs

end Refinement

/-- A reader is inside a section when a node is queued; the thread takes it and waits, the reader
    leaves, and the callback runs. -/
def callbackRun : List (CallRcuAct Unit Nat Unit Unit) :=
  [.urcu (.register ()), .urcu (.loadGp ()), .urcu (.storeCtr ()), .queue (.call () 0),
    .queue (.caller ()), .queue (.caller ())] ++
  List.replicate 4 (.queue (.thread none)) ++ [.synchronize] ++
  List.replicate 7 (.urcu (.syncNext none)) ++ [.urcu (.unlock ())] ++
  List.replicate 6 (.urcu (.syncNext none)) ++ List.replicate 3 (.queue (.thread none))

theorem callback_refines_grace : ∃ s,
    (callRcuMachine Unit Nat Unit Unit).Reached CallRcuOk callbackRun s ∧ s.queue.runs = [0] ∧
    (callRcuMachine Unit Nat Unit Unit).events CallRcu.event
        (callRcuMachine Unit Nat Unit Unit).start callbackRun =
      [.enter (), .call 0, .leave (), .run 0 0] ∧
    (Grace.machine Unit Nat).run Grace.empty
        ((callRcuMachine Unit Nat Unit Unit).events CallRcu.event
          (callRcuMachine Unit Nat Unit Unit).start callbackRun) = some s.grace := by
  have hrun : ((callRcuMachine Unit Nat Unit Unit).runIf CallRcuOk
      (callRcuMachine Unit Nat Unit Unit).start callbackRun).map (fun s => s.queue.runs) =
        some [0] := by decide
  obtain ⟨s, hs, heq⟩ := Option.map_eq_some_iff.mp hrun
  have hreached := Machine.reached_of_runIf hs
  exact ⟨s, hreached, heq, by decide, call_rcu_refines_grace hreached⟩

end NomosRt.Rcu
