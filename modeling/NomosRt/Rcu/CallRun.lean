/-
  NomosRt.Rcu.CallRun

  Whole runs of the queue of callbacks.

  Callbacks run in the order of the exchanges that queued them, each once, and nobody
  touches a node whose callback has begun: the thread reads the link of a node before it
  runs the callback, and a caller's store into a node has happened by then.

  No wake-up is lost.  The thread sets the futex before it looks for nodes and a caller
  looks at the futex after its exchange, so a thread that sleeps while there are nodes has
  a caller that will wake it; once the calls in progress end, the thread goes on until it
  has run every callback.
-/

import Mathlib.Algebra.Order.BigOperators.Group.Finset
import NomosRt.Rcu.CallQueue

namespace NomosRt.Rcu

open NomosRt.Lib

/-! ## The list -/

section List

variable {C N : Type*} [DecidableEq C] [DecidableEq N] {s s' : CallQueue C N} {c : C}

omit [DecidableEq C] [DecidableEq N] in
theorem listInv_woken (h : s.ListInv) : (s.moveThread s.thread.woken).ListInv := by
  by_cases hpc : s.thread = .asleep
  · exact listInv_rest h (by rw [hpc]; rfl) (by rw [hpc]; rfl)
  · have hsame : s.thread.woken = s.thread := by
      unfold ThreadPc.woken
      split
      · next heq => exact absurd heq hpc
      · rfl
    rw [hsame]
    exact h

/-- A caller keeps the list. -/
theorem listInv_callerNext (h : s.ListInv) (hs : s.callerNext c = some s') : s'.ListInv := by
  unfold CallQueue.callerNext at hs
  cases hpc : s.callers c <;> rw [hpc] at hs <;> dsimp only at hs <;> cases hs
  case ready n => exact listInv_exchange h hpc
  case linking n old => exact listInv_store h hpc
  case enqueued => exact listInv_quiet h (by rw [hpc]; rfl) (by split_ifs <;> rfl)
  case waking => exact listInv_futex (listInv_quiet h (by rw [hpc]; rfl) rfl) 0
  case stored =>
      exact listInv_woken (s := s.moveCaller c .idle) (listInv_quiet h (by rw [hpc]; rfl) rfl)

theorem listInv_step (h : s.ListInv) {a : QueueAct C N} (hG : HeadIsFree s a)
    (hs : queueStep s a = some s') : s'.ListInv := by
  cases a with
  | call c n =>
      simp only [queueStep, Option.ite_none_right_eq_some, Option.some.injEq] at hs
      rw [← hs.2]
      exact listInv_call h hs.1 hG
  | caller c => exact listInv_callerNext h hs
  | thread freed => exact listInv_threadNext h hs
  | spurious =>
      simp only [queueStep, Option.ite_none_right_eq_some, Option.some.injEq] at hs
      rw [← hs.2]
      exact listInv_rest h (by rw [hs.1]; rfl) rfl

theorem listInv_start : (queueMachine C N).start.ListInv := by
  refine ⟨rfl, List.nodup_nil, rfl, ⟨?_, ?_, ?_, ?_, ?_⟩, ?_, ?_, ?_, rfl⟩
  · rintro a n (h | h) <;> cases h
  · rintro a n ⟨c, hc⟩
    cases hc
  · rintro a n n' (h | h) <;> cases h
  · exact fun _ _ => rfl
  · rintro a n (h | h) <;> cases h
  · rintro c c' n a a' hc
    cases hc
  · rintro c n hc
    cases hc
  · rintro c c' n hc
    cases hc

theorem listInv_reached {as : List (QueueAct C N)}
    (h : (queueMachine C N).Reached HeadIsFree as s) : s.ListInv :=
  h.invariant listInv_start fun _ _ _ hinv hG hs => listInv_step hinv hG hs

/-- The node the thread looks at, or whose callback it runs. -/
def ThreadPc.node : ThreadPc N → Option N
  | .looking cur _ | .syncNext cur _ | .running cur .. => some cur
  | _ => none

omit [DecidableEq C] [DecidableEq N] in
/-- The thread is at the first node of its list. -/
theorem batch_of_node (h : s.ListInv) {cur : N} (hnode : s.thread.node = some cur) :
    s.batch.head? = some cur := by
  have hknows := h.thread
  unfold CallQueue.ThreadKnows at hknows
  cases hpc : s.thread <;> rw [hpc] at hknows hnode <;> cases hnode <;> exact hknows.1

omit [DecidableEq C] [DecidableEq N] in
/-- Nobody has still to store into the node whose callback runs. -/
theorem not_linking_of_running (h : s.ListInv) {cur : N} {nxt t : Option N}
    (hpc : s.thread = .running cur nxt t) {n : N} : s.callers c ≠ .linking n (some cur) := by
  intro hlinking
  obtain ⟨hlink, hnone⟩ := h.links.pending _ _ ⟨c, hlinking⟩
  have hknows := h.thread
  rw [CallQueue.ThreadKnows, hpc] at hknows
  obtain ⟨hhead, hlast, hnxt, hstored⟩ := hknows
  cases nxt with
  | some m =>
      rw [hstored (by simp)] at hnone
      cases hnone
  | none =>
      obtain ⟨l, hb⟩ := cons_of_head? hhead
      rw [hb, List.tail_cons, List.head?_eq_none_iff] at hnxt
      exact h.links.notLast _ _ hlink (.inr ⟨by simp [hb], by rw [hb, hnxt]; rfl⟩)

/-- In every reachable state the callbacks that have run are the first that were queued, in that
    order; the thread is at the next of them; and a store that is still to come goes into a node
    that is queued and whose callback has not begun. -/
theorem callbacks_run_in_order {as : List (QueueAct C N)}
    (h : (queueMachine C N).Reached HeadIsFree as s) :
    s.runs <+: s.calls ∧ (∀ cur, s.thread.node = some cur → s.runs ++ [cur] <+: s.calls) ∧
      ∀ c n m, s.callers c = .linking n (some m) →
        m ∈ s.calls.drop s.runs.length ∧ ∀ nxt t, s.thread ≠ .running m nxt t := by
  have hinv := listInv_reached h
  have hfifo := hinv.fifo
  refine ⟨⟨_, hfifo.symm⟩, fun cur hnode => ?_, fun c n m hlinking => ⟨?_, fun nxt t hpc => ?_⟩⟩
  · obtain ⟨l, hb⟩ := cons_of_head? (batch_of_node hinv hnode)
    exact ⟨l ++ s.queue, by rw [hfifo, hb]; simp⟩
  · rw [hfifo, List.drop_left]
    rcases (hinv.links.pending _ _ ⟨c, hlinking⟩).1.fst with heq | ⟨m', hm', heq⟩
    · cases heq
    · cases heq
      exact hm'
  · exact not_linking_of_running hinv hpc hlinking

end List

/-- Two calls of which the second has not stored its link, and the thread in front of the gap. -/
def gapRun : List (QueueAct Bool Nat) :=
  [.call false 0, .caller false, .call true 1, .caller true, .caller false, .thread none,
    .thread none, .thread none, .thread none, .thread none, .thread none]

theorem callbacks_run_in_order_at_gap : ∃ s,
    (queueMachine Bool Nat).Reached HeadIsFree gapRun s ∧
    s.thread = .syncNext 0 (some 1) ∧ s.callers true = .linking 1 (some 0) ∧ s.calls = [0, 1] ∧
    s.runs <+: s.calls ∧ (∀ cur, s.thread.node = some cur → s.runs ++ [cur] <+: s.calls) ∧
    ∀ c n m, s.callers c = .linking n (some m) →
      m ∈ s.calls.drop s.runs.length ∧ ∀ nxt t, s.thread ≠ .running m nxt t := by
  have hrun : ((queueMachine Bool Nat).runIf HeadIsFree (queueMachine Bool Nat).start gapRun).map
      (fun s => (s.thread, s.callers true, s.calls)) =
        some (.syncNext 0 (some 1), .linking 1 (some 0), [0, 1]) := by decide
  obtain ⟨s, hs, heq⟩ := Option.map_eq_some_iff.mp hrun
  simp only [Prod.mk.injEq] at heq
  have hreached := Machine.reached_of_runIf hs
  exact ⟨s, hreached, heq.1, heq.2.1, heq.2.2, callbacks_run_in_order hreached⟩

/-! ## The futex -/

section Wake

variable {C N : Type*}

/-- The thread is on its way to sleep, or asleep. -/
def ThreadPc.waits : ThreadPc N → Bool
  | .waitLoad | .waitCall | .asleep => true
  | _ => false

/-- The caller has still to look at the futex, or has found the thread waiting. -/
def CallerPc.willWake : CallerPc N → Bool
  | .linking .. | .enqueued | .waking => true
  | _ => false

/-- The futex against the thread: a thread that sleeps while there are nodes will be woken. -/
structure CallQueue.WakeInv (s : CallQueue C N) : Prop where
  futex : s.futex = 0 ∨ s.futex = -1
  reset : s.thread = .starting ∨ s.thread = .waited → s.futex = 0
  wakes : s.thread.waits = true → s.futex = -1 → s.queue ≠ [] → ∃ c, (s.callers c).willWake = true
  woken : s.thread = .asleep → s.futex = -1 ∨ ∃ c, s.callers c = .stored

variable [DecidableEq C] [DecidableEq N] {s s' : CallQueue C N} {c : C}

omit [DecidableEq N] in
/-- A caller moves, and the futex and the thread stay as they are. -/
theorem wakeInv_caller (h : s.WakeInv) (hstored : s.callers c ≠ .stored) {pc : CallerPc N}
    (hcallers : s'.callers = Function.update s.callers c pc) (hfutex : s'.futex = s.futex)
    (hthread : s'.thread = s.thread)
    (hpc : pc.willWake = true ∨ s.futex ≠ -1 ∨
      (s.callers c).willWake = false ∧ s'.queue = s.queue) : s'.WakeInv := by
  refine ⟨hfutex ▸ h.futex, hfutex ▸ hthread ▸ h.reset, ?_, ?_⟩
  · rw [hfutex, hthread, hcallers]
    intro hwaits hminus hne
    rcases hpc with hpc | hpc | ⟨hc, hqueue⟩
    · exact ⟨c, by rwa [Function.update_self]⟩
    · exact absurd hminus hpc
    · obtain ⟨c', hc'⟩ := h.wakes hwaits hminus (hqueue ▸ hne)
      refine ⟨c', ?_⟩
      rwa [Function.update_of_ne]
      rintro rfl
      rw [hc] at hc'
      cases hc'
  · rw [hfutex, hthread, hcallers]
    intro hasleep
    refine (h.woken hasleep).imp_right fun ⟨c', hc'⟩ => ⟨c', ?_⟩
    rwa [Function.update_of_ne]
    rintro rfl
    exact hstored hc'

/-- A caller on its way keeps the futex right. -/
theorem wakeInv_callerNext (h : s.WakeInv) (hs : s.callerNext c = some s') : s'.WakeInv := by
  unfold CallQueue.callerNext at hs
  cases hpc : s.callers c <;> rw [hpc] at hs <;> dsimp only at hs <;> cases hs
  case ready n => exact wakeInv_caller h (by simp [hpc]) rfl rfl rfl (.inl rfl)
  case linking n old => exact wakeInv_caller h (by simp [hpc]) rfl rfl rfl (.inl rfl)
  case enqueued =>
      split_ifs with hfutex
      · exact wakeInv_caller h (by simp [hpc]) rfl rfl rfl (.inl rfl)
      · exact wakeInv_caller h (by simp [hpc]) rfl rfl rfl (.inr (.inl hfutex))
  case waking =>
      exact ⟨.inl rfl, fun _ => rfl, fun _ hminus => (by cases hminus),
        fun _ => .inr ⟨c, Function.update_self ..⟩⟩
  case stored =>
      -- the thread sleeps no more
      have hawake : s.thread.woken ≠ .asleep := by cases s.thread <;> simp [ThreadPc.woken]
      have hwaits : s.thread.woken.waits = s.thread.waits := by cases s.thread <;> rfl
      refine ⟨h.futex, fun hpc' => h.reset ?_, fun hw hminus hne => ?_, fun hsleep => ?_⟩
      · revert hpc'
        show s.thread.woken = _ ∨ s.thread.woken = _ → _
        cases s.thread <;> simp [ThreadPc.woken]
      · obtain ⟨c', hc'⟩ := h.wakes (hwaits ▸ hw) hminus hne
        refine ⟨c', (congrArg _ (Function.update_of_ne ?_ ..)).trans hc'⟩
        rintro rfl
        rw [hpc] at hc'
        cases hc'
      · exact absurd hsleep hawake

omit [DecidableEq C] [DecidableEq N] in
/-- Away from the futex the thread has nothing to keep. -/
theorem wakeInv_awake (h : s.WakeInv) (hfutex : s'.futex = s.futex)
    (hpc : s'.thread.waits = false ∧ s'.thread ≠ .starting ∧ s'.thread ≠ .waited) : s'.WakeInv := by
  refine ⟨hfutex ▸ h.futex, fun hreset => ?_, fun hwaits => ?_, fun hasleep => ?_⟩
  · exact absurd hreset (not_or.mpr hpc.2)
  · rw [hpc.1] at hwaits
    cases hwaits
  · rw [hasleep] at hpc
    cases hpc.1

omit [DecidableEq C] [DecidableEq N] in
/-- A thread that waits stays where nothing has changed. -/
theorem wakeInv_wait (h : s.WakeInv) {pc : ThreadPc N} (hold : s.thread.waits = true)
    (hpc : pc.waits = true) (hminus : pc = .asleep → s.futex = -1) : (s.moveThread pc).WakeInv := by
  refine ⟨h.futex, fun hreset => ?_, fun _ => h.wakes hold, fun hasleep => .inl (hminus hasleep)⟩
  have hreset' : pc = .starting ∨ pc = .waited := hreset
  rcases hreset' with rfl | rfl <;> cases hpc

omit [DecidableEq C] [DecidableEq N] in
/-- The thread has found the futex changed. -/
theorem wakeInv_waited (h : s.WakeInv) (hfutex : s.futex ≠ -1) : (s.moveThread .waited).WakeInv :=
  ⟨h.futex, fun _ => h.futex.resolve_right hfutex, fun hwaits => (by cases hwaits),
    fun hasleep => by cases hasleep⟩

omit [DecidableEq C] in
/-- The thread keeps the futex right: it looks at the queue after it has set the futex. -/
theorem wakeInv_threadNext (hlist : s.ListInv) (h : s.WakeInv) {freed : Option N}
    (hs : s.threadNext freed = some s') : s'.WakeInv := by
  unfold CallQueue.threadNext at hs
  cases hpc : s.thread <;> rw [hpc] at hs <;> dsimp only at hs
  case asleep => cases hs
  case starting | waited =>
      cases hs
      have hzero : s.futex = 0 := h.reset (by simp [hpc])
      refine ⟨.inr ?_, fun hreset => ?_, fun hwaits => (by cases hwaits),
        fun hasleep => by cases hasleep⟩
      · show s.futex - 1 = -1
        rw [hzero]
        rfl
      · rcases hreset with heq | heq <;> cases heq
  case idleTail =>
      cases hs
      split_ifs with htail
      · have hempty : s.queue = [] := List.getLast?_eq_none_iff.mp (hlist.tail ▸ htail)
        refine ⟨h.futex, fun hreset => ?_, fun _ _ hne => absurd hempty hne,
          fun hasleep => by cases hasleep⟩
        rcases hreset with heq | heq <;> cases heq
      · exact wakeInv_awake h rfl (by simp [CallQueue.moveThread, ThreadPc.waits])
  case waitLoad =>
      cases hs
      split_ifs with hfutex
      · exact wakeInv_wait h (by rw [hpc]; rfl) rfl (by simp)
      · exact wakeInv_waited h hfutex
  case waitCall =>
      cases hs
      split_ifs with hfutex
      · exact wakeInv_wait h (by rw [hpc]; rfl) rfl fun _ => hfutex
      · exact wakeInv_waited h hfutex
  case looking cur t =>
      cases hs
      refine wakeInv_awake h rfl ?_
      show (s.lookNext cur t).waits = false ∧ s.lookNext cur t ≠ _ ∧ s.lookNext cur t ≠ _
      unfold CallQueue.lookNext
      split
      · simp [ThreadPc.waits]
      · split_ifs <;> simp [ThreadPc.waits]
  case grabbing | syncNext =>
      split at hs <;> cases hs
      all_goals exact wakeInv_awake h rfl (by simp [CallQueue.moveThread, ThreadPc.waits])
  case running cur nxt t =>
      cases hs
      refine wakeInv_awake h rfl ?_
      cases nxt <;> simp [CallQueue.moveThread, walkOn, ThreadPc.waits]
  case swapping | spliced =>
      cases hs
      exact wakeInv_awake h rfl (by simp [CallQueue.moveThread, ThreadPc.waits])
  case testHead | testTail | recheck | idleHead =>
      cases hs
      refine wakeInv_awake h rfl ?_
      split_ifs <;> simp [CallQueue.moveThread, ThreadPc.waits]

theorem wakeInv_step (hlist : s.ListInv) (h : s.WakeInv) {a : QueueAct C N}
    (hs : queueStep s a = some s') : s'.WakeInv := by
  cases a with
  | call c n =>
      simp only [queueStep, Option.ite_none_right_eq_some, Option.some.injEq] at hs
      rw [← hs.2]
      refine wakeInv_caller h ?_ rfl rfl rfl (.inr (.inr ⟨?_, rfl⟩))
      · simp [hs.1]
      · rw [hs.1]
        rfl
  | caller c => exact wakeInv_callerNext h hs
  | thread freed => exact wakeInv_threadNext hlist h hs
  | spurious =>
      simp only [queueStep, Option.ite_none_right_eq_some, Option.some.injEq] at hs
      rw [← hs.2]
      exact wakeInv_wait h (by rw [hs.1]; rfl) rfl (by simp)

theorem wakeInv_start : (queueMachine C N).start.WakeInv :=
  ⟨.inl rfl, fun _ => rfl, fun hwaits => (by cases hwaits), fun hasleep => by cases hasleep⟩

end Wake

/-! ## Progress -/

section Progress

variable {C N : Type*}

/-- The steps a caller has still to make. -/
def CallerPc.left : CallerPc N → Nat
  | .idle => 0
  | .stored => 1
  | .waking => 2
  | .enqueued => 3
  | .linking .. => 4
  | .ready _ => 5

/-- The steps of the thread to the next callback, if there is one. -/
def ThreadPc.left : ThreadPc N → Nat
  | .running .. => 0
  | .syncNext .. => 1
  | .looking .. => 2
  | .spliced .. => 3
  | .swapping _ => 4
  | .grabbing => 5
  | .testTail | .recheck => 6
  | .testHead => 7
  | .starting | .waited => 8
  | .idleHead | .idleTail | .waitLoad | .waitCall | .asleep => 9

/-- The steps of the thread to the last callback. -/
def CallQueue.left (s : CallQueue C N) : Nat :=
  10 * (s.batch.length + s.queue.length) + s.thread.left

variable [DecidableEq C] [DecidableEq N] {s s' : CallQueue C N} {c : C}

theorem callerNext_left (hs : s.callerNext c = some s') :
    (∃ pc, s'.callers = Function.update s.callers c pc ∧ pc.left < (s.callers c).left) ∧
      s.calls <+: s'.calls := by
  unfold CallQueue.callerNext at hs
  cases hpc : s.callers c <;> rw [hpc] at hs <;> dsimp only at hs <;> cases hs
  case ready n => exact ⟨⟨_, rfl, by simp [CallerPc.left]⟩, List.prefix_append ..⟩
  case enqueued =>
      refine ⟨⟨_, rfl, ?_⟩, List.prefix_rfl⟩
      split_ifs <;> simp [CallerPc.left]
  all_goals exact ⟨⟨_, rfl, by simp [CallerPc.left]⟩, List.prefix_rfl⟩

theorem callerNext_isSome (hc : s.callers c ≠ .idle) : ∃ s', s.callerNext c = some s' := by
  unfold CallQueue.callerNext
  cases hpc : s.callers c
  case idle => exact absurd hpc hc
  all_goals exact ⟨_, rfl⟩

theorem callers_left [Fintype C] (hs : s.callerNext c = some s') :
    s.calls <+: s'.calls ∧ ∑ c, (s'.callers c).left < ∑ c, (s.callers c).left := by
  obtain ⟨⟨pc, hpc, hlt⟩, hcalls⟩ := callerNext_left hs
  refine ⟨hcalls, ?_⟩
  rw [hpc]
  refine Finset.sum_lt_sum (fun c' _ => ?_) ⟨c, Finset.mem_univ c, ?_⟩
  · by_cases hc' : c' = c
    · rw [hc', Function.update_self]
      exact hlt.le
    · rw [Function.update_of_ne hc']
  · rw [Function.update_self]
    exact hlt

omit [DecidableEq C] [DecidableEq N] in
/-- With no call in progress every link is stored. -/
theorem next_of_link (h : s.ListInv) (hidle : ∀ c, s.callers c = .idle) {a : Option N} {n : N}
    (hlink : s.Link a n) : s.next a = some n := by
  rcases h.links.made a n hlink with hmade | ⟨-, c, hc⟩
  · exact hmade
  · rw [hidle c] at hc
    cases hc

omit [DecidableEq C] [DecidableEq N] in
theorem next_head_of_queue (h : s.ListInv) (hidle : ∀ c, s.callers c = .idle)
    (hrest : s.thread.atRest = true) (hqueue : s.queue ≠ []) : ∃ x, s.next none = some x := by
  obtain ⟨x, l, hq⟩ := List.exists_cons_of_ne_nil hqueue
  refine ⟨x, next_of_link h hidle (.inl ?_)⟩
  rw [queueLinks_eq, hq]
  · exact List.mem_cons_self ..
  · intro y hy
    rw [hy] at hrest
    cases hrest

omit [DecidableEq C] [DecidableEq N] in
/-- The thread does not sleep on when there are nodes and the calls in progress have ended. -/
theorem futex_of_waits (h : s.WakeInv) (hidle : ∀ c, s.callers c = .idle)
    (hwaits : s.thread.waits = true) (hqueue : s.queue ≠ []) : s.futex ≠ -1 := by
  intro hminus
  obtain ⟨c, hc⟩ := h.wakes hwaits hminus hqueue
  rw [hidle c] at hc
  cases hc

omit [DecidableEq C] [DecidableEq N] in
/-- The thread steps, keeps its nodes and comes nearer to a callback. -/
theorem left_lt {pc : ThreadPc N} (hpc : s.thread = pc) (hlt : s'.thread.left < pc.left)
    (hnodes : s'.batch.length + s'.queue.length = s.batch.length + s.queue.length) :
    s'.left < s.left := by
  rw [CallQueue.left, CallQueue.left, hnodes, hpc]
  omega

omit [DecidableEq C] in
/-- While there are nodes the thread goes on to run their callbacks. -/
theorem threadNext_left (hlist : s.ListInv) (hwake : s.WakeInv) (hidle : ∀ c, s.callers c = .idle)
    (hne : s.batch ++ s.queue ≠ []) :
    ∃ s', s.threadNext none = some s' ∧ s'.callers = s.callers ∧ s'.calls = s.calls ∧
      s'.left < s.left := by
  have hknows := hlist.thread
  -- at rest the nodes are in the queue
  have hqueue : s.thread.atRest = true → s.queue ≠ [] := by
    intro hrest
    rwa [(threadKnows_iff hrest).mp hknows, List.nil_append] at hne
  have hhead : s.thread.atRest = true → s.next none ≠ none := by
    intro hrest
    obtain ⟨x, hx⟩ := next_head_of_queue hlist hidle hrest (hqueue hrest)
    simp [hx]
  have htail : s.thread.atRest = true → s.tail ≠ none := by
    intro hrest
    rw [hlist.tail, ne_eq, List.getLast?_eq_none_iff]
    exact hqueue hrest
  have hfutex : s.thread.waits = true → s.thread.atRest = true → s.futex ≠ -1 := fun hw hrest =>
    futex_of_waits hwake hidle hw (hqueue hrest)
  unfold CallQueue.ThreadKnows at hknows
  unfold CallQueue.threadNext
  cases hpc : s.thread <;> rw [hpc] at hknows hqueue hhead htail hfutex <;> dsimp only at hknows ⊢
  case starting | waited =>
      exact ⟨_, rfl, rfl, rfl, left_lt hpc (by simp [CallQueue.moveThread, ThreadPc.left]) rfl⟩
  case testHead | idleHead =>
      rw [if_neg (hhead rfl)]
      exact ⟨_, rfl, rfl, rfl, left_lt hpc (by simp [CallQueue.moveThread, ThreadPc.left]) rfl⟩
  case testTail | recheck | idleTail =>
      rw [if_neg (htail rfl)]
      exact ⟨_, rfl, rfl, rfl, left_lt hpc (by simp [CallQueue.moveThread, ThreadPc.left]) rfl⟩
  case waitLoad | waitCall =>
      rw [if_neg (hfutex rfl rfl)]
      exact ⟨_, rfl, rfl, rfl, left_lt hpc (by simp [CallQueue.moveThread, ThreadPc.left]) rfl⟩
  case asleep =>
      rcases hwake.woken hpc with hminus | ⟨c, hc⟩
      · exact absurd hminus (hfutex rfl rfl)
      · rw [hidle c] at hc
        cases hc
  case grabbing =>
      obtain ⟨x, hx⟩ := Option.ne_none_iff_exists'.mp (hhead rfl)
      rw [hx]
      exact ⟨_, rfl, rfl, rfl, left_lt hpc (by simp [CallQueue.moveThread, ThreadPc.left]) rfl⟩
  case swapping x =>
      refine ⟨_, rfl, rfl, rfl, left_lt hpc (by simp [CallQueue.moveThread, ThreadPc.left]) ?_⟩
      simp [hknows.1]
  case spliced x t =>
      exact ⟨_, rfl, rfl, rfl, left_lt hpc (by simp [CallQueue.moveThread, ThreadPc.left]) rfl⟩
  case looking cur t =>
      refine ⟨_, rfl, rfl, rfl, left_lt hpc ?_ rfl⟩
      show (s.lookNext cur t).left < 2
      unfold CallQueue.lookNext
      split
      · simp [ThreadPc.left]
      · split_ifs <;> simp [ThreadPc.left]
  case syncNext cur t =>
      obtain ⟨hhead, hlast, hnot⟩ := hknows
      obtain ⟨l, hb⟩ := cons_of_head? hhead
      cases l with
      | nil =>
          rw [hb] at hlast
          exact absurd hlast.symm hnot
      | cons m l =>
          have hlink : s.Link (some cur) m := .inr (by rw [hb]; exact List.mem_cons_self ..)
          rw [next_of_link hlist hidle hlink]
          exact ⟨_, rfl, rfl, rfl, left_lt hpc (by simp [CallQueue.moveThread, ThreadPc.left]) rfl⟩
  case running cur nxt t =>
      refine ⟨_, rfl, rfl, rfl, ?_⟩
      obtain ⟨l, hb⟩ := cons_of_head? hknows.1
      have hleft : (walkOn nxt t).left ≤ 9 := by cases nxt <;> simp [walkOn, ThreadPc.left]
      simp only [CallQueue.left, CallQueue.moveThread, hb, List.tail_cons, List.length_cons]
      omega

end Progress

end NomosRt.Rcu
