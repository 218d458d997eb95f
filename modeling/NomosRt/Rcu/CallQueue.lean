/-
  NomosRt.Rcu.CallQueue

  The queue of callbacks between the callers of `call_rcu` and the thread that runs them
  (third_party/liburcu: include/urcu/static/wfcqueue.h, src/urcu-call-rcu-impl.h).

  A caller puts its node at the tail by an exchange and stores the link to it afterwards,
  so the list in memory may have gaps.  The thread takes the whole list with two
  exchanges, waits for a grace period, and walks the list; at a gap that is not the end
  it waits for the store.  It reads the link of a node before it runs the node's
  callback, which may free the node or use it again.

  When it finds nothing the thread sleeps on a futex.  It has set the futex to -1 before
  it looks for nodes, and a caller looks at the futex after its exchange.

  Accesses are sequentially consistent.  The flags that pause, stop or free the thread are
  not modelled, nor is `qlen`, which only counts.  `queue`, `batch`, `calls` and `runs`
  are not in the code: the nodes behind the head, those taken and not yet run, and the
  nodes in the order of their exchanges and of their callbacks.
-/

import Mathlib.Data.Fintype.Basic
import NomosRt.Lib.Links
import NomosRt.Lib.Machine

namespace NomosRt.Rcu

open NomosRt.Lib

/-! ## Steps -/

/-- Where a caller is: `ready` has initialised its node, `linking` has put it at the tail and has
    still to store it behind the old one; `waking` and `stored` are in `call_rcu_wake_up`. -/
inductive CallerPc (N : Type*) where
  | idle
  | ready (n : N)
  | linking (n : N) (old : Option N)
  | enqueued
  | waking
  | stored
  deriving DecidableEq

/-- Where the thread is.  `testHead` to `swapping` are in `__cds_wfcq_splice_blocking`; `looking` to
    `running` walk the list `cbs_tmp`, which ends at `t`; the rest ends a round of the loop. -/
inductive ThreadPc (N : Type*) where
  | starting
  | testHead
  | testTail
  | grabbing
  | recheck
  | swapping (h : N)
  | spliced (h : N) (t : Option N)
  | looking (cur : N) (t : Option N)
  | syncNext (cur : N) (t : Option N)
  | running (cur : N) (nxt : Option N) (t : Option N)
  | idleHead
  | idleTail
  | waitLoad
  | waitCall
  | asleep
  | waited
  deriving DecidableEq

/-- The queue, the futex, the callers `C` and the thread.  A place is a node or, for `none`, the
    head. -/
structure CallQueue (C N : Type*) where
  next : Option N → Option N
  tail : Option N
  futex : Int
  callers : C → CallerPc N
  thread : ThreadPc N
  queue : List N
  batch : List N
  calls : List N
  runs : List N

/-- The steps: a call begins, a caller goes on, the thread goes on, or the wait on the futex ends
    for no reason.  `freed` is what the callback leaves where its node was. -/
inductive QueueAct (C N : Type*) where
  | call (c : C) (n : N)
  | caller (c : C)
  | thread (freed : Option N)
  | spurious

section Steps

variable {C N : Type*} [DecidableEq C] [DecidableEq N]

/-- `FUTEX_WAKE`. -/
def ThreadPc.woken : ThreadPc N → ThreadPc N
  | .asleep => .waitLoad
  | pc => pc

/-- The caller's place. -/
def CallQueue.moveCaller (s : CallQueue C N) (c : C) (pc : CallerPc N) : CallQueue C N :=
  { s with callers := Function.update s.callers c pc }

/-- The next step of a caller: `___cds_wfcq_append` and `call_rcu_wake_up`. -/
def CallQueue.callerNext (s : CallQueue C N) (c : C) : Option (CallQueue C N) :=
  match s.callers c with
  | .idle => none
  -- `old_tail = uatomic_xchg_mo(&tail->p, new_tail)`
  | .ready n =>
      some { s.moveCaller c (.linking n s.tail) with
        tail := some n, queue := s.queue ++ [n], calls := s.calls ++ [n] }
  | .linking n old =>
      some { s.moveCaller c .enqueued with next := Function.update s.next old (some n) }
  | .enqueued => some (s.moveCaller c (if s.futex = -1 then .waking else .idle))
  | .waking => some { s.moveCaller c .stored with futex := 0 }
  | .stored => some { s.moveCaller c .idle with thread := s.thread.woken }

/-- The thread's place. -/
def CallQueue.moveThread (s : CallQueue C N) (pc : ThreadPc N) : CallQueue C N :=
  { s with thread := pc }

/-- `___cds_wfcq_next`, and the wait of `___cds_wfcq_node_sync_next` if there is one. -/
def CallQueue.lookNext (s : CallQueue C N) (cur : N) (t : Option N) : ThreadPc N :=
  match s.next (some cur) with
  | some m => .running cur (some m) t
  | none => if t = some cur then .running cur none t else .syncNext cur t

/-- The step of `__cds_wfcq_for_each_blocking_safe`. -/
def walkOn (nxt t : Option N) : ThreadPc N :=
  match nxt with
  | some m => .looking m t
  | none => .idleHead

/-- The next step of the thread; none where it waits. -/
def CallQueue.threadNext (s : CallQueue C N) (freed : Option N) : Option (CallQueue C N) :=
  match s.thread with
  | .starting => some { s.moveThread .testHead with futex := s.futex - 1 }
  | .testHead => some (s.moveThread (if s.next none = none then .testTail else .grabbing))
  | .testTail => some (s.moveThread (if s.tail = none then .idleHead else .grabbing))
  -- `head = uatomic_xchg_mo(&src_q_head->node.next, NULL)`
  | .grabbing =>
      match s.next none with
      | some h => some { s.moveThread (.swapping h) with next := Function.update s.next none none }
      | none => some (s.moveThread .recheck)
  | .recheck => some (s.moveThread (if s.tail = none then .idleHead else .grabbing))
  -- `tail = uatomic_xchg_mo(&src_q_tail->p, &src_q_head->node)`
  | .swapping h =>
      some { s.moveThread (.spliced h s.tail) with tail := none, batch := s.queue, queue := [] }
  -- `synchronize_rcu` comes back
  | .spliced h t => some (s.moveThread (.looking h t))
  | .looking cur t => some (s.moveThread (s.lookNext cur t))
  | .syncNext cur t =>
      match s.next (some cur) with
      | some m => some (s.moveThread (.running cur (some m) t))
      | none => none
  -- `rhp->func(rhp)`
  | .running cur nxt t =>
      some { s.moveThread (walkOn nxt t) with
        next := Function.update s.next (some cur) freed
        batch := s.batch.tail
        runs := s.runs ++ [cur] }
  | .idleHead => some (s.moveThread (if s.next none = none then .idleTail else .testHead))
  | .idleTail => some (s.moveThread (if s.tail = none then .waitLoad else .testHead))
  | .waitLoad => some (s.moveThread (if s.futex = -1 then .waitCall else .waited))
  -- `FUTEX_WAIT` compares once more: `EAGAIN` if the value has changed
  | .waitCall => some (s.moveThread (if s.futex = -1 then .asleep else .waited))
  | .asleep => none
  | .waited => some { s.moveThread .testHead with futex := s.futex - 1 }

/-- One step. -/
def queueStep (s : CallQueue C N) : QueueAct C N → Option (CallQueue C N)
  -- `cds_wfcq_node_init`
  | .call c n =>
      if s.callers c = .idle then
        some { s.moveCaller c (.ready n) with next := Function.update s.next (some n) none }
      else none
  | .caller c => s.callerNext c
  | .thread freed => s.threadNext freed
  | .spurious => if s.thread = .asleep then some (s.moveThread .waitLoad) else none

/-- `call_rcu_data_init`. -/
def queueMachine (C N : Type*) [DecidableEq C] [DecidableEq N] :
    Machine (CallQueue C N) (QueueAct C N) :=
  ⟨⟨fun _ => none, none, 0, fun _ => .idle, .starting, [], [], [], []⟩, queueStep⟩

/-- What `call_rcu` asks of its callers: the head is not one that is queued already. -/
def HeadIsFree (s : CallQueue C N) : QueueAct C N → Prop
  | .call _ n => n ∉ s.batch ++ s.queue ∧ ∀ c, s.callers c ≠ .ready n
  | _ => True

instance [Fintype C] (s : CallQueue C N) (a : QueueAct C N) : Decidable (HeadIsFree s a) :=
  match a with
  | .call _ n => inferInstanceAs (Decidable (n ∉ s.batch ++ s.queue ∧ ∀ c, s.callers c ≠ .ready n))
  | .caller _ | .thread _ | .spurious => .isTrue trivial

end Steps

/-! ## The invariant -/

section Inv

variable {C N : Type*}

/-- A caller has still to store the link. -/
def CallQueue.Pending (s : CallQueue C N) (a : Option N) (n : N) : Prop :=
  ∃ c, s.callers c = .linking n a

/-- The links of the queue; the thread has taken the one behind the head while it is between its two
    exchanges. -/
def CallQueue.queueLinks (s : CallQueue C N) : List (Option N × N) :=
  match s.thread, s.queue with
  | .swapping _, h :: l => succs (some h) l
  | _, l => succs none l

/-- The links of the list that is walked. -/
def batchLinks : List N → List (Option N × N)
  | [] => []
  | h :: l => succs (some h) l

def CallQueue.Link (s : CallQueue C N) (a : Option N) (n : N) : Prop :=
  (a, n) ∈ s.queueLinks ∨ (a, n) ∈ batchLinks s.batch

/-- The places nothing comes behind: the tail, and the end of the list that is walked. -/
def CallQueue.Last (s : CallQueue C N) (a : Option N) : Prop :=
  a = s.queue.getLast? ∨ s.batch ≠ [] ∧ a = s.batch.getLast?

/-- What the thread knows where it is. -/
def CallQueue.ThreadKnows (s : CallQueue C N) : Prop :=
  match s.thread with
  | .swapping h => s.batch = [] ∧ s.queue.head? = some h ∧ s.next none = none
  | .spliced h t | .looking h t => s.batch.head? = some h ∧ s.batch.getLast? = t
  | .syncNext h t => s.batch.head? = some h ∧ s.batch.getLast? = t ∧ t ≠ some h
  | .running cur nxt t =>
      s.batch.head? = some cur ∧ s.batch.getLast? = t ∧ s.batch.tail.head? = nxt ∧
        (nxt ≠ none → s.next (some cur) = nxt)
  | _ => s.batch = []

/-- The list in memory against the nodes that are queued. -/
structure CallQueue.ListInv (s : CallQueue C N) : Prop where
  fifo : s.calls = s.runs ++ (s.batch ++ s.queue)
  nodup : (s.batch ++ s.queue).Nodup
  tail : s.tail = s.queue.getLast?
  links : Links s.next s.Pending s.Link s.Last
  linkingOnce : ∀ c c' n a a', s.callers c = .linking n a → s.callers c' = .linking n a' → c = c'
  ready : ∀ c n, s.callers c = .ready n → n ∉ s.batch ++ s.queue ∧ s.next (some n) = none
  readyOnce : ∀ c c' n, s.callers c = .ready n → s.callers c' = .ready n → c = c'
  thread : s.ThreadKnows

/-! ### Places -/

variable {s : CallQueue C N}

theorem cons_of_head? {l : List N} {x : N} (h : l.head? = some x) : ∃ l', l = x :: l' := by
  cases l with
  | nil => cases h
  | cons y l' =>
      cases h
      exact ⟨l', rfl⟩

theorem getLast?_tail {l : List N} (h : l.tail ≠ []) : l.tail.getLast? = l.getLast? := by
  match l with
  | [] | [_] => exact absurd rfl h
  | _ :: _ :: _ => rfl

theorem queueLinks_eq (h : ∀ x, s.thread ≠ .swapping x) : s.queueLinks = succs none s.queue := by
  unfold CallQueue.queueLinks
  split
  · next x _ _ hpc _ => exact absurd hpc (h x)
  · rfl

theorem queueLinks_swapping {h : N} {l : List N} {x : N} (hpc : s.thread = .swapping x)
    (hqueue : s.queue = h :: l) : s.queueLinks = succs (some h) l := by
  rw [CallQueue.queueLinks, hpc, hqueue]

/-- The links of the queue are those behind the head, or all of these but the first. -/
theorem queueLinks_subset {p : Option N × N} (h : p ∈ s.queueLinks) : p ∈ succs none s.queue := by
  unfold CallQueue.queueLinks at h
  split at h
  · next hqueue =>
      rw [hqueue]
      exact List.mem_cons_of_mem _ h
  · exact h

theorem batchLinks_fst {l : List N} {x : Option N} {n : N} (h : (x, n) ∈ batchLinks l) :
    ∃ m ∈ l, x = some m := by
  cases l with
  | nil => cases h
  | cons m l =>
      rcases fst_of_mem_succs h with rfl | ⟨m', hm', rfl⟩
      · exact ⟨m, List.mem_cons_self .., rfl⟩
      · exact ⟨m', List.mem_cons_of_mem _ hm', rfl⟩

/-- A link starts at the head or at a node that is queued. -/
theorem CallQueue.Link.fst {a : Option N} {n : N} (h : s.Link a n) :
    a = none ∨ ∃ m ∈ s.batch ++ s.queue, a = some m := by
  rcases h with h | h
  · exact (fst_of_mem_succs (queueLinks_subset h)).imp_right fun ⟨m, hm, heq⟩ =>
      ⟨m, List.mem_append_right _ hm, heq⟩
  · obtain ⟨m, hm, rfl⟩ := batchLinks_fst h
    exact .inr ⟨m, List.mem_append_left _ hm, rfl⟩

/-- A link leads to a node that is queued. -/
theorem CallQueue.Link.snd {a : Option N} {n : N} (h : s.Link a n) : n ∈ s.batch ++ s.queue := by
  rcases h with h | h
  · exact List.mem_append_right _ (snd_of_mem_succs (queueLinks_subset h))
  · apply List.mem_append_left
    cases hb : s.batch with
    | nil =>
        rw [hb] at h
        cases h
    | cons m l =>
        rw [hb] at h
        exact List.mem_cons_of_mem _ (snd_of_mem_succs h)

/-- A last place is the head or a node that is queued. -/
theorem CallQueue.Last.place {a : Option N} (h : s.Last a) :
    a = none ∨ ∃ m ∈ s.batch ++ s.queue, a = some m := by
  have hlast : ∀ l : List N, l.getLast? = none ∨ ∃ m ∈ l, l.getLast? = some m := by
    intro l
    cases hl : l.getLast? with
    | none => exact .inl rfl
    | some m => exact .inr ⟨m, List.mem_of_getLast? hl, rfl⟩
  rcases h with rfl | ⟨-, rfl⟩
  · exact (hlast s.queue).imp_right fun ⟨m, hm, heq⟩ => ⟨m, List.mem_append_right _ hm, heq⟩
  · exact (hlast s.batch).imp_right fun ⟨m, hm, heq⟩ => ⟨m, List.mem_append_left _ hm, heq⟩

/-- A node that is not queued is not such a place. -/
theorem place_ne {l : List N} {n : N} (hn : n ∉ l) {a : Option N}
    (ha : a = none ∨ ∃ m ∈ l, a = some m) : a ≠ some n := by
  rintro rfl
  rcases ha with ha | ⟨m, hm, heq⟩
  · cases ha
  · cases heq
    exact hn hm

/-- What the thread knows is not changed by a caller that keeps to its own node and to links that
    are not stored yet. -/
theorem CallQueue.ThreadKnows.congr {s' : CallQueue C N} (h : s.ThreadKnows)
    (hthread : s'.thread = s.thread) (hbatch : s'.batch = s.batch)
    (hqueue : ∀ x, s.queue.head? = some x → s'.queue.head? = some x)
    (hhead : ∀ x, s.thread = .swapping x → s'.next none = s.next none)
    (hnode : ∀ m ∈ s.batch, s.next (some m) ≠ none → s'.next (some m) = s.next (some m)) :
    s'.ThreadKnows := by
  unfold CallQueue.ThreadKnows at h ⊢
  rw [hthread, hbatch]
  split at h
  · next x hpc => exact ⟨h.1, hqueue x h.2.1, (hhead x hpc).trans h.2.2⟩
  · exact h
  · exact h
  · exact h
  · next cur nxt t hpc =>
      refine ⟨h.1, h.2.1, h.2.2.1, fun hnxt => ?_⟩
      have hnext := h.2.2.2 hnxt
      rw [hnode cur (List.mem_of_head? h.1) (by rwa [hnext]), hnext]
  · exact h

end Inv

/-! ## Callers -/

section Callers

variable {C N : Type*} [DecidableEq C] [DecidableEq N] {s : CallQueue C N} {c : C} {n : N}

omit [DecidableEq N] in
/-- A place that one caller has not moved to is another caller's. -/
theorem of_moved {f : C → CallerPc N} {pc pc' : CallerPc N} {c' : C}
    (h : Function.update f c pc c' = pc') (hne : pc ≠ pc') : c' ≠ c ∧ f c' = pc' := by
  by_cases hc : c' = c
  · rw [hc, Function.update_self] at h
    exact absurd h hne
  · exact ⟨hc, by rwa [Function.update_of_ne hc] at h⟩

omit [DecidableEq N] in
/-- The links still have one caller each when a caller goes where there is none. -/
theorem linkingOnce_moved (h : s.ListInv) {pc : CallerPc N} (hpc : ∀ m a, pc ≠ .linking m a)
    {c₁ c₂ : C} {m : N} {a a' : Option N} (h₁ : Function.update s.callers c pc c₁ = .linking m a)
    (h₂ : Function.update s.callers c pc c₂ = .linking m a') : c₁ = c₂ :=
  h.linkingOnce c₁ c₂ m a a' (of_moved h₁ (hpc m a)).2 (of_moved h₂ (hpc m a')).2

omit [DecidableEq N] in
/-- The same of the nodes in the callers' hands. -/
theorem readyOnce_moved (h : s.ListInv) {pc : CallerPc N} (hpc : ∀ m, pc ≠ .ready m) {c₁ c₂ : C}
    {m : N} (h₁ : Function.update s.callers c pc c₁ = .ready m)
    (h₂ : Function.update s.callers c pc c₂ = .ready m) : c₁ = c₂ :=
  h.readyOnce c₁ c₂ m (of_moved h₁ (hpc m)).2 (of_moved h₂ (hpc m)).2

/-- A new call writes to its own node only. -/
theorem listInv_call (h : s.ListInv) (hidle : s.callers c = .idle)
    (hfree : n ∉ s.batch ++ s.queue ∧ ∀ c, s.callers c ≠ .ready n) :
    ({ s.moveCaller c (.ready n) with next := Function.update s.next (some n) none } :
      CallQueue C N).ListInv := by
  have hplace : ∀ a : Option N, (a = none ∨ ∃ m ∈ s.batch ++ s.queue, a = some m) →
      Function.update s.next (some n) none a = s.next a := fun a ha =>
    Function.update_of_ne (place_ne hfree.1 ha) ..
  refine ⟨h.fifo, h.nodup, h.tail, ?_, ?_, ?_, ?_, ?_⟩
  · refine h.links.restrict ?_ ?_ ?_ ?_ ?_
    · rintro a m ⟨c', hc'⟩
      exact ⟨c', (of_moved hc' (by simp)).2⟩
    · exact fun a m hl => ⟨hl, hplace a (CallQueue.Link.fst hl)⟩
    · rintro a m ⟨c', hc'⟩
      refine ⟨⟨c', ?_⟩, (h.links.pending a m ⟨c', hc'⟩).1⟩
      have hcne : c' ≠ c := by
        rintro rfl
        rw [hidle] at hc'
        cases hc'
      exact (Function.update_of_ne hcne ..).trans hc'
    · intro a ha
      have hold : s.Last a := ha
      exact (hplace a hold.place).trans (h.links.last a hold)
    · exact h.links.notLast
  · exact fun c₁ c₂ m a a' => linkingOnce_moved h (by simp)
  · intro c' m hm
    by_cases hmn : m = n
    · subst hmn
      exact ⟨hfree.1, Function.update_self ..⟩
    · have hold := h.ready c' m (of_moved hm (by simpa using Ne.symm hmn)).2
      exact ⟨hold.1, (Function.update_of_ne (by simpa using hmn) ..).trans hold.2⟩
  · intro c₁ c₂ m h₁ h₂
    by_cases hmn : m = n
    · subst hmn
      have hself : ∀ c', Function.update s.callers c (.ready m) c' = .ready m → c' = c := by
        intro c' heq
        by_contra hc
        rw [Function.update_of_ne hc] at heq
        exact hfree.2 c' heq
      rw [hself c₁ h₁, hself c₂ h₂]
    · have hne : CallerPc.ready n ≠ .ready m := by simpa using Ne.symm hmn
      exact h.readyOnce c₁ c₂ m (of_moved h₁ hne).2 (of_moved h₂ hne).2
  · refine h.thread.congr rfl rfl (fun _ hx => hx) (fun x _ => hplace none (.inl rfl)) ?_
    exact fun m hm _ => hplace (some m) (.inr ⟨m, List.mem_append_left _ hm, rfl⟩)

omit [DecidableEq C] [DecidableEq N] in
/-- The links with a node more at the end of the queue. -/
theorem queueLinks_snoc {s' : CallQueue C N} (hknows : s.ThreadKnows)
    (hthread : s'.thread = s.thread) (hqueue : s'.queue = s.queue ++ [n]) :
    s'.queueLinks = s.queueLinks ++ [(s.queue.getLast?, n)] := by
  by_cases hpc : ∃ x, s.thread = .swapping x
  · obtain ⟨x, hpc⟩ := hpc
    rw [CallQueue.ThreadKnows, hpc] at hknows
    obtain ⟨l, hl⟩ := cons_of_head? hknows.2.1
    rw [queueLinks_swapping hpc hl, queueLinks_swapping (hthread.trans hpc) (hqueue.trans (by
      rw [hl, List.cons_append])), succs_snoc, hl]
    cases l <;> rfl
  · rw [queueLinks_eq fun x hx => hpc ⟨x, hx⟩,
      queueLinks_eq fun x hx => hpc ⟨x, hthread.symm.trans hx⟩, hqueue, succs_snoc]
    cases s.queue.getLast? <;> rfl

omit [DecidableEq C] [DecidableEq N] in
theorem getLast?_snoc (l : List N) (n : N) : (l ++ [n]).getLast? = some n := by simp

/-- The state behind the exchange of a caller. -/
def CallQueue.exchanged (s : CallQueue C N) (c : C) (n : N) : CallQueue C N :=
  { s.moveCaller c (.linking n s.tail) with
    tail := some n, queue := s.queue ++ [n], calls := s.calls ++ [n] }

omit [DecidableEq N] in
/-- There is one link more, behind the old tail. -/
theorem link_exchanged (h : s.ListInv) {a : Option N} {m : N} :
    (s.exchanged c n).Link a m ↔ s.Link a m ∨ a = s.tail ∧ m = n := by
  have hsnoc : (s.exchanged c n).queueLinks = s.queueLinks ++ [(s.queue.getLast?, n)] :=
    queueLinks_snoc h.thread rfl rfl
  rw [CallQueue.Link, CallQueue.Link, hsnoc, List.mem_append, List.mem_singleton, Prod.mk.injEq,
    ← h.tail]
  exact or_right_comm

omit [DecidableEq N] in
/-- The old tail is no longer a last place, the node is one. -/
theorem last_exchanged (h : s.ListInv) {a : Option N} (ha : (s.exchanged c n).Last a) :
    s.Last a ∧ a ≠ s.tail ∨ a = some n := by
  rcases ha with ha | ⟨hne, ha⟩
  · exact .inr (ha.trans (getLast?_snoc _ _))
  · refine .inl ⟨.inr ⟨hne, ha⟩, fun htail => ?_⟩
    -- the list that is walked shares no node with the queue
    have hbatch : s.batch ≠ [] := hne
    obtain ⟨m, hm⟩ := Option.isSome_iff_exists.mp (List.getLast?_isSome.mpr hbatch)
    have hq : s.queue.getLast? = some m := by
      rw [← h.tail, ← htail, ha]
      exact hm
    exact (List.nodup_append.mp h.nodup).2.2 m (List.mem_of_getLast? hm) m
      (List.mem_of_getLast? hq) rfl

omit [DecidableEq N] in
theorem links_exchanged (h : s.ListInv) (hready : s.callers c = .ready n) :
    Links (s.exchanged c n).next (s.exchanged c n).Pending (s.exchanged c n).Link
      (s.exchanged c n).Last := by
  obtain ⟨hfree, hnone⟩ := h.ready c n hready
  have hlast : s.Last s.tail := .inl h.tail
  have happend := h.links.append (n := n) hlast (place_ne hfree hlast.place).symm hnone
    fun m hm => place_ne hfree hm.fst rfl
  refine happend.restrict ?_ (fun a m hl => ⟨(link_exchanged h).mp hl, rfl⟩) ?_
    (fun a ha => happend.last a (last_exchanged h ha)) (fun a m hl ha =>
      happend.notLast a m ((link_exchanged h).mp hl) (last_exchanged h ha))
  · rintro a m ⟨c', hc'⟩
    by_cases hc : c' = c
    · rw [hc] at hc'
      cases (Function.update_self ..).symm.trans hc'
      exact .inr ⟨rfl, rfl⟩
    · exact .inl ⟨c', (Function.update_of_ne hc ..).symm.trans hc'⟩
  · rintro a m (⟨c', hc'⟩ | ⟨rfl, rfl⟩)
    · have hc : c' ≠ c := by
        rintro rfl
        rw [hready] at hc'
        cases hc'
      exact ⟨⟨c', (Function.update_of_ne hc ..).trans hc'⟩,
        (link_exchanged h).mpr (.inl (h.links.pending a m ⟨c', hc'⟩).1)⟩
    · exact ⟨⟨c, Function.update_self ..⟩, (link_exchanged h).mpr (.inr ⟨rfl, rfl⟩)⟩

omit [DecidableEq N] in
/-- The node was not linked by anybody, so its new link has one caller. -/
theorem linkingOnce_exchanged (h : s.ListInv) (hfree : n ∉ s.batch ++ s.queue) {c₁ c₂ : C} {m : N}
    {a a' : Option N} (h₁ : (s.exchanged c n).callers c₁ = .linking m a)
    (h₂ : (s.exchanged c n).callers c₂ = .linking m a') : c₁ = c₂ := by
  by_cases hm : m = n
  · subst hm
    have hself : ∀ c' b, (s.exchanged c m).callers c' = .linking m b → c' = c := by
      intro c' b heq
      by_contra hc
      have hold : s.callers c' = .linking m b := (Function.update_of_ne hc ..).symm.trans heq
      exact hfree (CallQueue.Link.snd (h.links.pending b m ⟨c', hold⟩).1)
    rw [hself c₁ a h₁, hself c₂ a' h₂]
  · exact h.linkingOnce c₁ c₂ m a a'
      (of_moved h₁ (by simp [Ne.symm hm])).2 (of_moved h₂ (by simp [Ne.symm hm])).2

omit [DecidableEq N] in
/-- The exchange puts the node behind the last one. -/
theorem listInv_exchange (h : s.ListInv) (hready : s.callers c = .ready n) :
    (s.exchanged c n).ListInv := by
  obtain ⟨hfree, -⟩ := h.ready c n hready
  refine ⟨?_, ?_, (getLast?_snoc _ _).symm, links_exchanged h hready,
    fun _ _ _ _ _ => linkingOnce_exchanged h hfree, ?_,
    fun _ _ _ => readyOnce_moved h (by simp), ?_⟩
  · show s.calls ++ [n] = s.runs ++ (s.batch ++ (s.queue ++ [n]))
    rw [h.fifo]
    simp
  · show (s.batch ++ (s.queue ++ [n])).Nodup
    rw [← List.append_assoc]
    exact List.nodup_append.mpr ⟨h.nodup, List.nodup_singleton n, by
      intro m hm m' hm' heq
      rw [List.mem_singleton.mp hm'] at heq
      exact hfree (heq ▸ hm)⟩
  · intro c' m hm
    obtain ⟨hc, hold⟩ := of_moved hm (by simp)
    obtain ⟨hout, hnext⟩ := h.ready c' m hold
    have hmn : m ≠ n := by
      rintro rfl
      exact hc (h.readyOnce c' c m hold hready)
    refine ⟨?_, hnext⟩
    show m ∉ s.batch ++ (s.queue ++ [n])
    rw [← List.append_assoc, List.mem_append, List.mem_singleton]
    exact not_or.mpr ⟨hout, hmn⟩
  · refine h.thread.congr rfl rfl (fun x hx => ?_) (fun _ _ => rfl) (fun _ _ _ => rfl)
    show (s.queue ++ [n]).head? = some x
    rw [List.head?_append, hx]
    rfl

omit [DecidableEq C] [DecidableEq N] in
/-- Between the two exchanges nothing is linked behind the head. -/
theorem link_ne_head (hknows : s.ThreadKnows) {x : N} (hpc : s.thread = .swapping x)
    {a : Option N} {m : N} (h : s.Link a m) : a ≠ none := by
  rw [CallQueue.ThreadKnows, hpc] at hknows
  obtain ⟨hbatch, hhead, -⟩ := hknows
  rintro rfl
  rcases h with h | h
  · obtain ⟨l, hq⟩ := cons_of_head? hhead
    rw [queueLinks_swapping hpc hq] at h
    rcases fst_of_mem_succs h with heq | ⟨m', -, heq⟩ <;> cases heq
  · rw [hbatch] at h
    cases h

/-- The store fills the gap and nothing else. -/
theorem listInv_store (h : s.ListInv) {old : Option N} (hlinking : s.callers c = .linking n old) :
    ({ s.moveCaller c .enqueued with next := Function.update s.next old (some n) } :
      CallQueue C N).ListInv := by
  have hpending : s.Pending old n := ⟨c, hlinking⟩
  obtain ⟨hlink, hnone⟩ := h.links.pending old n hpending
  refine ⟨h.fifo, h.nodup, h.tail, ?_, ?_, ?_, ?_, ?_⟩
  · refine h.links.store hpending ?_ ?_
    · rintro a m ⟨c', hc'⟩
      obtain ⟨hc, hold⟩ := of_moved hc' (by simp)
      refine ⟨⟨c', hold⟩, ?_⟩
      rintro ⟨rfl, rfl⟩
      exact hc (h.linkingOnce c' c m a a hold hlinking)
    · rintro a m ⟨c', hc'⟩ ha
      have hc : c' ≠ c := by
        rintro rfl
        rw [hlinking] at hc'
        cases hc'
        exact ha rfl
      exact ⟨c', (Function.update_of_ne hc ..).trans hc'⟩
  · exact fun c₁ c₂ m a a' => linkingOnce_moved h (by simp)
  · intro c' m hm
    obtain ⟨-, hold⟩ := of_moved hm (by simp)
    obtain ⟨hout, hnext⟩ := h.ready c' m hold
    refine ⟨hout, (Function.update_of_ne ?_ ..).trans hnext⟩
    rintro rfl
    rcases hlink.fst with heq | ⟨m', hm', heq⟩
    · cases heq
    · cases heq
      exact hout hm'
  · exact fun c₁ c₂ m => readyOnce_moved h (by simp)
  · refine h.thread.congr rfl rfl (fun _ hx => hx) (fun x hpc => ?_) (fun m _ hm => ?_)
    · exact Function.update_of_ne (link_ne_head h.thread hpc hlink).symm ..
    · refine Function.update_of_ne ?_ ..
      rintro rfl
      exact hm hnone

/-- The caller has no node in its hands. -/
def CallerPc.quiet : CallerPc N → Bool
  | .ready _ | .linking .. => false
  | _ => true

omit [DecidableEq N] in
/-- What a caller does behind its store does not concern the list. -/
theorem listInv_quiet (h : s.ListInv) (hold : (s.callers c).quiet = true) {pc : CallerPc N}
    (hpc : pc.quiet = true) : (s.moveCaller c pc).ListInv := by
  have hsame : ∀ c' (pc' : CallerPc N), pc'.quiet = false →
      (Function.update s.callers c pc c' = pc' ↔ s.callers c' = pc') := by
    intro c' pc' hpc'
    by_cases hc : c' = c
    · rw [hc, Function.update_self]
      exact iff_of_false (fun heq => by simp [heq, hpc'] at hpc) fun heq => by
        simp [heq, hpc'] at hold
    · rw [Function.update_of_ne hc]
  have hpend : ∀ a m, (s.moveCaller c pc).Pending a m ↔ s.Pending a m := fun a m =>
    exists_congr fun c' => hsame c' _ rfl
  refine ⟨h.fifo, h.nodup, h.tail, ?_, ?_, ?_, ?_, h.thread⟩
  · exact h.links.restrict (fun a m => (hpend a m).mp) (fun a m hl => ⟨hl, rfl⟩)
      (fun a m hp => ⟨(hpend a m).mpr hp, (h.links.pending a m hp).1⟩) h.links.last h.links.notLast
  · intro c₁ c₂ m a a' h₁ h₂
    exact h.linkingOnce c₁ c₂ m a a' ((hsame _ _ rfl).mp h₁) ((hsame _ _ rfl).mp h₂)
  · exact fun c' m hm => h.ready c' m ((hsame _ _ rfl).mp hm)
  · exact fun c₁ c₂ m h₁ h₂ => h.readyOnce c₁ c₂ m ((hsame _ _ rfl).mp h₁) ((hsame _ _ rfl).mp h₂)

end Callers

/-! ## The thread -/

section Thread

variable {C N : Type*} {s : CallQueue C N}

/-- The thread moves and leaves the list alone. -/
theorem listInv_moveThread (h : s.ListInv) (hold : ∀ x, s.thread ≠ .swapping x) {pc : ThreadPc N}
    (hpc : ∀ x, pc ≠ .swapping x) (hknows : (s.moveThread pc).ThreadKnows) :
    (s.moveThread pc).ListInv := by
  have hlinks : (s.moveThread pc).queueLinks = s.queueLinks :=
    (queueLinks_eq hpc).trans (queueLinks_eq hold).symm
  have hlink : ∀ a n, (s.moveThread pc).Link a n ↔ s.Link a n := fun a n => by
    rw [CallQueue.Link, hlinks]
    rfl
  refine ⟨h.fifo, h.nodup, h.tail, ?_, h.linkingOnce, h.ready, h.readyOnce, hknows⟩
  exact h.links.restrict (fun _ _ hp => hp) (fun a n hl => ⟨(hlink a n).mp hl, rfl⟩)
    (fun a n hp => ⟨hp, (hlink a n).mpr (h.links.pending a n hp).1⟩) h.links.last
    fun a n hl => h.links.notLast a n ((hlink a n).mp hl)

/-- What is stored behind the head is the first node of the queue. -/
theorem queue_of_next_head (h : s.ListInv) (hpc : ∀ x, s.thread ≠ .swapping x) {x : N}
    (hnext : s.next none = some x) : ∃ l, s.queue = x :: l := by
  cases hq : s.queue with
  | nil =>
      have hlast : s.Last none := .inl (by rw [hq]; rfl)
      rw [h.links.last none hlast] at hnext
      cases hnext
  | cons y l =>
      have hlink : s.Link none y := .inl (by
        rw [queueLinks_eq hpc, hq]
        exact List.mem_cons_self ..)
      rw [h.links.eq_of_next hlink hnext]
      exact ⟨l, rfl⟩

variable [DecidableEq N]

/-- The first exchange takes the list from the head. -/
theorem listInv_grab (h : s.ListInv) (hpc : s.thread = .grabbing) {x : N}
    (hnext : s.next none = some x) :
    ({ s.moveThread (.swapping x) with next := Function.update s.next none none } :
      CallQueue C N).ListInv := by
  have hnot : ∀ y, s.thread ≠ .swapping y := by
    intro y hy
    rw [hpc] at hy
    cases hy
  obtain ⟨l, hq⟩ := queue_of_next_head h hnot hnext
  have hbatch : s.batch = [] := by
    have hknows := h.thread
    rwa [CallQueue.ThreadKnows, hpc] at hknows
  set s' : CallQueue C N :=
    { s.moveThread (.swapping x) with next := Function.update s.next none none } with hs'
  have hlinks' : s'.queueLinks = succs (some x) l := queueLinks_swapping rfl hq
  have hlinks : s.queueLinks = (none, x) :: succs (some x) l := by rw [queueLinks_eq hnot, hq, succs]
  have hlink : ∀ a n, s'.Link a n → s.Link a n := by
    rintro a n (hl | hl)
    · rw [hlinks'] at hl
      exact .inl (hlinks ▸ List.mem_cons_of_mem _ hl)
    · exact .inr hl
  have hknows : s'.ThreadKnows := by
    show s.batch = [] ∧ s.queue.head? = some x ∧ Function.update s.next none none none = none
    rw [hq]
    exact ⟨hbatch, rfl, Function.update_self ..⟩
  have hne : ∀ {a n}, s'.Link a n → a ≠ none := link_ne_head hknows rfl
  refine ⟨h.fifo, h.nodup, h.tail, ?_, h.linkingOnce, ?_, h.readyOnce, hknows⟩
  · refine h.links.restrict (fun _ _ hp => hp)
      (fun a n hl => ⟨hlink a n hl, Function.update_of_ne (hne hl) ..⟩) ?_ ?_ ?_
    · intro a n hp
      refine ⟨hp, ?_⟩
      obtain ⟨hl, hnone⟩ := h.links.pending a n hp
      -- the link behind the head is stored, so it is not this one
      have ha : a ≠ none := by
        rintro rfl
        rw [hnext] at hnone
        cases hnone
      rcases hl with hl | hl
      · rw [hlinks] at hl
        rcases List.mem_cons.mp hl with heq | hl
        · cases heq
          exact absurd rfl ha
        · exact .inl (hlinks' ▸ hl)
      · exact .inr hl
    · intro a ha
      show Function.update s.next none none a = none
      by_cases hnone : a = none
      · rw [hnone, Function.update_self]
      · rw [Function.update_of_ne hnone]
        exact h.links.last a ha
    · exact fun a n hl => h.links.notLast a n (hlink a n hl)
  · intro c n hn
    obtain ⟨hout, hnone⟩ := h.ready c n hn
    have hne : some n ≠ none := Option.some_ne_none n
    refine ⟨hout, ?_⟩
    show Function.update s.next none none (some n) = none
    rw [Function.update_of_ne hne]
    exact hnone

omit [DecidableEq N] in
/-- The second exchange makes the queue the list to walk. -/
theorem listInv_swap (h : s.ListInv) {x : N} (hpc : s.thread = .swapping x) :
    ({ s.moveThread (.spliced x s.tail) with tail := none, batch := s.queue, queue := [] } :
      CallQueue C N).ListInv := by
  have hknows := h.thread
  rw [CallQueue.ThreadKnows, hpc] at hknows
  obtain ⟨hbatch, hhead, hnone⟩ := hknows
  obtain ⟨l, hq⟩ := cons_of_head? hhead
  have hlinks : s.queueLinks = batchLinks s.queue := by
    rw [queueLinks_swapping hpc hq, hq]
    rfl
  set s' : CallQueue C N :=
    { s.moveThread (.spliced x s.tail) with tail := none, batch := s.queue, queue := [] } with hs'
  have hlink : ∀ a n, s'.Link a n ↔ s.Link a n := by
    intro a n
    have hempty : s'.queueLinks = [] := queueLinks_eq (by simp [hs', CallQueue.moveThread])
    rw [CallQueue.Link, CallQueue.Link, hempty, hlinks, hbatch]
    simp only [List.not_mem_nil, false_or, batchLinks, or_false]
    rfl
  have hnodup := h.nodup
  have hfifo := h.fifo
  rw [hbatch, List.nil_append] at hnodup hfifo
  refine ⟨?_, ?_, rfl, ?_, h.linkingOnce, ?_, h.readyOnce, ⟨hhead, h.tail.symm⟩⟩
  · show s.calls = s.runs ++ (s.queue ++ [])
    rwa [List.append_nil]
  · show (s.queue ++ []).Nodup
    rwa [List.append_nil]
  · refine h.links.restrict (fun _ _ hp => hp) (fun a n hl => ⟨(hlink a n).mp hl, rfl⟩)
      (fun a n hp => ⟨hp, (hlink a n).mpr (h.links.pending a n hp).1⟩) ?_ ?_
    · rintro a (rfl | ⟨-, rfl⟩)
      · exact hnone
      · exact h.links.last _ (.inl rfl)
    · rintro a n hl (rfl | ⟨-, rfl⟩)
      · exact link_ne_head h.thread hpc ((hlink _ _).mp hl) rfl
      · exact h.links.notLast _ _ ((hlink _ _).mp hl) (.inl rfl)
  · intro c n hn
    obtain ⟨hout, hnext⟩ := h.ready c n hn
    rw [hbatch, List.nil_append] at hout
    refine ⟨?_, hnext⟩
    show n ∉ s.queue ++ []
    rwa [List.append_nil]

/-- The state behind the callback of `cur`. -/
def CallQueue.called (s : CallQueue C N) (cur : N) (nxt t freed : Option N) : CallQueue C N :=
  { s.moveThread (walkOn nxt t) with
    next := Function.update s.next (some cur) freed
    batch := s.batch.tail
    runs := s.runs ++ [cur] }

variable {cur : N} {nxt t freed : Option N}

theorem queueLinks_called (hpc : s.thread = .running cur nxt t) :
    (s.called cur nxt t freed).queueLinks = s.queueLinks := by
  have hnot : ∀ y, s.thread ≠ .swapping y := by
    intro y hy
    rw [hpc] at hy
    cases hy
  have hnot' : ∀ y, (s.called cur nxt t freed).thread ≠ .swapping y := by
    intro y
    cases nxt <;> simp [CallQueue.called, CallQueue.moveThread, walkOn]
  exact (queueLinks_eq hnot').trans (queueLinks_eq hnot).symm

/-- No link comes into being. -/
theorem link_called (hpc : s.thread = .running cur nxt t) {a : Option N} {n : N}
    (hl : (s.called cur nxt t freed).Link a n) : s.Link a n := by
  rcases hl with hl | hl
  · exact .inl (queueLinks_called hpc ▸ hl)
  · have hl' : (a, n) ∈ batchLinks s.batch.tail := hl
    refine .inr ?_
    match hb : s.batch with
    | [] | [_] =>
        rw [hb] at hl'
        cases hl'
    | x :: m :: l =>
        rw [hb] at hl'
        exact List.mem_cons_of_mem _ hl'

/-- Only the link behind the node goes, which the thread has read. -/
theorem pending_called (h : s.ListInv) (hpc : s.thread = .running cur nxt t) {a : Option N} {n : N}
    (hp : s.Pending a n) : (s.called cur nxt t freed).Link a n := by
  have hknows := h.thread
  rw [CallQueue.ThreadKnows, hpc] at hknows
  obtain ⟨hhead, -, hnxt, hstored⟩ := hknows
  obtain ⟨l, hb⟩ := cons_of_head? hhead
  rw [hb, List.tail_cons] at hnxt
  obtain ⟨hl, hnone⟩ := h.links.pending a n hp
  rcases hl with hl | hl
  · exact .inl (queueLinks_called hpc ▸ hl)
  · right
    show (a, n) ∈ batchLinks s.batch.tail
    rw [hb, List.tail_cons]
    rw [hb] at hl
    cases l with
    | nil => cases hl
    | cons m l =>
        rcases List.mem_cons.mp hl with heq | hl
        · cases heq
          cases hnxt
          rw [hstored (by simp)] at hnone
          cases hnone
        · exact hl

theorem last_called {a : Option N} (ha : (s.called cur nxt t freed).Last a) : s.Last a := by
  rcases ha with ha | ⟨hne, ha⟩
  · exact .inl ha
  · have hne' : s.batch.tail ≠ [] := hne
    refine .inr ⟨fun hb => hne' (by rw [hb]; rfl), ha.trans (getLast?_tail hne')⟩

/-- The thread goes on with the next node of the list, or is done with it. -/
theorem knows_called (h : s.ListInv) (hpc : s.thread = .running cur nxt t) :
    (s.called cur nxt t freed).ThreadKnows := by
  have hknows := h.thread
  rw [CallQueue.ThreadKnows, hpc] at hknows
  obtain ⟨-, hlast, hnxt, -⟩ := hknows
  cases nxt with
  | none =>
      show s.batch.tail = []
      exact List.head?_eq_none_iff.mp hnxt
  | some m =>
      show s.batch.tail.head? = some m ∧ s.batch.tail.getLast? = t
      refine ⟨hnxt, ?_⟩
      rw [getLast?_tail (fun hnil => by rw [hnil] at hnxt; cases hnxt)]
      exact hlast

/-- The callback of the first node of the list runs; what becomes of the node concerns nobody. -/
theorem listInv_run (h : s.ListInv) (hpc : s.thread = .running cur nxt t) :
    (s.called cur nxt t freed).ListInv := by
  have hknows := h.thread
  rw [CallQueue.ThreadKnows, hpc] at hknows
  obtain ⟨l, hb⟩ := cons_of_head? hknows.1
  have hnodup := h.nodup
  have hfifo := h.fifo
  rw [hb, List.cons_append] at hnodup hfifo
  obtain ⟨hcur, hnodup⟩ := List.nodup_cons.mp hnodup
  have hbatch : (s.called cur nxt t freed).batch = l := by
    show s.batch.tail = l
    rw [hb, List.tail_cons]
  have hnext : ∀ a : Option N, a ≠ some cur → (s.called cur nxt t freed).next a = s.next a :=
    fun a ha => Function.update_of_ne ha ..
  have hplace : ∀ a : Option N, (a = none ∨ ∃ m ∈ (s.called cur nxt t freed).batch ++ s.queue,
      a = some m) → a ≠ some cur := by
    rw [hbatch]
    exact fun a => place_ne hcur
  refine ⟨?_, ?_, h.tail, ?_, h.linkingOnce, ?_, h.readyOnce, knows_called h hpc⟩
  · show s.calls = (s.runs ++ [cur]) ++ ((s.called cur nxt t freed).batch ++ s.queue)
    rw [hbatch, hfifo]
    simp
  · rw [hbatch]
    exact hnodup
  · exact h.links.restrict (fun _ _ hp => hp)
      (fun a n hl => ⟨link_called hpc hl, hnext a (hplace a hl.fst)⟩)
      (fun a n hp => ⟨hp, pending_called h hpc hp⟩)
      (fun a ha => (hnext a (hplace a ha.place)).trans (h.links.last a (last_called ha)))
      (fun a n hl ha => h.links.notLast a n (link_called hpc hl) (last_called ha))
  · intro c n hn
    obtain ⟨hout, hnone⟩ := h.ready c n hn
    rw [hb] at hout
    have hne : some n ≠ some cur := by
      rintro heq
      cases heq
      exact hout (List.mem_append_left _ (List.mem_cons_self ..))
    refine ⟨?_, (hnext _ hne).trans hnone⟩
    rw [hbatch]
    exact fun hmem => hout (List.mem_cons_of_mem _ hmem)

omit [DecidableEq N] in
theorem listInv_futex (h : s.ListInv) (x : Int) : ({ s with futex := x } : CallQueue C N).ListInv :=
  ⟨h.fifo, h.nodup, h.tail, h.links, h.linkingOnce, h.ready, h.readyOnce, h.thread⟩

omit [DecidableEq N] in
/-- What is stored behind the node the thread is at is the next one to run. -/
theorem batch_of_next (h : s.ListInv) {cur m : N} {l : List N} (hb : s.batch = cur :: l)
    (hnext : s.next (some cur) = some m) : l.head? = some m := by
  cases l with
  | nil =>
      have hlast : s.Last (some cur) := .inr ⟨by simp [hb], by rw [hb]; rfl⟩
      rw [h.links.last _ hlast] at hnext
      cases hnext
  | cons m' l =>
      have hlink : s.Link (some cur) m' := .inr (by
        rw [hb]
        exact List.mem_cons_self ..)
      rw [h.links.eq_of_next hlink hnext]
      rfl

omit [DecidableEq N] in
theorem threadKnows_running (h : s.ListInv) {cur m : N} {t : Option N}
    (hhead : s.batch.head? = some cur) (hlast : s.batch.getLast? = t)
    (hnext : s.next (some cur) = some m) :
    (s.moveThread (.running cur (some m) t)).ThreadKnows := by
  obtain ⟨l, hb⟩ := cons_of_head? hhead
  refine ⟨hhead, hlast, ?_, fun _ => hnext⟩
  show s.batch.tail.head? = some m
  rw [hb]
  exact batch_of_next h hb hnext

theorem threadKnows_lookNext (h : s.ListInv) {cur : N} {t : Option N}
    (hhead : s.batch.head? = some cur) (hlast : s.batch.getLast? = t) :
    (s.moveThread (s.lookNext cur t)).ThreadKnows := by
  unfold CallQueue.lookNext
  split
  · next m hnext => exact threadKnows_running h hhead hlast hnext
  · split_ifs with hend
    · refine ⟨hhead, hlast, ?_, fun hne => absurd rfl hne⟩
      obtain ⟨l, hb⟩ := cons_of_head? hhead
      -- the last node is the first one
      have hl : l = [] := by
        cases l with
        | nil => rfl
        | cons m l =>
            have hcur := (List.nodup_cons.mp (List.nodup_append.mp (hb ▸ h.nodup)).1).1
            rw [hb, hend] at hlast
            have hlast' : (m :: l).getLast? = some cur := hlast
            exact absurd (List.mem_of_getLast? hlast') hcur
      show s.batch.tail.head? = none
      rw [hb, hl]
      rfl
    · exact ⟨hhead, hlast, hend⟩

theorem lookNext_ne_swapping (cur : N) (t : Option N) (x : N) : s.lookNext cur t ≠ .swapping x := by
  unfold CallQueue.lookNext
  split
  · simp
  · split_ifs <;> simp

/-- The thread has no list in its hands. -/
def ThreadPc.atRest : ThreadPc N → Bool
  | .swapping _ | .spliced .. | .looking .. | .syncNext .. | .running .. => false
  | _ => true

omit [DecidableEq N] in
theorem threadKnows_iff (hpc : s.thread.atRest = true) : s.ThreadKnows ↔ s.batch = [] := by
  unfold CallQueue.ThreadKnows
  split <;> simp_all [ThreadPc.atRest]

omit [DecidableEq N] in
theorem listInv_rest (h : s.ListInv) (hold : s.thread.atRest = true) {pc : ThreadPc N}
    (hpc : pc.atRest = true) : (s.moveThread pc).ListInv := by
  refine listInv_moveThread h ?_ ?_ ((threadKnows_iff hpc).mpr ((threadKnows_iff hold).mp h.thread))
  · intro x hx
    rw [hx] at hold
    cases hold
  · intro x hx
    rw [hx] at hpc
    cases hpc

/-- The thread keeps the list. -/
theorem listInv_threadNext (h : s.ListInv) {s' : CallQueue C N} {freed : Option N}
    (hs : s.threadNext freed = some s') : s'.ListInv := by
  have hknows := h.thread
  unfold CallQueue.ThreadKnows at hknows
  unfold CallQueue.threadNext at hs
  cases hpc : s.thread <;> rw [hpc] at hknows hs <;> dsimp only at hknows hs
  case asleep => cases hs
  case grabbing =>
      split at hs
      · next x hnext =>
          cases hs
          exact listInv_grab h hpc hnext
      · cases hs
        exact listInv_rest h (by rw [hpc]; rfl) rfl
  case swapping x =>
      cases hs
      exact listInv_swap h hpc
  case spliced x t =>
      cases hs
      exact listInv_moveThread h (by simp [hpc]) (by simp) hknows
  case looking cur t =>
      cases hs
      exact listInv_moveThread h (by simp [hpc]) (lookNext_ne_swapping cur t)
        (threadKnows_lookNext h hknows.1 hknows.2)
  case syncNext cur t =>
      split at hs
      · next m hnext =>
          cases hs
          exact listInv_moveThread h (by simp [hpc]) (by simp)
            (threadKnows_running h hknows.1 hknows.2.1 hnext)
      · cases hs
  case running cur nxt t =>
      cases hs
      exact listInv_run h hpc
  case starting | waited =>
      cases hs
      exact listInv_futex (listInv_rest h (by rw [hpc]; rfl) rfl) _
  all_goals
    cases hs
    exact listInv_rest h (by rw [hpc]; rfl) (by split_ifs <;> rfl)

end Thread

end NomosRt.Rcu
