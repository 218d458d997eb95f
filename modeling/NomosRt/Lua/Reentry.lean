/-
  NomosRt.Lua.Reentry

  The Lua mutex and the call back from Fennel into C++.

  `eval`, `dispatch_osc` and `tick_once` hold `mutex_` while Fennel code runs.
  That code may call `osc.register` and `osc.unregister`, which call the global
  `nomos_osc_push_endpoints` when it is set; the closure there calls
  `osc_server::push_endpoints`, which asks `get_osc_endpoints` for the list when a
  sender is known.  `get_osc_endpoints` locks `mutex_`, which is not recursive.

  A thread is its stack of calls.  A Fennel program is the list of what it does
  that matters here: its loops unrolled, cut off where it raises.  Which scheduled
  thunks are due at a tick is the clock's choice.  `get_endpoints` and `dispatch`
  are wired as the headers say, or `get_endpoints` is left empty (`wired`).  The
  two short regions of `sender_mutex_`, which take no other lock, are single steps.
-/

import NomosRt.Lib.Machine
import NomosRt.Lib.Mutex

namespace NomosRt.Lua

open NomosRt.Lib

/-! ## Programs and calls -/

/-- What a Fennel program does. -/
inductive Op where
  | other
  /-- `(osc.register path handler)`. -/
  | register (path : String) (handler : List Op)
  | unregister (path : String)
  /-- `(let [f (. _G :nomos_osc_push_endpoints)] (when f (f)))`. -/
  | notify
  /-- `(schedule-at timing thunk)`. -/
  | scheduleAt (thunk : List Op)

/-- The functions that lock `mutex_`. -/
inductive LuaEntry where
  | eval (src : List Op)
  | dispatchOsc (path : String)
  | tickOnce (due : Nat → Bool)
  | getOscEndpoints
  | registerOscPushFn
  | registerWasmSwapFn

/-- A call on a thread's stack. -/
inductive Frame where
  /-- Before the `lock_guard`. -/
  | lock (e : LuaEntry)
  /-- Behind it, in the Lua state. -/
  | run (code : List Op)
  /-- `get_osc_endpoints` behind its `lock_guard`. -/
  | list
  /-- `push_endpoints` at its test of `get_endpoints`. -/
  | pushEnter
  /-- `push_endpoints` at its look at the sender record. -/
  | pushCopy
  /-- `push_endpoints` behind `get_endpoints`. -/
  | pushSend

/-- Inside a critical section of `mutex_`. -/
def Frame.inside : Frame → Bool
  | .run _ | .list => true
  | _ => false

/-- At a lock of `mutex_`. -/
def Frame.isLock : Frame → Bool
  | .lock _ => true
  | _ => false

/-- Some call on the stack is inside a critical section. -/
def holds (st : List Frame) : Bool := st.any Frame.inside

/-- What `handle_packet` makes of a packet. -/
inductive Route where
  | static
  | endpoints
  | fennel (path : String)

/-- The mutex, the threads' stacks, the Lua globals and the sender record. -/
structure ReState (T : Type*) where
  mutex : Option T
  stack : T → List Frame
  /-- `nomos-osc-dispatch`. -/
  dispatch : String → Option (List Op)
  /-- The thunks of `nomos-scheduled`. -/
  scheduled : List (List Op)
  /-- `nomos_osc_push_endpoints` is set. -/
  pushFn : Bool
  hasSender : Bool

/-- A call from outside, a packet, or a thread's next step. -/
inductive ReAct (T : Type*) where
  | call (t : T) (e : LuaEntry)
  | push (t : T)
  | packet (t : T) (route : Route)
  | step (t : T)

section Steps

variable {T : Type*}

/-- Behind the `lock_guard`: what runs, and what is done to the globals. -/
def ReState.enter (s : ReState T) : LuaEntry → ReState T × Frame
  | .eval src => (s, .run src)
  | .dispatchOsc path => (s, .run ((s.dispatch path).getD []))
  | .tickOnce due =>
      -- `nomos_rt_tick` takes the due thunks out and calls them in turn
      let due := s.scheduled.zipIdx.partition fun e => due e.2
      ({ s with scheduled := due.2.map Prod.fst }, .run (due.1.map Prod.fst).flatten)
  | .getOscEndpoints => (s, .list)
  | .registerOscPushFn => ({ s with pushFn := true }, .run [])
  | .registerWasmSwapFn => (s, .run [])

variable [DecidableEq T]

def ReState.setStack (s : ReState T) (t : T) (st : List Frame) : ReState T :=
  { s with stack := Function.update s.stack t st }

/-- One step of Fennel code. -/
def ReState.runOp (s : ReState T) (t : T) (op : Op) (code : List Op) (rest : List Frame) :
    ReState T :=
  match op with
  | .other => s.setStack t (.run code :: rest)
  | .register path handler =>
      -- `tset` first, then the notification
      ReState.setStack { s with dispatch := Function.update s.dispatch path (some handler) } t
        (.run (.notify :: code) :: rest)
  | .unregister path =>
      ReState.setStack { s with dispatch := Function.update s.dispatch path none } t
        (.run (.notify :: code) :: rest)
  | .notify =>
      s.setStack t (if s.pushFn then .pushEnter :: .run code :: rest else .run code :: rest)
  | .scheduleAt thunk =>
      ReState.setStack { s with scheduled := s.scheduled ++ [thunk] } t (.run code :: rest)

/-- A thread's next step. -/
def ReState.next (wired : Bool) (s : ReState T) (t : T) : Option (ReState T) :=
  match s.stack t with
  | [] => none
  | .lock e :: rest =>
      if s.mutex.isNone then
        some (ReState.setStack { (s.enter e).1 with mutex := some t } t ((s.enter e).2 :: rest))
      else none
  | .run [] :: rest => some (ReState.setStack { s with mutex := none } t rest)
  | .run (op :: code) :: rest => some (s.runOp t op code rest)
  | .list :: rest => some (ReState.setStack { s with mutex := none } t rest)
  -- no `get_endpoints`, nothing to send
  | .pushEnter :: rest => some (s.setStack t (if wired then .pushCopy :: rest else rest))
  | .pushCopy :: rest =>
      -- with a sender on record the list is asked for, under whatever calls are below
      some (s.setStack t
        (if s.hasSender then .lock .getOscEndpoints :: .pushSend :: rest else rest))
  | .pushSend :: rest => some (s.setStack t rest)

/-- The calls `handle_packet` makes. -/
def Route.calls (wired : Bool) : Route → List Frame
  | .static => []
  | .endpoints => if wired then [.lock .getOscEndpoints] else []
  | .fennel path => [.lock (.dispatchOsc path)]

/-- One step; a thread with calls under way makes no other. -/
def reStep (wired : Bool) (s : ReState T) : ReAct T → Option (ReState T)
  | .call t e => if (s.stack t).isEmpty then some (s.setStack t [.lock e]) else none
  | .push t => if (s.stack t).isEmpty then some (s.setStack t [.pushEnter]) else none
  | .packet t route =>
      -- every packet leaves its sender in the record before it is handled
      if (s.stack t).isEmpty then
        some (ReState.setStack { s with hasSender := true } t (route.calls wired))
      else none
  | .step t => s.next wired t

/-- After `load()`. -/
def reMachine (T : Type*) [DecidableEq T] (wired : Bool) : Machine (ReState T) (ReAct T) :=
  ⟨⟨none, fun _ => [], fun _ => none, [], false, false⟩, reStep wired⟩

end Steps

/-! ## A thread that waits for itself -/

section Blocking

variable {T : Type*}

/-- The thread is at a lock of `mutex_`. -/
def ReState.locking (s : ReState T) (t : T) : Bool :=
  match s.stack t with
  | .lock _ :: _ => true
  | _ => false

/-- The thread is about to look at the sender record. -/
def ReState.copies (s : ReState T) (t : T) : Bool :=
  match s.stack t with
  | .pushCopy :: _ => true
  | _ => false

/-- The thread locks the mutex it holds. -/
def ReState.SelfBlocked (s : ReState T) (t : T) : Prop := s.locking t ∧ s.mutex = some t

/-- A `push_endpoints` under Fennel code finds no sender. -/
def PushUnheard (s : ReState T) : ReAct T → Prop
  | .step t => ¬ (s.copies t ∧ s.mutex = some t ∧ s.hasSender)
  | _ => True

instance [DecidableEq T] (s : ReState T) : (a : ReAct T) → Decidable (PushUnheard s a)
  | .step _ => inferInstanceAs (Decidable (¬ _))
  | .call _ _ | .push _ | .packet _ _ => .isTrue trivial

end Blocking

/-! ## The invariant -/

/-- Only the top call may be at a lock, and a critical section is entered once. -/
def StackOk : List Frame → Prop
  | [] => True
  | f :: rest => (∀ g ∈ rest, g.isLock = false) ∧ (f.inside → holds rest = false) ∧ StackOk rest

theorem holds_cons (f : Frame) (rest : List Frame) : holds (f :: rest) = (f.inside || holds rest) :=
  rfl

section Invariant

variable {T : Type*}

/-- The holder of the mutex is the thread inside a critical section, and is not at a lock. -/
structure ReInv (mutex : Option T) (stack : T → List Frame) : Prop where
  held : Held mutex (fun t => holds (stack t))
  frames : ∀ t, StackOk (stack t)
  apart : ∀ t e rest, stack t = .lock e :: rest → holds rest = false

variable {mutex : Option T} {stack : T → List Frame} {t : T}

/-- A thread at a lock does not hold the mutex. -/
theorem ReInv.not_selfBlocked {s : ReState T} (h : ReInv s.mutex s.stack) (t : T) :
    ¬ s.SelfBlocked t := by
  rintro ⟨hlock, hm⟩
  have hholds : holds (s.stack t) = true := (h.held t).mp hm
  unfold ReState.locking at hlock
  split at hlock
  · rename_i e rest hst
    rw [hst, holds_cons, h.apart t e rest hst] at hholds
    exact absurd hholds (by simp [Frame.inside])
  · exact absurd hlock (by simp)

/-- What is under the top call of an `ok` stack is not at a lock. -/
theorem StackOk.not_lock {f : Frame} {rest : List Frame} (h : StackOk (f :: rest)) {e : LuaEntry}
    {below : List Frame} (hrest : rest = .lock e :: below) : False := by
  have hlock := h.1 (.lock e) (by rw [hrest]; exact List.mem_cons_self ..)
  exact absurd hlock (by simp [Frame.isLock])

variable [DecidableEq T]

/-- One thread's stack changes, and the mutex with it. -/
theorem ReInv.setStack {mutex' : Option T} {st : List Frame} (h : ReInv mutex stack)
    (hheld : Held mutex' (fun u => holds (Function.update stack t st u))) (hok : StackOk st)
    (hlock : ∀ e rest, st = .lock e :: rest → holds rest = false) :
    ReInv mutex' (Function.update stack t st) := by
  refine ⟨hheld, fun u => ?_, fun u e rest hu => ?_⟩
  · by_cases hut : u = t
    · rw [hut, Function.update_self]
      exact hok
    · rw [Function.update_of_ne hut]
      exact h.frames u
  · by_cases hut : u = t
    · rw [hut, Function.update_self] at hu
      exact hlock e rest hu
    · rw [Function.update_of_ne hut] at hu
      exact h.apart u e rest hu

theorem holds_update_of_ne {st : List Frame} (u : T) (hu : u ≠ t) :
    (holds (Function.update stack t st u) = true) ↔ (holds (stack u) = true) := by
  rw [Function.update_of_ne hu]

/-- The thread neither enters nor leaves a critical section. -/
theorem ReInv.keep {st : List Frame} (h : ReInv mutex stack) (hsame : holds st = holds (stack t))
    (hok : StackOk st) (hlock : ∀ e rest, st = .lock e :: rest → holds rest = false) :
    ReInv mutex (Function.update stack t st) :=
  h.setStack (h.held.keep holds_update_of_ne (by rw [Function.update_self, hsame])) hok hlock

/-- It leaves one: nothing under it is inside. -/
theorem ReInv.leave {f : Frame} {rest : List Frame} (h : ReInv mutex stack)
    (hst : stack t = f :: rest) (hf : f.inside) : ReInv none (Function.update stack t rest) := by
  have hok := h.frames t
  rw [hst] at hok
  refine h.setStack (h.held.release (p := t) ?_ holds_update_of_ne ?_) hok.2.2
    fun e below hrest => ?_
  · rw [hst, holds_cons, hf, Bool.true_or]
  · rw [Function.update_self, hok.2.1 hf]
    simp
  · exact absurd hrest fun hrest => hok.not_lock hrest

/-- It goes back to the call below. -/
theorem ReInv.pop {f : Frame} {rest : List Frame} (h : ReInv mutex stack)
    (hst : stack t = f :: rest) (hf : f.inside = false) :
    ReInv mutex (Function.update stack t rest) := by
  have hok := h.frames t
  rw [hst] at hok
  refine h.keep ?_ hok.2.2 fun e below hrest => absurd hrest fun hrest => hok.not_lock hrest
  rw [hst, holds_cons, hf, Bool.false_or]

/-- The top call moves on, or makes another one, away from the locks. -/
theorem ReInv.replace {f g : Frame} {rest : List Frame} (h : ReInv mutex stack)
    (hst : stack t = f :: rest) (hsame : g.inside = f.inside) (hlock : g.isLock = false) :
    ReInv mutex (Function.update stack t (g :: rest)) := by
  have hok := h.frames t
  rw [hst] at hok
  refine h.keep ?_ ⟨hok.1, fun hg => hok.2.1 (hsame ▸ hg), hok.2.2⟩ fun e below heq => ?_
  · rw [hst, holds_cons, holds_cons, hsame]
  · rw [(List.cons.inj heq).1] at hlock
    exact absurd hlock (by simp [Frame.isLock])

/-- A call under Fennel code. -/
theorem ReInv.callBack {f g : Frame} {rest : List Frame} (h : ReInv mutex stack)
    (hst : stack t = f :: rest) (hf : f.isLock = false) (hg : g.inside = false)
    (hlock : g.isLock = false) : ReInv mutex (Function.update stack t (g :: f :: rest)) := by
  have hok := h.frames t
  rw [hst] at hok
  refine h.keep ?_ ⟨fun x hx => ?_, fun hin => ?_, hok⟩ fun e below heq => ?_
  · rw [hst, holds_cons g, hg, Bool.false_or]
  · rcases List.mem_cons.mp hx with rfl | hx
    · exact hf
    · exact hok.1 x hx
  · rw [hg] at hin
    exact absurd hin (by simp)
  · rw [(List.cons.inj heq).1] at hlock
    exact absurd hlock (by simp [Frame.isLock])

/-- A lock is taken. -/
theorem ReInv.acquire {e : LuaEntry} {f : Frame} {rest : List Frame} (h : ReInv mutex stack)
    (hst : stack t = .lock e :: rest) (hm : mutex = none) (hf : f.inside)
    (hlock : f.isLock = false) :
    ReInv (some t) (Function.update stack t (f :: rest)) := by
  have hok := h.frames t
  rw [hst] at hok
  refine h.setStack (h.held.acquire hm holds_update_of_ne ?_)
    ⟨hok.1, fun _ => h.apart t e rest hst, hok.2.2⟩ fun e' below heq => ?_
  · rw [Function.update_self, holds_cons, hf, Bool.true_or]
  · rw [(List.cons.inj heq).1] at hlock
    exact absurd hlock (by simp [Frame.isLock])

/-- A thread with nothing under way begins a call. -/
theorem ReInv.begin {st : List Frame} (h : ReInv mutex stack) (hst : stack t = [])
    (hone : st = [] ∨ ∃ f, st = [f] ∧ f.inside = false) :
    ReInv mutex (Function.update stack t st) := by
  rcases hone with rfl | ⟨f, rfl, hf⟩
  · exact h.keep (by rw [hst]) trivial (by simp)
  · refine h.keep ?_ ⟨by simp, by simp [hf], trivial⟩ fun e rest heq => ?_
    · rw [hst, holds_cons, hf]
      rfl
    · rw [← (List.cons.inj heq).2]
      rfl

variable {s s' : ReState T} {wired : Bool}

omit [DecidableEq T] in
/-- Behind the `lock_guard` a thread is inside, and the mutex and the stacks are as they
    were. -/
theorem enter_frame (s : ReState T) (e : LuaEntry) :
    (s.enter e).1.stack = s.stack ∧ (s.enter e).2.inside ∧ (s.enter e).2.isLock = false := by
  cases e <;> exact ⟨rfl, rfl, rfl⟩

/-- Fennel code keeps the mutex. -/
theorem inv_runOp {op : Op} {code : List Op} {rest : List Frame} (h : ReInv s.mutex s.stack)
    (hst : s.stack t = .run (op :: code) :: rest) :
    ReInv (s.runOp t op code rest).mutex (s.runOp t op code rest).stack := by
  cases op with
  | other => exact h.replace hst rfl rfl
  | register path handler => exact h.replace hst rfl rfl
  | unregister path => exact h.replace hst rfl rfl
  | scheduleAt thunk => exact h.replace hst rfl rfl
  | notify =>
      have hrun := h.replace (g := .run code) hst rfl rfl
      change ReInv s.mutex (Function.update s.stack t (if s.pushFn then
        .pushEnter :: .run code :: rest else .run code :: rest))
      split
      · have hcall := hrun.callBack (g := .pushEnter) (Function.update_self _ _ _) rfl rfl rfl
        rw [Function.update_idem] at hcall
        exact hcall
      · exact hrun

theorem inv_next (h : ReInv s.mutex s.stack) (hG : PushUnheard s (.step t))
    (hstep : s.next wired t = some s') : ReInv s'.mutex s'.stack := by
  unfold ReState.next at hstep
  split at hstep <;> rename_i hst
  · exact absurd hstep (by simp)
  · -- a lock on top has no critical section below it, so taking it makes one
    rename_i e rest
    simp only [Option.ite_none_right_eq_some, Option.some.injEq] at hstep
    obtain ⟨hm, rfl⟩ := hstep
    obtain ⟨hstack, hin, hlock⟩ := enter_frame s e
    have hacq := h.acquire hst (Option.isNone_iff_eq_none.mp hm) hin hlock
    rw [← hstack] at hacq
    exact hacq
  · obtain rfl := Option.some.inj hstep
    exact h.leave hst rfl
  · obtain rfl := Option.some.inj hstep
    exact inv_runOp h hst
  · obtain rfl := Option.some.inj hstep
    exact h.leave hst rfl
  · rename_i rest
    obtain rfl := Option.some.inj hstep
    change ReInv s.mutex (Function.update s.stack t (if wired then .pushCopy :: rest else rest))
    split
    · exact h.replace hst rfl rfl
    · exact h.pop hst rfl
  · rename_i rest
    obtain rfl := Option.some.inj hstep
    change ReInv s.mutex (Function.update s.stack t
      (if s.hasSender then .lock .getOscEndpoints :: .pushSend :: rest else rest))
    split
    · -- a sender is known, so nothing below is Fennel code
      rename_i hsender
      have hout : holds (s.stack t) = false := by
        by_contra hholds
        have hm : s.mutex = some t := (h.held t).mpr (by simpa using hholds)
        exact hG ⟨by simp [ReState.copies, hst], hm, hsender⟩
      have hok := h.frames t
      rw [hst] at hok hout
      have hsend : holds (Frame.pushSend :: rest) = false := hout
      refine h.keep ?_ ⟨fun x hx => ?_, by simp [Frame.inside], hok.1, by simp [Frame.inside],
        hok.2.2⟩ fun e below heq => ?_
      · rw [hst, hout]
        exact hsend
      · rcases List.mem_cons.mp hx with rfl | hx
        · rfl
        · exact hok.1 x hx
      · rw [← (List.cons.inj heq).2]
        exact hsend
    · exact h.pop hst rfl
  · obtain rfl := Option.some.inj hstep
    exact h.pop hst rfl

theorem route_calls (wired : Bool) (route : Route) :
    route.calls wired = [] ∨ ∃ f, route.calls wired = [f] ∧ f.inside = false := by
  rcases route with _ | _ | path
  · exact .inl rfl
  · rcases wired with _ | _
    · exact .inl rfl
    · exact .inr ⟨_, rfl, rfl⟩
  · exact .inr ⟨_, rfl, rfl⟩

theorem inv_reStep {a : ReAct T} (h : ReInv s.mutex s.stack) (hG : PushUnheard s a)
    (hstep : reStep wired s a = some s') : ReInv s'.mutex s'.stack := by
  cases a with
  | call t e =>
      simp only [reStep, Option.ite_none_right_eq_some, Option.some.injEq,
        List.isEmpty_iff] at hstep
      obtain ⟨hst, rfl⟩ := hstep
      exact h.begin hst (.inr ⟨_, rfl, rfl⟩)
  | push t =>
      simp only [reStep, Option.ite_none_right_eq_some, Option.some.injEq,
        List.isEmpty_iff] at hstep
      obtain ⟨hst, rfl⟩ := hstep
      exact h.begin hst (.inr ⟨_, rfl, rfl⟩)
  | packet t route =>
      simp only [reStep, Option.ite_none_right_eq_some, Option.some.injEq,
        List.isEmpty_iff] at hstep
      obtain ⟨hst, rfl⟩ := hstep
      exact h.begin hst (route_calls wired route)
  | step t => exact inv_next h hG hstep

theorem reInv_start (wired : Bool) :
    ReInv (reMachine T wired).start.mutex (reMachine T wired).start.stack :=
  ⟨fun t => by simp [reMachine, holds], fun t => trivial, by simp [reMachine]⟩

/-- A `push_endpoints` under Fennel code that finds a sender locks the mutex its thread
    holds. -/
theorem selfBlocked_of_heard {a : ReAct T} (hstep : reStep wired s a = some s')
    (hG : ¬ PushUnheard s a) : ∃ t, s'.SelfBlocked t := by
  rcases a with ⟨t, e⟩ | t | ⟨t, route⟩ | t
  · exact absurd trivial hG
  · exact absurd trivial hG
  · exact absurd trivial hG
  · obtain ⟨hcopies, hm, hsender⟩ := not_not.mp hG
    unfold ReState.copies at hcopies
    split at hcopies
    · rename_i rest hst
      simp only [reStep, ReState.next, hst, hsender, if_true, Option.some.injEq] at hstep
      subst hstep
      refine ⟨t, ?_, hm⟩
      simp [ReState.locking, ReState.setStack]
    · exact absurd hcopies (by simp)

/-- In every run in which no `push_endpoints` under Fennel code finds a sender, no thread
    locks the mutex it holds; and the step at which one does find a sender makes its thread
    do so. -/
theorem lua_mutex_not_reentered (wired : Bool) :
    (∀ (as : List (ReAct T)) (s : ReState T),
      (reMachine T wired).Reached PushUnheard as s → ∀ t, ¬ s.SelfBlocked t) ∧
    ∀ (s : ReState T) (a : ReAct T) (s' : ReState T),
      reStep wired s a = some s' → ¬ PushUnheard s a → ∃ t, s'.SelfBlocked t := by
  refine ⟨fun as s h => ?_, fun s a s' hstep hG => selfBlocked_of_heard hstep hG⟩
  have hinv := h.invariant (I := fun s => ReInv s.mutex s.stack) (reInv_start wired)
    fun _ _ _ hI hG hstep => inv_reStep hI hG hstep
  exact hinv.not_selfBlocked

end Invariant

/-- Thread 0 wires the push and evaluates `(osc.register "/grid" ...)`; thread 1 receives a
    packet for that handler afterwards. -/
def quietSchedule : List (ReAct Nat) :=
  [.call 0 .registerOscPushFn, .step 0, .step 0,
   .call 0 (.eval [.register "/grid" [.other]]), .step 0, .step 0, .step 0, .step 0, .step 0,
   .step 0, .packet 1 (.fennel "/grid"), .step 1, .step 1]

theorem lua_mutex_quietSchedule :
    ∃ s, (reMachine Nat true).Reached PushUnheard quietSchedule s ∧ s.pushFn = true ∧
      s.hasSender = true ∧ s.mutex = some 1 ∧ ∀ t, ¬ s.SelfBlocked t := by
  have hrun : ((reMachine Nat true).runIf PushUnheard (reMachine Nat true).start
      quietSchedule).map (fun s => (s.pushFn, s.hasSender, s.mutex)) =
      some (true, true, some 1) := by decide
  obtain ⟨s, hs, hview⟩ := Option.map_eq_some_iff.mp hrun
  simp only [Prod.mk.injEq] at hview
  have hreached := Machine.reached_of_runIf hs
  exact ⟨s, hreached, hview.1, hview.2.1, hview.2.2,
    (lua_mutex_not_reentered true).1 quietSchedule s hreached⟩

/-- The same with a packet first. -/
def heardSchedule : List (ReAct Nat) :=
  [.packet 1 .static, .call 0 .registerOscPushFn, .step 0, .step 0,
   .call 0 (.eval [.register "/grid" [.other]]), .step 0, .step 0, .step 0, .step 0, .step 0]

/-- The evaluation waits for the mutex it holds, and nobody else can get it. -/
theorem lua_mutex_reentered :
    ∃ s, (reMachine Nat true).Reached Machine.free heardSchedule s ∧ s.SelfBlocked 0 := by
  have hrun : ((reMachine Nat true).run (reMachine Nat true).start heardSchedule).map
      (fun s => (s.locking 0, s.mutex)) = some (true, some 0) := by decide
  obtain ⟨s, hs, hview⟩ := Option.map_eq_some_iff.mp hrun
  rw [Prod.mk.injEq] at hview
  exact ⟨s, Machine.reached_of_run hs, hview⟩

end NomosRt.Lua
