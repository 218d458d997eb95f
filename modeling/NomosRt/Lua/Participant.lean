/-
  NomosRt.Lua.Participant

  Who uses the Lua state of `luajit_participant`, and when.

  `load()` creates the state, runs the constructor, which starts the 25 Hz timer
  thread, and then evaluates the prelude (`load_prelude`) without the mutex.  The
  timer's `tick_once` and the calls other threads make once `load()` has returned
  (`eval`, `dispatch_osc`, `get_osc_endpoints`, `register_*`) all have one shape:
  lock `mutex_`, a stretch of Lua API calls, unlock.

  A stretch is the time from its first to its last Lua API call.  How long the
  timer sleeps orders nothing.
-/

import NomosRt.Lib.Machine
import NomosRt.Lib.Mutex

namespace NomosRt.Lua

open NomosRt.Lib

/-- The public calls that lock the mutex. -/
inductive LuaCall where
  | eval
  | dispatchOsc
  | getOscEndpoints
  | registerWasmSwapFn
  | registerOscPushFn
  deriving DecidableEq, Repr

/-- The threads that lock the mutex: the timer and any number of callers. -/
inductive Tid (P : Type*) where
  | timer
  | caller (p : P)
  deriving DecidableEq

/-- Where a thread stands inside `tick_once` or a call. -/
inductive CallPc where
  | idle
  /-- `mutex_` taken, no Lua call made yet. -/
  | locked
  /-- Between the first and the last Lua API call. -/
  | inLua
  /-- Behind the last one, `mutex_` still held. -/
  | leaving
  deriving DecidableEq, Repr

/-- Where the loading thread stands inside `load()`. -/
inductive LoadPc where
  | start
  /-- `luaL_newstate` up to `lua_setglobal(L, "fennel")`. -/
  | setup
  /-- The constructor has started the timer thread. -/
  | constructed
  /-- Between the first and the last Lua API call of `load_prelude`. -/
  | prelude
  /-- `load()` has returned the participant. -/
  | loaded
  deriving DecidableEq, Repr

structure LuaState (P : Type*) where
  loader : LoadPc
  mutex : Option (Tid P)
  pc : Tid P → CallPc

/-- The steps of the threads. -/
inductive LuaAct (P : Type*) where
  | newState
  | construct
  | preludeFirst
  | preludeLast
  | timerLock
  | callerLock (p : P) (call : LuaCall)
  | firstCall (t : Tid P)
  | lastCall (t : Tid P)
  | unlock (t : Tid P)

section Steps

variable {P : Type*} [DecidableEq P]

/-- `pc` with the position of `t` replaced. -/
def LuaState.setPc (s : LuaState P) (t : Tid P) (pc : CallPc) : LuaState P :=
  { s with pc := Function.update s.pc t pc }

/-- The loading thread moves on. -/
def LuaState.loadStep (s : LuaState P) (old new : LoadPc) : Option (LuaState P) :=
  if s.loader = old then some { s with loader := new } else none

/-- `std::lock_guard lk(mutex_)`. -/
def LuaState.lock (s : LuaState P) (t : Tid P) : Option (LuaState P) :=
  if s.mutex = none ∧ s.pc t = .idle then some { s.setPc t .locked with mutex := some t }
  else none

/-- One step. -/
def luaStep (s : LuaState P) : LuaAct P → Option (LuaState P)
  | .newState => s.loadStep .start .setup
  | .construct => s.loadStep .setup .constructed
  | .preludeFirst => s.loadStep .constructed .prelude
  | .preludeLast => s.loadStep .prelude .loaded
  | .timerLock =>
      -- the timer thread runs from inside the constructor on
      if s.loader = .start ∨ s.loader = .setup then none else s.lock .timer
  | .callerLock p _ =>
      -- other threads get the participant from `load()`
      if s.loader = .loaded then s.lock (.caller p) else none
  | .firstCall t => if s.pc t = .locked then some (s.setPc t .inLua) else none
  | .lastCall t => if s.pc t = .inLua then some (s.setPc t .leaving) else none
  | .unlock t =>
      if s.pc t = .leaving then some { s.setPc t .idle with mutex := none } else none

/-- The threads before `load()`. -/
def luaMachine (P : Type*) [DecidableEq P] : Machine (LuaState P) (LuaAct P) where
  start := ⟨.start, none, fun _ => .idle⟩
  step := luaStep

/-- The prelude and the timer's Lua calls do not start while the other is under
    way. -/
def PreludeApart (s : LuaState P) : LuaAct P → Prop
  | .preludeFirst => s.pc .timer ≠ .inLua
  | .firstCall .timer => s.loader ≠ .prelude
  | _ => True

instance (s : LuaState P) : (a : LuaAct P) → Decidable (PreludeApart s a)
  | .preludeFirst => inferInstanceAs (Decidable (s.pc .timer ≠ .inLua))
  | .firstCall .timer => inferInstanceAs (Decidable (s.loader ≠ .prelude))
  | .firstCall (.caller _) | .newState | .construct | .preludeLast | .timerLock
  | .callerLock _ _ | .lastCall _ | .unlock _ => .isTrue trivial

end Steps

/-! ## Mutual exclusion -/

section Exclusion

variable {P : Type*}

/-- The threads that use the Lua state in `s`: the loading thread (`none`) and
    the threads that lock the mutex. -/
def LuaState.UsesLua (s : LuaState P) : Option (Tid P) → Prop
  | none => s.loader = .setup ∨ s.loader = .prelude
  | some t => s.pc t = .inLua

/-- At most one thread uses the Lua state. -/
def LuaState.Exclusive (s : LuaState P) : Prop :=
  ∀ a b, s.UsesLua a → s.UsesLua b → a = b

/-- Threads between lock and unlock hold the mutex; callers run only after
    `load()`, the timer only after the constructor; and the prelude and the timer
    are not in Lua together. -/
structure LuaInv (s : LuaState P) : Prop where
  guarded : Guarded (· = CallPc.idle) s.mutex s.pc
  callers : ∀ p, s.pc (.caller p) ≠ .idle → s.loader = .loaded
  timer : s.pc .timer ≠ .idle → s.loader ≠ .start ∧ s.loader ≠ .setup
  apart : s.loader = .prelude → s.pc .timer ≠ .inLua

variable {s s' : LuaState P}

/-- While the loading thread is in Lua nobody else is. -/
theorem LuaInv.alone (h : LuaInv s) (hload : s.UsesLua none) (t : Tid P) :
    s.pc t ≠ .inLua := by
  intro hin
  rcases t with - | p
  · rcases hload with hsetup | hprelude
    · exact (h.timer (by rw [hin]; decide)).2 hsetup
    · exact h.apart hprelude hin
  · have hloaded := h.callers p (by rw [hin]; decide)
    rcases hload with hsetup | hprelude
    · rw [hloaded] at hsetup
      cases hsetup
    · rw [hloaded] at hprelude
      cases hprelude

theorem LuaInv.exclusive (h : LuaInv s) : s.Exclusive := by
  rintro (- | t) (- | u) ha hb
  · rfl
  · exact absurd hb (h.alone ha u)
  · exact absurd ha (h.alone hb t)
  · have ht : s.pc t = .inLua := ha
    have hu : s.pc u = .inLua := hb
    have hntidle : ¬ s.pc t = .idle := by rw [ht]; decide
    have hnuidle : ¬ s.pc u = .idle := by rw [hu]; decide
    rw [h.guarded.unique hntidle hnuidle]

variable [DecidableEq P]

theorem luaInv_start : LuaInv (luaMachine P).start := by
  refine ⟨?_, ?_, ?_, ?_⟩
  · intro t ht
    exact absurd rfl ht
  · intro p hp
    exact absurd rfl hp
  · intro ht
    exact absurd rfl ht
  · intro hload
    cases hload

omit [DecidableEq P] in
/-- The loading thread moves on from a position before `loaded`. -/
theorem inv_loadStep {old new : LoadPc} (h : LuaInv s) (hs : s.loadStep old new = some s')
    (hold : old ≠ .loaded) (htimer : old = .start ∨ old = .setup ∨ new ≠ .setup)
    (hnew : new ≠ .start) (hprelude : new = .prelude → s.pc .timer ≠ .inLua) : LuaInv s' := by
  rw [LuaState.loadStep] at hs
  split at hs
  · rename_i hload
    cases hs
    refine ⟨h.guarded, ?_, ?_, hprelude⟩
    · -- no caller is active before `loaded`
      intro p hp
      have hloaded := h.callers p hp
      rw [hload] at hloaded
      exact absurd hloaded hold
    · intro ht
      obtain ⟨hstart, hsetup⟩ := h.timer ht
      rw [hload] at hstart hsetup
      rcases htimer with h1 | h2 | h3
      · exact absurd h1 hstart
      · exact absurd h2 hsetup
      · exact ⟨hnew, h3⟩
  · cases hs

/-- A thread that may run moves; nothing else changes but the mutex. -/
theorem inv_update {t : Tid P} {pc : CallPc} {m : Option (Tid P)} (h : LuaInv s)
    (hm : Guarded (· = CallPc.idle) m (Function.update s.pc t pc))
    (hcaller : ∀ p, t = .caller p → s.loader = .loaded)
    (htimer : t = .timer → s.loader ≠ .start ∧ s.loader ≠ .setup)
    (hapart : t = .timer → pc = .inLua → s.loader ≠ .prelude) :
    LuaInv ⟨s.loader, m, Function.update s.pc t pc⟩ := by
  -- each clause is about one thread: it is `t`, and has a hypothesis, or it has not moved
  refine ⟨hm, ?_, ?_, ?_⟩
  · show ∀ p, Function.update s.pc t pc (.caller p) ≠ .idle → s.loader = .loaded
    intro p hp
    by_cases hpt : Tid.caller p = t
    · exact hcaller p hpt.symm
    · rw [Function.update_of_ne hpt] at hp
      exact h.callers p hp
  · show Function.update s.pc t pc .timer ≠ .idle → s.loader ≠ .start ∧ s.loader ≠ .setup
    intro ht
    by_cases htt : Tid.timer = t
    · exact htimer htt.symm
    · rw [Function.update_of_ne htt] at ht
      exact h.timer ht
  · show s.loader = .prelude → Function.update s.pc t pc .timer ≠ .inLua
    intro hload
    by_cases htt : Tid.timer = t
    · rw [← htt, Function.update_self]
      intro hpc
      exact hapart htt.symm hpc hload
    · rw [Function.update_of_ne htt]
      exact h.apart hload

/-- A thread that may run takes the mutex. -/
theorem inv_lock {t : Tid P} (h : LuaInv s) (hs : s.lock t = some s')
    (hcaller : ∀ p, t = .caller p → s.loader = .loaded)
    (htimer : t = .timer → s.loader ≠ .start ∧ s.loader ≠ .setup) : LuaInv s' := by
  rw [LuaState.lock] at hs
  split at hs
  · rename_i hfree
    cases hs
    exact inv_update h (h.guarded.acquire hfree.1 t _) hcaller htimer (by rintro - ⟨⟩)
  · cases hs

/-- A thread in the locked region moves on, or leaves it and releases the mutex. -/
theorem inv_inside {t : Tid P} {pc : CallPc} {m : Option (Tid P)} (h : LuaInv s)
    (hin : s.pc t ≠ .idle) (hm : Guarded (· = CallPc.idle) m (Function.update s.pc t pc))
    (hapart : t = .timer → pc = .inLua → s.loader ≠ .prelude) :
    LuaInv ⟨s.loader, m, Function.update s.pc t pc⟩ := by
  refine inv_update h hm ?_ ?_ hapart
  · rintro p rfl
    exact h.callers p hin
  · rintro rfl
    exact h.timer hin

/-- Every step that keeps prelude and timer apart keeps the invariant. -/
theorem luaInv_step {a : LuaAct P} (h : LuaInv s) (hG : PreludeApart s a)
    (hs : luaStep s a = some s') : LuaInv s' := by
  cases a with
  | newState => exact inv_loadStep h hs (by decide) (by decide) (by decide) (by simp)
  | construct => exact inv_loadStep h hs (by decide) (by decide) (by decide) (by simp)
  | preludeFirst => exact inv_loadStep h hs (by decide) (by decide) (by decide) fun _ => hG
  | preludeLast => exact inv_loadStep h hs (by decide) (by decide) (by decide) (by simp)
  -- a lock is taken only by a thread that the loader has let start
  | timerLock =>
      simp only [luaStep] at hs
      split at hs
      · cases hs
      · rename_i hrun
        rw [not_or] at hrun
        exact inv_lock h hs (by rintro p ⟨⟩) fun _ => hrun
  | callerLock p call =>
      simp only [luaStep] at hs
      split at hs
      · rename_i hloaded
        exact inv_lock h hs (fun _ _ => hloaded) (by rintro ⟨⟩)
      · cases hs
  | firstCall t =>
      simp only [luaStep] at hs
      split at hs
      · rename_i hpc
        cases hs
        have hin : s.pc t ≠ .idle := by rw [hpc]; decide
        -- the timer enters Lua: here `PreludeApart` is used
        refine inv_inside h hin (h.guarded.move (h.guarded t hin) _) ?_
        rintro rfl -
        exact hG
      · cases hs
  | lastCall t =>
      simp only [luaStep] at hs
      split at hs
      · rename_i hpc
        cases hs
        have hin : s.pc t ≠ .idle := by rw [hpc]; decide
        exact inv_inside h hin (h.guarded.move (h.guarded t hin) _) (by rintro - ⟨⟩)
      · cases hs
  | unlock t =>
      simp only [luaStep] at hs
      split at hs
      · rename_i hpc
        cases hs
        have hin : s.pc t ≠ .idle := by rw [hpc]; decide
        exact inv_inside h hin (h.guarded.release (h.guarded t hin) rfl) (by rintro - ⟨⟩)
      · cases hs

/-- In every run that keeps the prelude and the timer's Lua calls apart, at most
    one thread uses the Lua state. -/
theorem lua_state_exclusive (as : List (LuaAct P)) (s : LuaState P)
    (h : (luaMachine P).Reached PreludeApart as s) : s.Exclusive :=
  (h.invariant luaInv_start fun _ _ _ hI hG hs => luaInv_step hI hG hs).exclusive

end Exclusion

/-- The timer ticks before and after the prelude, then a caller evaluates while
    the timer waits for the mutex. -/
def startupSchedule : List (LuaAct Unit) :=
  [.newState, .construct, .timerLock, .firstCall .timer, .lastCall .timer, .preludeFirst,
   .unlock .timer, .timerLock, .preludeLast, .firstCall .timer, .lastCall .timer,
   .unlock .timer, .callerLock () .eval, .firstCall (.caller ())]

theorem lua_state_startupSchedule :
    ∃ s, (luaMachine Unit).Reached PreludeApart startupSchedule s ∧
      s.pc (.caller ()) = .inLua ∧ s.Exclusive := by
  have hrun : ((luaMachine Unit).runIf PreludeApart (luaMachine Unit).start
      startupSchedule).map (fun s => s.pc (.caller ())) = some .inLua := by decide
  obtain ⟨s, hs, hpc⟩ := Option.map_eq_some_iff.mp hrun
  have hreached := Machine.reached_of_runIf hs
  exact ⟨s, hreached, hpc, lua_state_exclusive startupSchedule s hreached⟩

/-- The timer's first tick falls into the prelude. -/
def racingSchedule : List (LuaAct Unit) :=
  [.newState, .construct, .preludeFirst, .timerLock, .firstCall .timer]

/-- `load_prelude` does not take the mutex and the timer is already running, so
    both can be in Lua. -/
theorem lua_state_racing :
    ∃ s, (luaMachine Unit).Reached Machine.free racingSchedule s ∧
      s.UsesLua none ∧ s.UsesLua (some .timer) ∧ ¬ s.Exclusive := by
  have hrun : ((luaMachine Unit).run (luaMachine Unit).start racingSchedule).map
      (fun s => (s.loader, s.pc .timer)) = some (.prelude, .inLua) := by decide
  obtain ⟨s, hs, hview⟩ := Option.map_eq_some_iff.mp hrun
  rw [Prod.mk.injEq] at hview
  obtain ⟨hload, hpc⟩ := hview
  refine ⟨s, Machine.reached_of_run hs, .inr hload, hpc, ?_⟩
  intro hexcl
  cases hexcl none (some .timer) (.inr hload) hpc

end NomosRt.Lua
