/-
  NomosRt.Lua.Scheduled

  The event queue of the Fennel prelude: `schedule-at` and `nomos_rt_tick`.

  The tick walks the queue by index.  An entry that is due is removed and its thunk is
  called, with the index left where it is; the thunk may append to the queue it was
  taken from.  The loop reads the length anew on every round, so what a thunk schedules
  is reached by the same walk, and is left alone only because its target lies behind
  the beat.

  Lua numbers are doubles.  The target of a new entry is a rounded sum, and from 2⁵³ on
  the beat plus 1 may be the beat.
-/

import Mathlib.Algebra.Ring.Int.Defs
import Mathlib.Algebra.Ring.Nat
import Mathlib.Data.List.InsertIdx
import Mathlib.Data.Int.Basic

namespace NomosRt.Lua

/-- The operations of Lua numbers that the queue uses. -/
class LuaNumber (N : Type*) where
  ofNat : Nat → N
  add : N → N → N
  ge : N → N → Bool

/-- The timings of `schedule-at`: `:beat`, and anything else. -/
inductive Timing where
  | beat
  | bar
  deriving DecidableEq, Repr

/-- `step`. -/
def Timing.step : Timing → Nat
  | .beat => 1
  | .bar => 4

/-- An entry of `nomos-scheduled`. -/
structure Scheduled (N T : Type*) where
  target : N
  thunk : T

/-- What a call of a thunk does: the calls of `schedule-at` in order, the state it leaves, and
    whether it raises an error behind them. -/
structure ThunkRun (T W : Type*) where
  schedules : List (Timing × T)
  world : W
  raised : Bool

/-- The globals of the prelude, and everything else a thunk can change. -/
structure Prelude (N T W : Type*) where
  beat : N
  bpm : N
  scheduled : List (Scheduled N T)
  world : W

section Tick

variable {N T W : Type*} [LuaNumber N]

namespace Prelude

/-- `schedule-at`. -/
def scheduleAt (timing : Timing) (thunk : T) (p : Prelude N T W) : Prelude N T W :=
  { p with scheduled := p.scheduled ++
      [⟨LuaNumber.add p.beat (LuaNumber.ofNat timing.step), thunk⟩] }

variable (run : T → W → ThunkRun T W)

/-- `(pcall thunk)`; what was done before an error stays. -/
def pcall (thunk : T) (p : Prelude N T W) : Prelude N T W :=
  let r := run thunk p.world
  r.schedules.foldl (fun p call => p.scheduleAt call.1 call.2) { p with world := r.world }

/-- The loop of `nomos_rt_tick` from index `i`, counted from 0, with the thunks called so far; `none`
    if it takes more rounds. -/
def tickLoop (beat : N) : Nat → Nat → Prelude N T W → List T → Option (List T × Prelude N T W)
  | 0, _, _, _ => none
  | fuel + 1, i, p, called =>
      match p.scheduled[i]? with
      | none => some (called, p)
      | some ev =>
          if LuaNumber.ge beat ev.target then
            tickLoop beat fuel i
              (pcall run ev.thunk { p with scheduled := p.scheduled.eraseIdx i })
              (called ++ [ev.thunk])
          else tickLoop beat fuel (i + 1) p called

/-- `nomos_rt_tick`: the thunks called and the globals behind it. -/
def nomosRtTick (fuel : Nat) (beat bpm : N) (p : Prelude N T W) :
    Option (List T × Prelude N T W) :=
  tickLoop run beat fuel 0 { p with beat := beat, bpm := bpm } []

/-! ## What a tick is meant to do -/

/-- The entry is due. -/
def due (beat : N) (ev : Scheduled N T) : Bool := LuaNumber.ge beat ev.target

/-- The entries that thunks schedule when they are called in order, and the state they leave. -/
def newEntries (beat : N) : List T → W → List (Scheduled N T) × W
  | [], w => ([], w)
  | thunk :: thunks, w =>
      let r := run thunk w
      let rest := newEntries beat thunks r.world
      (r.schedules.map (fun call =>
        ⟨LuaNumber.add beat (LuaNumber.ofNat call.1.step), call.2⟩) ++ rest.1, rest.2)

/-- The thunks that are due when the tick begins. -/
def dueThunks (beat : N) (p : Prelude N T W) : List T :=
  (p.scheduled.filter (due beat)).map Scheduled.thunk

/-- The outcome: every due thunk is called once, the other entries stay in order and the new ones
    follow. -/
def tickOutcome (beat bpm : N) (p : Prelude N T W) : List T × Prelude N T W :=
  let new := newEntries run beat (p.dueThunks beat) p.world
  (p.dueThunks beat,
    ⟨beat, bpm, p.scheduled.filter (fun ev => !due beat ev) ++ new.1, new.2⟩)

/-! ## One call -/

theorem foldl_scheduleAt (calls : List (Timing × T)) (p : Prelude N T W) :
    calls.foldl (fun p call => p.scheduleAt call.1 call.2) p =
      { p with scheduled := p.scheduled ++ calls.map fun call =>
          ⟨LuaNumber.add p.beat (LuaNumber.ofNat call.1.step), call.2⟩ } := by
  induction calls generalizing p with
  | nil => simp
  | cons call calls ih =>
      rw [List.foldl_cons, ih]
      simp [scheduleAt]

theorem newEntries_cons (beat : N) (thunk : T) (thunks : List T) (w : W) :
    newEntries run beat (thunk :: thunks) w =
      ((newEntries run beat [thunk] w).1 ++ (newEntries run beat thunks (run thunk w).world).1,
        (newEntries run beat thunks (run thunk w).world).2) := by
  simp [newEntries]

theorem pcall_eq (thunk : T) (p : Prelude N T W) :
    pcall run thunk p =
      ⟨p.beat, p.bpm, p.scheduled ++ (newEntries run p.beat [thunk] p.world).1,
        (run thunk p.world).world⟩ := by
  rw [pcall, foldl_scheduleAt]
  simp [newEntries]

variable {run}

/-! ## The walk -/

theorem tickLoop_end {beat : N} {i : Nat} {p : Prelude N T W} (h : p.scheduled[i]? = none)
    (fuel : Nat) (called : List T) : tickLoop run beat (fuel + 1) i p called = some (called, p) := by
  rw [tickLoop, h]

theorem tickLoop_due {beat : N} {i : Nat} {p : Prelude N T W} {ev : Scheduled N T}
    (h : p.scheduled[i]? = some ev) (hdue : due beat ev = true) (fuel : Nat) (called : List T) :
    tickLoop run beat (fuel + 1) i p called =
      tickLoop run beat fuel i (pcall run ev.thunk { p with scheduled := p.scheduled.eraseIdx i })
        (called ++ [ev.thunk]) := by
  rw [tickLoop, h]
  exact if_pos hdue

theorem tickLoop_not_due {beat : N} {i : Nat} {p : Prelude N T W} {ev : Scheduled N T}
    (h : p.scheduled[i]? = some ev) (hdue : due beat ev = false) (fuel : Nat) (called : List T) :
    tickLoop run beat (fuel + 1) i p called = tickLoop run beat fuel (i + 1) p called := by
  rw [tickLoop, h]
  exact if_neg (Bool.eq_false_iff.mp hdue)

/-- The walk ends behind entries that are not due. -/
theorem tickLoop_skip {beat : N} {p : Prelude N T W} (kept rest : List (Scheduled N T))
    (hp : p.scheduled = kept ++ rest) (hrest : ∀ ev ∈ rest, due beat ev = false)
    (called : List T) :
    ∃ fuel, tickLoop run beat fuel kept.length p called = some (called, p) := by
  induction rest generalizing kept with
  | nil =>
      have hend : p.scheduled[kept.length]? = none := by
        rw [hp, List.append_nil]
        exact List.getElem?_eq_none (le_refl _)
      exact ⟨1, tickLoop_end hend 0 called⟩
  | cons ev rest ih =>
      rw [List.forall_mem_cons] at hrest
      have hev : p.scheduled[kept.length]? = some ev := by
        rw [hp]
        simp
      obtain ⟨fuel, hfuel⟩ := ih (kept ++ [ev]) (by rw [hp]; simp) hrest.2
      rw [List.length_append] at hfuel
      exact ⟨fuel + 1, (tickLoop_not_due hev hrest.1 fuel called).trans hfuel⟩

/-- The walk over the entries that are left, with what was kept before them and what was scheduled
    behind them. -/
theorem tickLoop_walk (beat bpm : N) (kept todo new : List (Scheduled N T)) (w : W)
    (called : List T) (hnew : ∀ ev ∈ new, due beat ev = false)
    (hlater : ∀ ev ∈ (newEntries run beat ((todo.filter (due beat)).map Scheduled.thunk) w).1,
      due beat ev = false) :
    ∃ fuel, tickLoop run beat fuel kept.length ⟨beat, bpm, kept ++ (todo ++ new), w⟩ called =
      some (called ++ (todo.filter (due beat)).map Scheduled.thunk,
        ⟨beat, bpm, kept ++ (todo.filter (fun ev => !due beat ev) ++
          (new ++ (newEntries run beat ((todo.filter (due beat)).map Scheduled.thunk) w).1)),
          (newEntries run beat ((todo.filter (due beat)).map Scheduled.thunk) w).2⟩) := by
  induction todo generalizing kept new w called with
  | nil =>
      have hskip : ∃ fuel, tickLoop run beat fuel kept.length
          ⟨beat, bpm, kept ++ ([] ++ new), w⟩ called =
          some (called, ⟨beat, bpm, kept ++ ([] ++ new), w⟩) :=
        tickLoop_skip kept new rfl hnew called
      obtain ⟨fuel, hfuel⟩ := hskip
      refine ⟨fuel, ?_⟩
      rw [hfuel]
      simp [newEntries]
  | cons ev todo ih =>
      have hev : (⟨beat, bpm, kept ++ (ev :: todo ++ new), w⟩ : Prelude N T W).scheduled[kept.length]?
          = some ev := by
        simp
      cases hdue : due beat ev with
      | false =>
          obtain ⟨fuel, hfuel⟩ := ih (kept ++ [ev]) new w called hnew (by simpa [hdue] using hlater)
          refine ⟨fuel + 1, ?_⟩
          rw [tickLoop_not_due hev hdue]
          simpa [hdue] using hfuel
      | true =>
          -- the entry is removed under the index, and what it schedules goes to the end
          have hthunks : ((ev :: todo).filter (due beat)).map Scheduled.thunk =
              ev.thunk :: (todo.filter (due beat)).map Scheduled.thunk := by
            rw [List.filter_cons_of_pos hdue, List.map_cons]
          have hcons := newEntries_cons run beat ev.thunk
            ((todo.filter (due beat)).map Scheduled.thunk) w
          rw [hthunks, hcons] at hlater ⊢
          have hcall : pcall run ev.thunk
              ⟨beat, bpm, (kept ++ (ev :: todo ++ new)).eraseIdx kept.length, w⟩ =
              ⟨beat, bpm, kept ++ (todo ++ (new ++ (newEntries run beat [ev.thunk] w).1)),
                (run ev.thunk w).world⟩ := by
            rw [pcall_eq]
            simp [List.eraseIdx_append_of_length_le]
          obtain ⟨fuel, hfuel⟩ := ih kept (new ++ (newEntries run beat [ev.thunk] w).1)
            (run ev.thunk w).world (called ++ [ev.thunk])
            (by
              rw [List.forall_mem_append]
              exact ⟨hnew, fun e he => hlater e (List.mem_append_left _ he)⟩)
            (fun e he => hlater e (List.mem_append_right _ he))
          refine ⟨fuel + 1, ?_⟩
          rw [tickLoop_due hev hdue, hcall, hfuel]
          simp [hdue]

/-- A walk that ends leaves no entry that is due. -/
theorem tickLoop_none_due {beat : N} {fuel i : Nat} {p p' : Prelude N T W} {called called' : List T}
    (h : tickLoop run beat fuel i p called = some (called', p'))
    (hpassed : ∀ ev ∈ p.scheduled.take i, due beat ev = false) :
    ∀ ev ∈ p'.scheduled, due beat ev = false := by
  induction fuel generalizing i p called with
  | zero => cases h
  | succ fuel ih =>
      cases hget : p.scheduled[i]? with
      | none =>
          rw [tickLoop_end hget] at h
          cases h
          rwa [List.take_of_length_le (List.getElem?_eq_none_iff.mp hget)] at hpassed
      | some ev =>
          have hlt : i < p.scheduled.length := (List.getElem?_eq_some_iff.mp hget).1
          cases hdue : due beat ev with
          | true =>
              rw [tickLoop_due hget hdue, pcall_eq] at h
              -- the due entry goes and the new ones come last: what was passed stays
              apply ih h
              have htake : (p.scheduled.eraseIdx i ++
                  (newEntries run p.beat [ev.thunk] p.world).1).take i = p.scheduled.take i := by
                rw [List.take_append_of_le_length, List.take_eraseIdx_eq_take_of_le _ _ _ (le_refl i)]
                rw [List.length_eraseIdx_of_lt hlt]
                omega
              rw [htake]
              exact hpassed
          | false =>
              rw [tickLoop_not_due hget hdue] at h
              apply ih h
              rw [List.take_add_one, hget, List.forall_mem_append]
              refine ⟨hpassed, fun e he => ?_⟩
              cases List.mem_singleton.mp he
              exact hdue

/-- Where every timing leads past the beat, so does every new entry. -/
theorem newEntries_ahead {beat : N}
    (h : ∀ timing : Timing,
      LuaNumber.ge beat (LuaNumber.add beat (LuaNumber.ofNat timing.step)) = false)
    (thunks : List T) (w : W) :
    ∀ ev ∈ (newEntries run beat thunks w).1, LuaNumber.ge beat ev.target = false := by
  induction thunks generalizing w with
  | nil => exact List.forall_mem_nil _
  | cons thunk thunks ih =>
      rw [newEntries, List.forall_mem_append]
      refine ⟨?_, ih (run thunk w).world⟩
      intro ev hev
      obtain ⟨call, -, rfl⟩ := List.mem_map.mp hev
      exact h call.1

end Prelude

variable (run : T → W → ThunkRun T W)

/-- A tick ends with every due thunk called once and in order, the other entries kept and the new
    ones behind them, if and only if no due thunk schedules an entry that is due at once; there is
    none where a beat and a bar ahead are behind the beat. -/
theorem tick_fires_due_once_iff (beat bpm : N) (p : Prelude N T W) :
    ((∃ fuel, Prelude.nomosRtTick run fuel beat bpm p = some (Prelude.tickOutcome run beat bpm p)) ↔
      ∀ ev ∈ (Prelude.newEntries run beat (p.dueThunks beat) p.world).1,
        LuaNumber.ge beat ev.target = false) ∧
    ((∀ timing : Timing,
        LuaNumber.ge beat (LuaNumber.add beat (LuaNumber.ofNat timing.step)) = false) →
      ∃ fuel, Prelude.nomosRtTick run fuel beat bpm p =
        some (Prelude.tickOutcome run beat bpm p)) := by
  have hends : (∀ ev ∈ (Prelude.newEntries run beat (p.dueThunks beat) p.world).1,
      LuaNumber.ge beat ev.target = false) →
      ∃ fuel, Prelude.nomosRtTick run fuel beat bpm p =
        some (Prelude.tickOutcome run beat bpm p) := by
    intro hlater
    obtain ⟨fuel, hfuel⟩ := Prelude.tickLoop_walk beat bpm [] p.scheduled [] p.world []
      (List.forall_mem_nil _) hlater
    refine ⟨fuel, ?_⟩
    simpa [Prelude.nomosRtTick, Prelude.tickOutcome, Prelude.dueThunks] using hfuel
  refine ⟨⟨?_, hends⟩, ?_⟩
  · rintro ⟨fuel, hfuel⟩ ev hev
    apply Prelude.tickLoop_none_due hfuel (List.forall_mem_nil _)
    exact List.mem_append_right _ hev
  · intro hahead
    apply hends
    exact Prelude.newEntries_ahead hahead _ _

end Tick

/-! ## A beat past 2⁵³ -/

section Wide

/-- The integers among the doubles up to 2⁵⁴: from 2⁵³ on sums are rounded to even, and of two even
    neighbours to the one divisible by 4. -/
@[reducible] def wideNumber : LuaNumber Int where
  ofNat n := n
  add a b :=
    if (a + b).natAbs ≤ 2 ^ 53 ∨ (a + b) % 2 = 0 then a + b
    else if (a + b) % 4 = 1 then a + b - 1 else a + b + 1
  ge a b := decide (a ≥ b)

attribute [local instance] wideNumber

/-- A thunk that schedules itself for the next beat. -/
def everyBeat : Unit → Unit → ThunkRun Unit Unit := fun _ _ => ⟨[(.beat, ())], (), false⟩

/-- The thunk is due at a beat. -/
def dueAt (beat : Int) : Prelude Int Unit Unit := ⟨0, 120, [⟨beat, ()⟩], ()⟩

/-- Thunks that put their number on a list; even ones schedule themselves for the next beat, and
    the seventh raises an error. -/
def numbered : Nat → List Nat → ThunkRun Nat (List Nat) := fun thunk called =>
  ⟨if thunk % 2 = 0 then [(.beat, thunk)] else [], called ++ [thunk], thunk = 7⟩

/-- Five entries, three of them due at beat 4. -/
def fiveEntries : Prelude Int Nat (List Nat) :=
  ⟨3, 120, [⟨9, 1⟩, ⟨4, 2⟩, ⟨3, 7⟩, ⟨5, 3⟩, ⟨4, 4⟩], []⟩

theorem tick_fires_due_once_four :
    (∀ timing : Timing, LuaNumber.ge (4 : Int) (LuaNumber.add 4 (LuaNumber.ofNat timing.step)) =
      false) ∧
    ∃ fuel, Prelude.nomosRtTick numbered fuel 4 120 fiveEntries =
      some ([2, 7, 4], ⟨4, 120, [⟨9, 1⟩, ⟨5, 3⟩, ⟨5, 2⟩, ⟨5, 4⟩], [2, 7, 4]⟩) := by
  have hahead : ∀ timing : Timing,
      LuaNumber.ge (4 : Int) (LuaNumber.add 4 (LuaNumber.ofNat timing.step)) = false := by
    intro timing
    cases timing <;> decide
  exact ⟨hahead, (tick_fires_due_once_iff numbered 4 120 fiveEntries).2 hahead⟩

/-- At 2⁵³ the beat plus 1 is the beat, and the tick goes on for ever. -/
theorem tick_never_ends :
    ¬ ∃ fuel r, Prelude.nomosRtTick everyBeat fuel (2 ^ 53) 120 (dueAt (2 ^ 53)) = some r := by
  have hloop : ∀ fuel called, Prelude.tickLoop everyBeat (2 ^ 53 : Int) fuel 0
      ⟨2 ^ 53, 120, [⟨2 ^ 53, ()⟩], ()⟩ called = none := by
    -- each round ends in the list it began with, so no fuel is enough
    intro fuel
    induction fuel with
    | zero => exact fun _ => rfl
    | succ fuel ih =>
        intro called
        have hdue : Prelude.due (2 ^ 53 : Int) (⟨2 ^ 53, ()⟩ : Scheduled Int Unit) = true := by
          decide
        have hsame : LuaNumber.add (2 ^ 53 : Int) (LuaNumber.ofNat Timing.beat.step) = 2 ^ 53 := by
          decide
        have hcall : Prelude.pcall everyBeat () (⟨2 ^ 53, 120, [], ()⟩ : Prelude Int Unit Unit) =
            ⟨2 ^ 53, 120, [⟨LuaNumber.add (2 ^ 53) (LuaNumber.ofNat Timing.beat.step), ()⟩], ()⟩ :=
          rfl
        have hnext : Prelude.tickLoop everyBeat (2 ^ 53 : Int) (fuel + 1) 0
            ⟨2 ^ 53, 120, [⟨2 ^ 53, ()⟩], ()⟩ called =
            Prelude.tickLoop everyBeat (2 ^ 53 : Int) fuel 0
              (Prelude.pcall everyBeat () ⟨2 ^ 53, 120, [], ()⟩) (called ++ [()]) :=
          Prelude.tickLoop_due rfl hdue fuel called
        rw [hnext, hcall, hsame]
        exact ih _
  rintro ⟨fuel, r, hr⟩
  have hnone : Prelude.nomosRtTick everyBeat fuel (2 ^ 53) 120 (dueAt (2 ^ 53)) = none :=
    hloop fuel []
  rw [hnone] at hr
  cases hr

end Wide

end NomosRt.Lua
