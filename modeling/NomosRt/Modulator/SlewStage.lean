/-
  NomosRt.Modulator.SlewStage

  The stage machine of `slew_modulator`.

  The coefficient of a tick is taken as an argument of the call.  `tick_eq` says that
  `slew_modulator::tick` is such a call with its own coefficient, and `usedCoeff_mem`
  that this coefficient lies in [0, 1].

  The stages, the two gates and what a trigger does do not depend on the arithmetic, so
  what is said about them holds over any number type.  The range of the output holds in
  every arithmetic that rounds, exact arithmetic and `binary32` among them.
-/

import NomosRt.Lib.Rounding
import NomosRt.Lib.Trace
import NomosRt.Modulator.Literals

namespace NomosRt.Modulator

open NomosRt.Lib CFloat CMath

/-! ## Ticks with a given coefficient -/

/-- A call on the modulator; a tick brings its coefficient. -/
inductive SlewCall (F : Type*) where
  | tick (rate c : F)
  | update (key : String) (value : F)

/-- What a call shows: the two gates, and whether it triggers. -/
structure SlewEvent where
  eor : Bool
  eoc : Bool
  trig : Bool
  deriving DecidableEq, Repr

section Stages

variable {F : Type*} [CMath F]

namespace Slew

/-- The coefficient that `tick` uses behind the start. -/
def usedCoeff (rate : F) (s : Slew F) : F :=
  match s.stage with
  | .idle => coeff (if le s.current s.input then s.rise else s.fall) rate
  | .rising => coeff s.rise rate
  | .falling => coeff s.fall rate

/-- `advance` with a given coefficient. -/
def advanceWith (c : F) (s : Slew F) : Slew F × Bool × Bool :=
  match s.stage with
  | .idle => ({ s with current := s.current + (s.input - s.current) * c }, false, false)
  | .rising =>
      let current := s.current + (lit 1 - s.current) * c
      if le (lit 1 - kThresh) current then
        ({ s with current := lit 1, stage := .falling }, true, false)
      else ({ s with current := current }, false, false)
  | .falling =>
      let current := s.current + (lit (-1) - s.current) * c
      if le current (lit (-1) + kThresh) then
        ({ s with current := lit (-1), stage := .idle }, false, true)
      else ({ s with current := current }, false, false)

/-- `tick` with a given coefficient. -/
def tickWith (rate c : F) (s : Slew F) : ModulatorOutput F × Slew F :=
  if le rate (lit 0) then (cvOutput (s.current * s.depth), s)
  else
    let (s, eor, eoc) := s.started.advanceWith c
    ({ cvOutput (s.current * s.depth) with gate := eor, gate2 := eoc }, s)

theorem advance_eq (rate : F) (s : Slew F) : s.advance rate = s.advanceWith (s.usedCoeff rate) := by
  rw [advance, advanceWith, usedCoeff]
  cases s.stage <;> rfl

/-- `tick` is the tick with its own coefficient. -/
theorem tick_eq (rate : F) (s : Slew F) :
    s.tick rate = s.tickWith rate (s.started.usedCoeff rate) := by
  rw [tick, tickWith, advance_eq]

/-- One call: its event and the modulator. -/
def call (s : Slew F) : SlewCall F → SlewEvent × Slew F
  | .tick rate c => (⟨(s.tickWith rate c).1.gate, (s.tickWith rate c).1.gate2, false⟩,
      (s.tickWith rate c).2)
  | .update key value => (⟨false, false, decide (key = "trig") && lt (lit (1 / 2)) value⟩,
      s.update key value)

/-! ## One call -/

/-- What a tick with a positive rate does to the stage and shows. -/
inductive TickOutcome (s s' : Slew F) (eor eoc : Bool) : Prop where
  /-- no stage is active, or one goes on -/
  | goesOn (hstage : s'.stage = s.stage) (heor : eor = false) (heoc : eoc = false)
  | rises (hstage : s.stage = .rising) (hstage' : s'.stage = .falling) (heor : eor = true)
      (heoc : eoc = false)
  | falls (hstage : s.stage = .falling) (hstage' : s'.stage = .idle) (heor : eor = false)
      (heoc : eoc = true)

theorem advanceWith_outcome (c : F) (s : Slew F) :
    TickOutcome s (s.advanceWith c).1 (s.advanceWith c).2.1 (s.advanceWith c).2.2 := by
  rw [advanceWith]
  cases hstage : s.stage with
  | idle => exact .goesOn hstage.symm rfl rfl
  | rising =>
      dsimp only
      split_ifs
      · exact .rises hstage rfl rfl rfl
      · exact .goesOn hstage.symm rfl rfl
  | falling =>
      dsimp only
      split_ifs
      · exact .falls hstage rfl rfl rfl
      · exact .goesOn hstage.symm rfl rfl

theorem tickWith_of_le {rate : F} (h : le rate (lit 0) = true) (c : F) (s : Slew F) :
    s.tickWith rate c = (cvOutput (s.current * s.depth), s) := if_pos h

theorem tickWith_of_pos {rate : F} (h : ¬ le rate (lit 0) = true) (c : F) (s : Slew F) :
    (s.tickWith rate c).1.gate = (s.started.advanceWith c).2.1 ∧
    (s.tickWith rate c).1.gate2 = (s.started.advanceWith c).2.2 ∧
    (s.tickWith rate c).2 = (s.started.advanceWith c).1 := by
  rw [tickWith, if_neg h]
  exact ⟨rfl, rfl, rfl⟩

/-- A pending trigger starts the rise from the bottom. -/
theorem started_of_trig {s : Slew F} (h : s.trigPending = true) :
    s.started = { s with trigPending := false, current := lit (-1), stage := .rising } := by
  rw [started, if_pos h, if_neg]
  rintro ⟨-, hidle⟩
  cases hidle

theorem started_eq {s : Slew F} (h : s.trigPending = false) :
    s.started = if s.cycle ∧ s.stage = .idle then { s with stage := .rising } else s := by
  rw [started, if_neg (Bool.eq_false_iff.mp h)]

/-- Without a trigger, only the start of a cycle changes the stage. -/
theorem started_of_not_trig {s : Slew F} (h : s.trigPending = false) :
    s.started.stage = s.stage ∨ (s.stage = .idle ∧ s.started.stage = .rising) := by
  rw [started_eq h]
  split_ifs with hcycle
  · exact .inr ⟨hcycle.2, rfl⟩
  · exact .inl rfl

theorem trigPending_started (s : Slew F) : s.started.trigPending = false := by
  cases h : s.trigPending with
  | false =>
      rw [started_eq h]
      split_ifs <;> exact h
  | true =>
      rw [started_of_trig h]

theorem trigPending_advanceWith (c : F) (s : Slew F) :
    (s.advanceWith c).1.trigPending = s.trigPending := by
  rw [advanceWith]
  cases s.stage with
  | idle => rfl
  | rising =>
      dsimp only
      split_ifs <;> rfl
  | falling =>
      dsimp only
      split_ifs <;> rfl

/-- The stage behind the start is not `falling` unless it was before, without a trigger. -/
theorem started_falling {s : Slew F} (h : s.started.stage = .falling) :
    s.stage = .falling ∧ s.trigPending = false := by
  cases htrig : s.trigPending with
  | true =>
      rw [started_of_trig htrig] at h
      cases h
  | false =>
      rcases started_of_not_trig htrig with hsame | hcycle
      · exact ⟨hsame.symm.trans h, rfl⟩
      · rw [hcycle.2] at h
        cases h

theorem update_stage (key : String) (value : F) (s : Slew F) :
    (s.update key value).stage = s.stage := by
  unfold update
  split <;> try rfl
  split_ifs <;> rfl

theorem update_trigPending (key : String) (value : F) (s : Slew F) :
    (s.update key value).trigPending =
      (s.trigPending || (decide (key = "trig") && lt (lit (1 / 2)) value)) := by
  unfold update
  split
  · simp
  · simp
  · simp
  · simp
  · simp
  · cases h : lt (lit (1 / 2)) value <;> simp
  · rename_i hother
    rw [decide_eq_false hother]
    simp

/-! ## The rules for the two gates -/

/-- A call is an update or a tick without a rate, which show no gate and leave the stage alone, or
    a tick that spends the trigger and goes on from the start. -/
theorem call_cases (s : Slew F) (a : SlewCall F) :
    ((s.call a).1.eor = false ∧ (s.call a).1.eoc = false ∧ (s.call a).2.stage = s.stage ∧
      (s.call a).2.trigPending = (s.trigPending || (s.call a).1.trig)) ∨
    (TickOutcome s.started (s.call a).2 (s.call a).1.eor (s.call a).1.eoc ∧
      (s.call a).2.trigPending = false) := by
  cases a with
  | update key value =>
      exact .inl ⟨rfl, rfl, update_stage key value s, update_trigPending key value s⟩
  | tick rate c =>
      rw [call]
      dsimp only
      by_cases hrate : le rate (lit 0) = true
      · rw [tickWith_of_le hrate]
        exact .inl ⟨rfl, rfl, rfl, (Bool.or_false _).symm⟩
      · obtain ⟨hgate, hgate2, hstate⟩ := tickWith_of_pos hrate c s
        rw [hgate, hgate2, hstate, trigPending_advanceWith, trigPending_started]
        exact .inr ⟨advanceWith_outcome c s.started, rfl⟩

/-- Nothing starts at the next tick: no stage is active, no trigger is pending and the cycle is
    off. -/
def Rests (s : Slew F) : Prop := s.stage = .idle ∧ s.trigPending = false ∧ s.cycle = false

theorem Rests.started {s : Slew F} (h : s.Rests) : s.started = s := by
  rw [started_eq h.2.1, if_neg]
  rintro ⟨hcycle, -⟩
  rw [h.2.2] at hcycle
  cases hcycle

/-- The gates never show together, and neither shows while no stage is active. -/
theorem call_gates (s : Slew F) (a : SlewCall F) :
    ¬ ((s.call a).1.eor = true ∧ (s.call a).1.eoc = true) ∧
    (s.Rests → (s.call a).1.eor = false ∧ (s.call a).1.eoc = false) := by
  rcases call_cases s a with ⟨heor, heoc, -, -⟩ | ⟨houtcome, -⟩
  · rw [heor, heoc]
    simp
  · cases houtcome with
    | goesOn hstage heor heoc =>
        rw [heor, heoc]
        simp
    | rises hstage hstage' heor heoc =>
        refine ⟨by rw [heoc]; simp, fun hrests => ?_⟩
        rw [hrests.started, hrests.1] at hstage
        cases hstage
    | falls hstage hstage' heor heoc =>
        refine ⟨by rw [heor]; simp, fun hrests => ?_⟩
        rw [hrests.started, hrests.1] at hstage
        cases hstage

/-- The end of a cycle leaves `falling`. -/
theorem stage_of_eoc {s : Slew F} {a : SlewCall F} (h : (s.call a).1.eoc = true) :
    s.stage = .falling ∧ (s.call a).2.stage = .idle := by
  rcases call_cases s a with ⟨-, heoc, -, -⟩ | ⟨houtcome, -⟩
  · rw [heoc] at h
    cases h
  · cases houtcome with
    | goesOn hstage heor heoc =>
        rw [heoc] at h
        cases h
    | rises hstage hstage' heor heoc =>
        rw [heoc] at h
        cases h
    | falls hstage hstage' heor heoc => exact ⟨(started_falling hstage).1, hstage'⟩

/-- Only the end of a rise enters `falling`. -/
theorem stage_ne_falling {s : Slew F} {a : SlewCall F} (hs : s.stage ≠ .falling)
    (h : ¬ (s.call a).1.eor = true) : (s.call a).2.stage ≠ .falling := by
  rcases call_cases s a with ⟨-, -, hsame, -⟩ | ⟨houtcome, -⟩
  · rwa [hsame]
  · cases houtcome with
    | goesOn hstage heor heoc =>
        rw [hstage]
        exact fun hfall => hs (started_falling hfall).1
    | rises hstage hstage' heor heoc => exact absurd heor h
    | falls hstage hstage' heor heoc =>
        rw [hstage']
        exact SlewStage.noConfusion

/-- The end of a rise is shown by a tick from `rising`, which spends the trigger. -/
theorem stage_of_eor {s : Slew F} {a : SlewCall F} (h : (s.call a).1.eor = true) :
    s.started.stage = .rising ∧ (s.call a).2.stage = .falling ∧
      (s.call a).2.trigPending = false := by
  rcases call_cases s a with ⟨heor, -, -, -⟩ | ⟨houtcome, hpending⟩
  · rw [heor] at h
    cases h
  · cases houtcome with
    | goesOn hstage heor heoc =>
        rw [heor] at h
        cases h
    | rises hstage hstage' heor heoc => exact ⟨hstage, hstage', hpending⟩
    | falls hstage hstage' heor heoc =>
        rw [heor] at h
        cases h

/-- A fall that no trigger is about to interrupt. -/
def Falls (s : Slew F) : Prop := s.stage = .falling ∧ s.trigPending = false

/-- The end of a rise starts a fall. -/
theorem falls_of_eor {s : Slew F} {a : SlewCall F} (h : (s.call a).1.eor = true) :
    (s.call a).2.Falls := (stage_of_eor h).2

theorem Falls.started {s : Slew F} (h : s.Falls) : s.started.stage = .falling := by
  rcases started_of_not_trig h.2 with hsame | hcycle
  · exact hsame.trans h.1
  · rw [h.1] at hcycle
    cases hcycle.1

/-- A fall shows no end of a rise. -/
theorem Falls.not_eor {s : Slew F} (hs : s.Falls) (a : SlewCall F) :
    ¬ (s.call a).1.eor = true := by
  intro h
  have hrising := (stage_of_eor h).1
  rw [hs.started] at hrising
  cases hrising

/-- A fall goes on until the end of the cycle or a trigger. -/
theorem Falls.call {s : Slew F} (hs : s.Falls) {a : SlewCall F}
    (h : ¬ ((s.call a).1.eoc = true ∨ (s.call a).1.trig = true)) : (s.call a).2.Falls := by
  rw [not_or, Bool.not_eq_true, Bool.not_eq_true] at h
  rcases call_cases s a with ⟨-, -, hsame, hpending⟩ | ⟨houtcome, hpending⟩
  · refine ⟨hsame.trans hs.1, ?_⟩
    rw [hpending, hs.2, h.2]
    rfl
  · cases houtcome with
    | goesOn hstage heor heoc => exact ⟨hstage.trans hs.started, hpending⟩
    | rises hstage hstage' heor heoc => exact ⟨hstage', hpending⟩
    | falls hstage hstage' heor heoc =>
        rw [h.1] at heoc
        cases heoc

end Slew

/-! ## Triggers -/

/-- A trigger that is pending behind one more call. -/
def trigAfter (trig : Bool) : SlewCall F → Bool
  | .tick rate _ => trig && le rate (lit 0)
  | .update key value => trig || (decide (key = "trig") && lt (lit (1 / 2)) value)

/-- A trigger was issued since the last tick with a rate. -/
def trigSince (as : List (SlewCall F)) : Bool := as.foldl trigAfter false

namespace Slew

theorem call_trigPending (s : Slew F) (a : SlewCall F) :
    (s.call a).2.trigPending = trigAfter s.trigPending a := by
  cases a with
  | update key value => exact update_trigPending key value s
  | tick rate c =>
      rw [call, trigAfter]
      by_cases hrate : le rate (lit 0) = true
      · rw [tickWith_of_le hrate, hrate, Bool.and_true]
      · obtain ⟨-, -, hstate⟩ := tickWith_of_pos hrate c s
        rw [hstate, trigPending_advanceWith, trigPending_started, Bool.eq_false_iff.mpr hrate,
          Bool.and_false]

theorem after_trigPending (s : Slew F) (as : List (SlewCall F)) :
    (Trace.after call s as).trigPending = as.foldl trigAfter s.trigPending := by
  induction as generalizing s with
  | nil => rfl
  | cons a as ih =>
      rw [List.foldl_cons, ← call_trigPending]
      exact ih (s.call a).2

/-- The value a rise reaches with its first step from the bottom. -/
def firstRise (c : F) : F := lit (-1) + (lit 1 - lit (-1)) * c

/-- A tick that starts a rise at the bottom: what it shows and what it leaves behind.  A first step
    that reaches the top ends the rise. -/
inductive RisesFromBottom (c : F) (s : Slew F) : ModulatorOutput F × Slew F → Prop where
  | goesOn (h : le (lit 1 - kThresh) (firstRise c) = false) :
      RisesFromBottom c s (cvOutput (firstRise c * s.depth),
        { s with trigPending := false, stage := .rising, current := firstRise c })
  | ends (h : le (lit 1 - kThresh) (firstRise c) = true) :
      RisesFromBottom c s ({ cvOutput (lit 1 * s.depth) with gate := true },
        { s with trigPending := false, stage := .falling, current := lit 1 })

/-- A pending trigger makes a tick with a rate the first of a rise, whatever the stage. -/
theorem tickWith_of_trig {s : Slew F} (h : s.trigPending = true) {rate : F}
    (hrate : ¬ le rate (lit 0) = true) (c : F) : RisesFromBottom c s (s.tickWith rate c) := by
  rw [tickWith, if_neg hrate, started_of_trig h]
  cases htop : le (lit 1 - kThresh) (firstRise c) with
  | false =>
      have hadvance : advanceWith c
          { s with trigPending := false, current := lit (-1), stage := .rising } =
          ({ s with trigPending := false, stage := .rising, current := firstRise c },
            false, false) :=
        if_neg (Bool.eq_false_iff.mp htop)
      rw [hadvance]
      exact .goesOn htop
  | true =>
      have hadvance : advanceWith c
          { s with trigPending := false, current := lit (-1), stage := .rising } =
          ({ s with trigPending := false, stage := .falling, current := lit 1 }, true, false) :=
        if_pos htop
      rw [hadvance]
      exact .ends htop

end Slew

end Stages

/-! ## The range of the output -/

section Range

variable {R : Rounding}

namespace Slew

/-- The output and the input lie in [-1, 1]. -/
structure InRange (s : Slew R.Num) : Prop where
  current : -1 ≤ s.current.value ∧ s.current.value ≤ 1
  input : -1 ≤ s.input.value ∧ s.input.value ≤ 1

theorem one_mem : -1 ≤ (lit 1 : R.Num).value ∧ (lit 1 : R.Num).value ≤ 1 := by
  rw [Rounding.one_value]
  norm_num

theorem neg_one_mem : -1 ≤ (lit (-1) : R.Num).value ∧ (lit (-1) : R.Num).value ≤ 1 := by
  rw [Rounding.neg_one_value]
  norm_num

theorem InRange.started {s : Slew R.Num} (h : s.InRange) : s.started.InRange := by
  cases htrig : s.trigPending with
  | false =>
      rw [started_eq htrig]
      split_ifs
      · exact ⟨h.current, h.input⟩
      · exact h
  | true =>
      rw [started_of_trig htrig]
      exact ⟨neg_one_mem, h.input⟩

theorem InRange.advanceWith {s : Slew R.Num} (h : s.InRange) {c : R.Num}
    (hc : 0 ≤ c.value ∧ c.value ≤ 1) : (s.advanceWith c).1.InRange := by
  rw [Slew.advanceWith]
  cases s.stage with
  | idle => exact ⟨Rounding.towards_mem h.current h.input hc, h.input⟩
  | rising =>
      dsimp only
      split_ifs
      · exact ⟨one_mem, h.input⟩
      · exact ⟨Rounding.towards_mem h.current one_mem hc, h.input⟩
  | falling =>
      dsimp only
      split_ifs
      · exact ⟨neg_one_mem, h.input⟩
      · exact ⟨Rounding.towards_mem h.current neg_one_mem hc, h.input⟩

theorem InRange.update {s : Slew R.Num} (h : s.InRange) (key : String) (value : R.Num) :
    (s.update key value).InRange := by
  unfold Slew.update
  split
  · exact ⟨h.current, h.input⟩
  · exact ⟨h.current, h.input⟩
  · exact ⟨h.current, Rounding.clamp_one_mem value⟩
  · exact ⟨h.current, h.input⟩
  · exact ⟨h.current, h.input⟩
  · split_ifs
    · exact ⟨h.current, h.input⟩
    · exact h
  · exact h

/-- The coefficient of a tick lies in [0, 1]. -/
def CoeffOk : SlewCall R.Num → Prop
  | .tick _ c => 0 ≤ c.value ∧ c.value ≤ 1
  | .update _ _ => True

theorem InRange.call {s : Slew R.Num} {a : SlewCall R.Num} (h : s.InRange) (ha : CoeffOk a) :
    (s.call a).2.InRange := by
  cases a with
  | update key value => exact h.update key value
  | tick rate c =>
      rw [Slew.call]
      by_cases hrate : le rate (lit 0) = true
      · rw [tickWith_of_le hrate]
        exact h
      · obtain ⟨-, -, hstate⟩ := tickWith_of_pos hrate c s
        rw [hstate]
        exact h.started.advanceWith ha

theorem inRange_make : (make : Slew R.Num).InRange := by
  have hzero : -1 ≤ (lit 0 : R.Num).value ∧ (lit 0 : R.Num).value ≤ 1 := by
    rw [Rounding.zero_value]
    norm_num
  exact ⟨hzero, hzero⟩

/-- The coefficient of the source lies in [0, 1]. -/
theorem coeff_mem {timeS rate : R.Num} (htime : 0 < timeS.value) (hrate : 0 < rate.value) :
    0 ≤ (coeff timeS rate).value ∧ (coeff timeS rate).value ≤ 1 := by
  set x : R.Num := lit (-22 / 10) / (timeS * rate) with hx
  have hneg : x.value ≤ 0 := by
    have hlit : (lit (-22 / 10) : R.Num).value ≤ 0 := R.round_nonpos (by norm_num)
    have hmul : 0 ≤ (timeS * rate).value := R.round_nonneg (mul_pos htime hrate).le
    exact R.round_nonpos (div_nonpos_of_nonpos_of_nonneg hlit hmul)
  have hlow : 0 ≤ (CMath.exp x).value := R.round_nonneg (Real.exp_pos _).le
  have hhigh : (CMath.exp x).value ≤ 1 := by
    have h := R.ok.mono (Real.exp_le_one_iff.mpr hneg)
    rwa [R.round_one] at h
  rw [coeff, ← hx, Rounding.sub_value, Rounding.one_value]
  refine ⟨R.round_nonneg (by linarith), ?_⟩
  have h := R.ok.mono (show 1 - (CMath.exp x).value ≤ 1 by linarith)
  rwa [R.round_one] at h

theorem usedCoeff_mem {s : Slew R.Num} (hrise : 0 < s.rise.value) (hfall : 0 < s.fall.value)
    {rate : R.Num} (hrate : 0 < rate.value) :
    0 ≤ (s.usedCoeff rate).value ∧ (s.usedCoeff rate).value ≤ 1 := by
  rw [usedCoeff]
  cases s.stage with
  | idle =>
      dsimp only
      split_ifs
      · exact coeff_mem hrise hrate
      · exact coeff_mem hfall hrate
  | rising => exact coeff_mem hrise hrate
  | falling => exact coeff_mem hfall hrate

end Slew

/-! ## The stage machine -/

variable {F : Type*} [CMath F]

/-- The stage machine on every run of calls: the gates and the triggers over any arithmetic, the
    range of the output in every arithmetic that rounds, with coefficients in [0, 1]. -/
theorem slew_stage_machine_sound (as : List (SlewCall F))
    (bs : List (SlewCall R.Num)) (hbs : ∀ b ∈ bs, Slew.CoeffOk b) :
    let s := Trace.after Slew.call Slew.make as
    let es := Trace.events Slew.call Slew.make as
    let r := Trace.after Slew.call Slew.make bs
    -- the output before it is scaled
    (-1 ≤ r.current.value ∧ r.current.value ≤ 1) ∧
    -- the gates
    (∀ a, ¬ ((s.call a).1.eor = true ∧ (s.call a).1.eoc = true) ∧
      (s.Rests → (s.call a).1.eor = false ∧ (s.call a).1.eoc = false)) ∧
    (∀ (i j : Nat) (e e' : SlewEvent), i < j → es[i]? = some e → e.eoc = true →
      es[j]? = some e' → e'.eoc = true →
      ∃ k, i < k ∧ k < j ∧ ∃ e'' : SlewEvent, es[k]? = some e'' ∧ e''.eor = true) ∧
    (∀ (i j : Nat) (e e' : SlewEvent), i < j → es[i]? = some e → e.eor = true →
      es[j]? = some e' → e'.eor = true →
      ∃ k, i < k ∧ k < j ∧ ∃ e'' : SlewEvent, es[k]? = some e'' ∧
        (e''.eoc = true ∨ e''.trig = true)) ∧
    -- a trigger
    (trigSince as = true → ∀ rate c, ¬ le rate (lit 0) = true →
      Slew.RisesFromBottom c s (s.tickWith rate c)) ∧
    -- the calls of a run are ticks with a coefficient, and updates
    (∀ (u : Slew F) (rate c : F), u.call (.tick rate c) =
      (⟨(u.tickWith rate c).1.gate, (u.tickWith rate c).1.gate2, false⟩, (u.tickWith rate c).2)) ∧
    (∀ (u : Slew F) (key : String) (value : F),
      (u.call (.update key value)).2 = u.update key value) ∧
    -- the source's own tick
    (∀ (u : Slew F) (rate : F), u.tick rate = u.tickWith rate (u.started.usedCoeff rate)) ∧
    (∀ (u : Slew R.Num) (rate : R.Num), 0 < u.rise.value → 0 < u.fall.value → 0 < rate.value →
      0 ≤ (u.usedCoeff rate).value ∧ (u.usedCoeff rate).value ≤ 1) := by
  intro s es r
  refine ⟨?_, Slew.call_gates s, ?_, ?_, ?_, fun _ _ _ => rfl, fun _ _ _ => rfl,
    fun u rate => Slew.tick_eq rate u,
    fun u rate hrise hfall hrate => Slew.usedCoeff_mem hrise hfall hrate⟩
  · have hstep : ∀ (u : Slew R.Num) a, u.InRange → Slew.CoeffOk a → (u.call a).2.InRange :=
      fun u a hu ha => hu.call ha
    have hrange : r.InRange := Trace.after_invariant hstep Slew.inRange_make hbs
    exact hrange.current
  · intro i j e e' hij he hX he' hX'
    exact Trace.between (P := fun s : Slew F => s.stage ≠ .falling)
      (X := fun e => e.eoc = true) (Y := fun e => e.eor = true)
      (fun u a h => by rw [(Slew.stage_of_eoc h).2]; exact SlewStage.noConfusion)
      (fun u a hu h => hu (Slew.stage_of_eoc h).1)
      (fun u a hu h => Slew.stage_ne_falling hu h) Slew.make as hij he hX he' hX'
  · intro i j e e' hij he hX he' hX'
    exact Trace.between (P := Slew.Falls) (X := fun e => e.eor = true)
      (Y := fun e => e.eoc = true ∨ e.trig = true)
      (fun u a h => Slew.falls_of_eor h) (fun u a hu => hu.not_eor a)
      (fun u a hu h => hu.call h) Slew.make as hij he hX he' hX'
  · intro htrig rate c hrate
    have hpending : s.trigPending = true := (Slew.after_trigPending Slew.make as).trans htrig
    exact Slew.tickWith_of_trig hpending hrate c

/-- A fall that is interrupted by a trigger. -/
def interruptedFall : List (SlewCall F) :=
  [.update "trig" (lit 1), .tick (lit 1) (lit 1), .tick (lit 1) (lit (1 / 4)),
    .update "trig" (lit 1)]

theorem coeffOk_interruptedFall : ∀ b ∈ (interruptedFall : List (SlewCall R.Num)),
    Slew.CoeffOk b := by
  have hlit : ∀ q : ℚ, 0 ≤ q → q ≤ 1 → 0 ≤ (lit q : R.Num).value ∧ (lit q : R.Num).value ≤ 1 := by
    intro q h0 h1
    refine ⟨R.round_nonneg (by exact_mod_cast h0), ?_⟩
    have h := R.ok.mono (show (q : ℝ) ≤ 1 by exact_mod_cast h1)
    rwa [R.round_one] at h
  intro b hb
  simp only [interruptedFall, List.mem_cons, List.not_mem_nil, or_false] at hb
  rcases hb with rfl | rfl | rfl | rfl
  · trivial
  · exact hlit 1 (by norm_num) (by norm_num)
  · exact hlit (1 / 4) (by norm_num) (by norm_num)
  · trivial

attribute [local instance] exactMath

/-- Half way down, a trigger: the next tick rises from the bottom, to 0. -/
theorem slew_stage_machine_sound_trig :
    let s : Slew ℚ := Trace.after Slew.call Slew.make interruptedFall
    let r : Slew Rounding.single.Num := Trace.after Slew.call Slew.make interruptedFall
    (s.stage = .falling ∧ s.current = 1 / 2) ∧
    (s.tickWith 1 (1 / 2)).2.stage = .rising ∧ (s.tickWith 1 (1 / 2)).2.current = 0 ∧
    (s.tickWith 1 (1 / 2)).1.cv = 0 ∧ (s.tickWith 1 (1 / 2)).1.gate = false ∧
    (-1 ≤ r.current.value ∧ r.current.value ≤ 1) := by
  intro s r
  have hsound := slew_stage_machine_sound (interruptedFall : List (SlewCall ℚ))
    (interruptedFall : List (SlewCall Rounding.single.Num)) coeffOk_interruptedFall
  obtain ⟨hrange, -, -, -, htrig, -⟩ := hsound
  have hrises := htrig (by decide +kernel) 1 (1 / 2) (by decide +kernel)
  have hbelow : le (lit 1 - Slew.kThresh) (Slew.firstRise (1 / 2 : ℚ)) = false := by
    decide +kernel
  refine ⟨⟨by decide +kernel, by decide +kernel⟩, ?_⟩
  show (s.tickWith 1 (1 / 2)).2.stage = .rising ∧ _
  generalize s.tickWith 1 (1 / 2) = t at hrises ⊢
  cases hrises with
  | goesOn h => exact ⟨rfl, by decide +kernel, by decide +kernel, rfl, hrange⟩
  | ends h =>
      rw [hbelow] at h
      cases h

end Range

end NomosRt.Modulator
