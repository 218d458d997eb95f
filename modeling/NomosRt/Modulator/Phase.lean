/-
  NomosRt.Modulator.Phase

  The phases of `slope`, `segment` and `shift-register` in exact arithmetic.

  All three add `rate / tick_rate_hz` to their phase in a tick and take off one cycle when
  it has reached 1.  A rate can be set above the tick rate, and then one cycle may not be
  enough: the phase leaves `[0, 1)`, and with it what `slope` shows leaves its range.
-/

import NomosRt.Lib.Phase
import NomosRt.Lib.RealFloat
import NomosRt.Modulator.Generators

namespace NomosRt.Modulator

open NomosRt.Lib CFloat CMath

attribute [local instance] realMath

/-! ## Runs of one modulator -/

section Runs

variable {I K M O B F : Type*}

/-- A modulator under `tick` and `update`. -/
def callMachine (sem : ModulatorSem I K M O B F) (start : M) :
    Machine M (ModulatorCall I K O B F) where
  start := start
  step s
    | .tick view beat rate => some (sem.tick view beat rate s).2
    | .update key value => some (sem.update key value s)

/-- What a call adds to the phase; a tick without a tick rate adds nothing. -/
noncomputable def increment (rate : M → ℝ) (s : M) : ModulatorCall I K O B ℝ → Option ℝ
  | .tick _ _ tickRate => if tickRate ≤ 0 then none else some (rate s / tickRate)
  | .update _ _ => none

/-- What `tick` and `update` do to a phase and its rate. -/
structure Clocked (sem : ModulatorSem I K M O B ℝ) (phase rate : M → ℝ) : Prop where
  tick_held : ∀ view beat r s, r ≤ 0 → phase (sem.tick view beat r s).2 = phase s
  tick_phase : ∀ view beat r s, 0 < r →
    phase (sem.tick view beat r s).2 = wrapOnce (phase s + rate s / r)
  tick_rate : ∀ view beat r s, rate (sem.tick view beat r s).2 = rate s
  update_phase : ∀ key x s, phase (sem.update key x s) = phase s
  update_rate : ∀ key x s, 0 < rate s → 0 < rate (sem.update key x s)

theorem Clocked.accumulates {sem : ModulatorSem I K M O B ℝ} {phase rate : M → ℝ}
    (h : Clocked sem phase rate) (start : M) (hphase : phase start = 0) (hrate : 0 < rate start) :
    Accumulates (callMachine sem start) phase (increment rate) fun s => 0 < rate s where
  start := hrate
  phase_start := by
    show InCycle (phase start)
    rw [hphase]
    exact ⟨le_refl 0, one_pos⟩
  keeps s a s' hs hstep := by
    cases a with
    | tick view beat r =>
        cases hstep
        rwa [h.tick_rate]
    | update key x =>
        cases hstep
        exact h.update_rate key x s hs
  inc_nonneg s a d hs hd := by
    cases a with
    | tick view beat r =>
        simp only [increment] at hd
        split_ifs at hd with hr
        cases hd
        exact div_nonneg hs.le (not_le.mp hr).le
    | update key x => cases hd
  idle s a s' hstep hinc := by
    cases a with
    | tick view beat r =>
        cases hstep
        simp only [increment] at hinc
        split_ifs at hinc with hr
        exact h.tick_held view beat r s hr
    | update key x =>
        cases hstep
        exact h.update_phase key x s
  advance s a s' d hstep hinc := by
    cases a with
    | tick view beat r =>
        cases hstep
        simp only [increment] at hinc
        split_ifs at hinc with hr
        cases hinc
        exact h.tick_phase view beat r s (not_le.mp hr)
    | update key x => cases hinc

/-- The phase stays in one cycle along every run in which one subtraction is enough in every
    tick, a tick leaves the cycle otherwise, and a rate up to the tick rate is slow enough. -/
structure StaysInCycle (m : Machine M (ModulatorCall I K O B ℝ)) (phase rate : M → ℝ) : Prop where
  holds : ∀ as s, m.Reached (OnceEnough phase (increment rate)) as s → InCycle (phase s)
  exact : ∀ as s a s', m.Reached Machine.free as s → InCycle (phase s) → m.step s a = some s' →
    (InCycle (phase s') ↔ OnceEnough phase (increment rate) s a)
  slow : ∀ s view beat r, InCycle (phase s) → rate s ≤ r →
    OnceEnough phase (increment rate) s (.tick view beat r : ModulatorCall I K O B ℝ)

theorem onceEnough_of_rate_le {phase rate : M → ℝ} {s : M} (view : I → Option O) (beat : B) {r : ℝ}
    (hphase : InCycle (phase s)) (hrate : rate s ≤ r) :
    OnceEnough phase (increment rate) s (.tick view beat r : ModulatorCall I K O B ℝ) := by
  intro d hd
  simp only [increment] at hd
  split_ifs at hd with hr
  cases hd
  have hone : rate s / r ≤ 1 := (div_le_one (not_le.mp hr)).mpr hrate
  have hlt := hphase.2
  linarith

theorem Clocked.staysInCycle {sem : ModulatorSem I K M O B ℝ} {phase rate : M → ℝ}
    (h : Clocked sem phase rate) (start : M) (hphase : phase start = 0) (hrate : 0 < rate start) :
    StaysInCycle (callMachine sem start) phase rate where
  holds _ _ hr := (h.accumulates start hphase hrate).inCycle hr
  exact _ _ _ _ hr hs hstep :=
    (h.accumulates start hphase hrate).step_iff ((h.accumulates start hphase hrate).inv hr) hs hstep
  slow _ view beat _ hs hrate := onceEnough_of_rate_le view beat hs hrate

end Runs

/-! ## The three modulators -/

/-- The virtual functions of `slope_modulator`. -/
def Slope.sem (I B : Type*) {F : Type*} [CMath F] :
    ModulatorSem I String (Slope F) (ModulatorOutput F) B F where
  tick _ _ := Slope.tick
  update := Slope.update

/-- The virtual functions of `segment_modulator`. -/
def Segment.sem (I B : Type*) {F : Type*} [CMath F] :
    ModulatorSem I String (Segment F) (ModulatorOutput F) B F where
  tick _ _ := Segment.tick
  update := Segment.update

section Clocks

variable (I B : Type*)

theorem clamp_pos (x : ℝ) {lo hi : ℚ} (hlo : 0 < lo) (h : lo ≤ hi) :
    0 < clamp x (lit lo) (lit hi) :=
  lt_of_lt_of_le (Rat.cast_pos.mpr hlo) (clamp_mem x h).1

theorem wrapOnce_eq (x : ℝ) : (if le (lit 1) x then x - lit 1 else x) = wrapOnce x := by
  rw [real_lit_one, wrapOnce]
  simp only [real_le]

theorem slope_clocked : Clocked (Slope.sem I B) Slope.phase Slope.rate where
  tick_held view beat r s hr := by
    show (Slope.tick r s).2.phase = s.phase
    rw [Slope.tick, if_pos (real_le_zero.mpr hr)]
  tick_phase view beat r s hr := by
    show (Slope.tick r s).2.phase = wrapOnce (s.phase + s.rate / r)
    rw [Slope.tick, if_neg (real_le_zero.not.mpr (not_le.mpr hr)), ← wrapOnce_eq]
  tick_rate view beat r s := by
    show (Slope.tick r s).2.rate = s.rate
    rw [Slope.tick]
    split_ifs <;> rfl
  update_phase key x s := by
    show (Slope.update key x s).phase = s.phase
    unfold Slope.update
    split <;> rfl
  update_rate key x s hs := by
    show 0 < (Slope.update key x s).rate
    unfold Slope.update
    split
    · exact clamp_pos x (by norm_num) (by norm_num)
    all_goals exact hs

theorem segment_clocked : Clocked (Segment.sem I B) Segment.phase Segment.rate where
  tick_held view beat r s hr := by
    show (Segment.tick r s).2.phase = s.phase
    rw [Segment.tick, if_pos (real_le_zero.mpr hr)]
  tick_phase view beat r s hr := by
    show (Segment.tick r s).2.phase = wrapOnce (s.phase + s.rate / r)
    rw [Segment.tick, if_neg (real_le_zero.not.mpr (not_le.mpr hr)), ← wrapOnce_eq]
    -- the phase and the count of cycles come as a pair
    show (if le (lit 1) (s.phase + s.rate / r) then
        (s.phase + s.rate / r - lit 1, s.cycleCount + 1)
      else (s.phase + s.rate / r, s.cycleCount)).1 = _
    split_ifs <;> rfl
  tick_rate view beat r s := by
    show (Segment.tick r s).2.rate = s.rate
    rw [Segment.tick]
    split_ifs <;> rfl
  update_phase key x s := by
    show (Segment.update key x s).phase = s.phase
    unfold Segment.update
    split_ifs
    · rfl
    · rfl
    · split
      · rfl
      · split_ifs <;> rfl
  update_rate key x s hs := by
    show 0 < (Segment.update key x s).rate
    unfold Segment.update
    split_ifs
    · exact hs
    · exact clamp_pos x (by norm_num) (by norm_num)
    · split
      · exact hs
      · split_ifs <;> exact hs

theorem shiftRegister_clocked :
    Clocked (ShiftRegister.sem I B) ShiftRegister.clockPhase ShiftRegister.clockRate where
  tick_held view beat r s hr := by
    show (ShiftRegister.tick r s).2.clockPhase = s.clockPhase
    rw [ShiftRegister.tick, if_pos (real_le_zero.mpr hr)]
  tick_phase view beat r s hr := by
    show (ShiftRegister.tick r s).2.clockPhase = wrapOnce (s.clockPhase + s.clockRate / r)
    rw [ShiftRegister.tick, if_neg (real_le_zero.not.mpr (not_le.mpr hr)), wrapOnce, ← real_lit_one]
    -- the test is the other way round
    simp only [real_lt]
    split_ifs with hlt hle hle
    · exact absurd hlt (not_lt.mpr hle)
    · rfl
    · rfl
    · exact absurd (not_lt.mp hlt) hle
  tick_rate view beat r s := by
    show (ShiftRegister.tick r s).2.clockRate = s.clockRate
    rw [ShiftRegister.tick]
    split_ifs
    · rfl
    · dsimp only
      split_ifs <;> rfl
  update_phase key x s := by
    show (ShiftRegister.update key x s).clockPhase = s.clockPhase
    unfold ShiftRegister.update
    split <;> rfl
  update_rate key x s hs := by
    show 0 < (ShiftRegister.update key x s).clockRate
    unfold ShiftRegister.update
    split
    · exact clamp_pos x (by norm_num) (by norm_num)
    all_goals exact hs

end Clocks

/-! ## What `slope` shows -/

section Range

/-- The value of the triangle in `shaped`. -/
noncomputable def triangle (p : ℝ) : ℝ :=
  if lt p (lit (1 / 2)) then p * lit 2 else (lit 1 - p) * lit 2

/-- Parameters in the range `update` clamps them to, and a filter that has seen no value
    outside `[0, 1]`. -/
structure SlopeOk (s : Slope ℝ) : Prop where
  shape : -1 ≤ s.shape ∧ s.shape ≤ 1
  slope : -1 ≤ s.slope ∧ s.slope ≤ 1
  smoothness : -1 ≤ s.smoothness ∧ s.smoothness ≤ 1
  depth : 0 ≤ s.depth ∧ s.depth ≤ 1
  smoothState : 0 ≤ s.smoothState ∧ s.smoothState ≤ 1

/-- The attack is a proper part of the cycle, so each side of the peak is scaled to a half. -/
theorem skewed_mem (slope : ℝ) {phase : ℝ} (hphase : InCycle phase) :
    0 ≤ Slope.skewed slope phase ∧ Slope.skewed slope phase ≤ 1 := by
  have hattack : lit (1 / 100) ≤
        clamp (lit (1 / 2) + slope * lit (49 / 100)) (lit (1 / 100)) (lit (99 / 100)) ∧
      clamp (lit (1 / 2) + slope * lit (49 / 100)) (lit (1 / 100)) (lit (99 / 100)) ≤
        lit (99 / 100) :=
    clamp_mem _ (by norm_num)
  rw [Slope.skewed]
  generalize clamp (lit (1 / 2) + slope * lit (49 / 100)) (lit (1 / 100)) (lit (99 / 100)) = attack
    at *
  obtain ⟨h0, h1⟩ := hphase
  simp only [real_lt, real_lit] at hattack ⊢
  push_cast at hattack ⊢
  obtain ⟨hlo, hhi⟩ := hattack
  split_ifs with hlt
  · have hq : phase / attack ≤ 1 := (div_le_one (by linarith)).mpr hlt.le
    have hq0 : 0 ≤ phase / attack := div_nonneg h0 (by linarith)
    constructor <;> linarith
  · have hpos : 0 < 1 - attack := by linarith
    have hq : (phase - attack) / (1 - attack) ≤ 1 := (div_le_one hpos).mpr (by linarith)
    have hq0 : 0 ≤ (phase - attack) / (1 - attack) := div_nonneg (by linarith) hpos.le
    constructor <;> linarith

theorem triangle_mem {p : ℝ} (hp : 0 ≤ p ∧ p ≤ 1) : 0 ≤ triangle p ∧ triangle p ≤ 1 := by
  rw [triangle]
  simp only [real_lt, real_lit]
  norm_num
  split_ifs <;> constructor <;> linarith

/-- A mean of two values in the unit interval lies in it. -/
theorem mean_mem {a b w : ℝ} (ha : 0 ≤ a ∧ a ≤ 1) (hb : 0 ≤ b ∧ b ≤ 1) (hw : 0 ≤ w ∧ w ≤ 1) :
    0 ≤ a + w * (b - a) ∧ a + w * (b - a) ≤ 1 := by
  constructor <;> nlinarith

/-- Triangle, sine and peak all stay in the unit interval. -/
theorem shaped_mem {shape p : ℝ} (hshape : -1 ≤ shape ∧ shape ≤ 1) (hp : 0 ≤ p ∧ p ≤ 1) :
    0 ≤ Slope.shaped shape p ∧ Slope.shaped shape p ≤ 1 := by
  have htri : (if lt p (lit (1 / 2)) then p * lit 2 else (lit 1 - p) * lit 2) = triangle p :=
    rfl
  have hsin : 0 ≤ lit (1 / 2) - lit (1 / 2) * CFloat.cos (lit 2 * piF * p) ∧
      lit (1 / 2) - lit (1 / 2) * CFloat.cos (lit 2 * piF * p) ≤ (1 : ℝ) := by
    have hlow : -1 ≤ CFloat.cos (lit 2 * piF * p) := Real.neg_one_le_cos _
    have hhigh : CFloat.cos (lit 2 * piF * p) ≤ 1 := Real.cos_le_one _
    norm_num [real_lit] at hlow hhigh ⊢
    constructor <;> linarith
  rw [Slope.shaped]
  simp only [htri]
  generalize lit (1 / 2) - lit (1 / 2) * CFloat.cos (lit 2 * piF * p) = sinV at hsin
  -- up to 0 the shape mixes triangle and sine; above 0 it sharpens the sine by a power
  split_ifs with hle
  · rw [real_le, real_lit_zero] at hle
    rw [real_lit_one]
    exact mean_mem (triangle_mem hp) hsin ⟨by linarith, by linarith⟩
  · rw [real_le, real_lit_zero, not_le] at hle
    have hbase : 0 ≤ CFloat.max sinV (lit (1 / 1000000)) ∧
        CFloat.max sinV (lit (1 / 1000000)) ≤ 1 := by
      rw [CFloat.max]
      split_ifs
      · norm_num [real_lit]
      · exact hsin
    have hexp : (0 : ℝ) ≤ lit 1 + shape * lit 2 := by
      norm_num [real_lit]
      linarith
    exact ⟨Real.rpow_nonneg hbase.1 _, Real.rpow_le_one hbase.1 hbase.2 hexp⟩

/-- Filter and fold stay in the unit interval. -/
theorem smoothed_mem {smoothness state x : ℝ} (hsmooth : -1 ≤ smoothness ∧ smoothness ≤ 1)
    (hstate : 0 ≤ state ∧ state ≤ 1) (hx : 0 ≤ x ∧ x ≤ 1) :
    (0 ≤ (Slope.smoothed smoothness state x).1 ∧ (Slope.smoothed smoothness state x).1 ≤ 1) ∧
    0 ≤ (Slope.smoothed smoothness state x).2 ∧ (Slope.smoothed smoothness state x).2 ≤ 1 := by
  rw [Slope.smoothed]
  simp only [real_lt, real_lit_zero, real_lit_one]
  by_cases hneg : smoothness < 0
  · have hc : 0 ≤ (1 + smoothness) * (1 + smoothness) ∧
        (1 + smoothness) * (1 + smoothness) ≤ 1 := by
      constructor <;> nlinarith
    rw [if_pos hneg]
    exact ⟨mean_mem hstate hx hc, mean_mem hstate hx hc⟩
  · rw [if_neg hneg]
    by_cases hpos : 0 < smoothness
    · have harg : 0 ≤ x * (1 + smoothness * lit 3) := by
        apply mul_nonneg hx.1
        norm_num [real_lit]
        linarith
      have htwo : (lit 2 : ℝ) = 2 := by norm_num [real_lit]
      rw [if_pos hpos]
      refine ⟨?_, hstate⟩
      rw [htwo]
      obtain ⟨hlow, hhigh⟩ := fmod_mem harg two_pos
      -- the upper half is folded back
      show 0 ≤ (if 1 < fmod (x * (1 + smoothness * lit 3)) 2 then
          2 - fmod (x * (1 + smoothness * lit 3)) 2 else _) ∧ _ ≤ _
      split_ifs <;> constructor <;> linarith
    · rw [if_neg hpos]
      exact ⟨hx, hstate⟩

/-- The output of a tick at tick rate `r`: the triangle in the unit interval, and `.cv` in the
    bipolar or unipolar range, scaled by the depth. -/
structure SlopeInRange (s : Slope ℝ) (r : ℝ) : Prop where
  triangle : 0 ≤ triangle (Slope.skewed s.slope (s.tick r).2.phase) ∧
    triangle (Slope.skewed s.slope (s.tick r).2.phase) ≤ 1
  bipolar : s.bipolar = true → -s.depth ≤ (s.tick r).1.cv ∧ (s.tick r).1.cv ≤ s.depth
  unipolar : s.bipolar = false → 0 ≤ (s.tick r).1.cv ∧ (s.tick r).1.cv ≤ s.depth

/-- A tick that ends inside the cycle. -/
theorem slope_tick_range {s : Slope ℝ} (hok : SlopeOk s) {r : ℝ} (hr : 0 < r)
    (hphase : InCycle (s.tick r).2.phase) : SlopeOk (s.tick r).2 ∧ SlopeInRange s r := by
  have hrate : ¬ le r (lit 0) = true := real_le_zero.not.mpr (not_le.mpr hr)
  have hskew := skewed_mem s.slope hphase
  have hshaped := shaped_mem hok.shape hskew
  obtain ⟨hout, hstate⟩ := smoothed_mem hok.smoothness hok.smoothState hshaped
  generalize hout' : Slope.smoothed s.smoothness s.smoothState
    (Slope.shaped s.shape (Slope.skewed s.slope (s.tick r).2.phase)) = out at hout hstate
  have hcv : (s.tick r).1.cv =
      (if s.bipolar then out.1 * lit 2 - lit 1 else out.1) * s.depth := by
    rw [← hout', Slope.tick, if_neg hrate]
    rfl
  have hstate' : (s.tick r).2.smoothState = out.2 := by
    rw [← hout', Slope.tick, if_neg hrate]
  have hkept : (s.tick r).2 = { s with
      phase := (s.tick r).2.phase
      smoothState := (s.tick r).2.smoothState
      lastOutput := (s.tick r).2.lastOutput } := by
    rw [Slope.tick, if_neg hrate]
  have hdepth := hok.depth
  -- the stored state, the triangle, and the output of either polarity
  refine ⟨?_, triangle_mem hskew, ?_, ?_⟩
  · rw [hkept]
    exact { hok with smoothState := by rw [hstate']; exact hstate }
  · intro hb
    rw [hcv, hb, if_pos rfl]
    norm_num [real_lit]
    constructor <;> nlinarith
  · intro hb
    rw [hcv, hb, if_neg Bool.false_ne_true]
    constructor <;> nlinarith

theorem slopeOk_make : SlopeOk Slope.make := by
  constructor <;> norm_num [Slope.make, real_lit]

theorem SlopeOk.update {s : Slope ℝ} (hok : SlopeOk s) (key : String) (x : ℝ) :
    SlopeOk (s.update key x) := by
  have hsigned : -1 ≤ clamp x (lit (-1)) (lit 1) ∧ clamp x (lit (-1)) (lit 1) ≤ 1 := by
    exact_mod_cast clamp_mem x (by norm_num : (-1 : ℚ) ≤ 1)
  have hunit : 0 ≤ clamp x (lit 0) (lit 1) ∧ clamp x (lit 0) (lit 1) ≤ 1 := by
    exact_mod_cast clamp_mem x (by norm_num : (0 : ℚ) ≤ 1)
  unfold Slope.update
  split
  · exact { hok with }
  · exact { hok with shape := hsigned }
  · exact { hok with slope := hsigned }
  · exact { hok with smoothness := hsigned }
  · exact { hok with depth := hunit }
  · exact { hok with }
  · exact hok

end Range

/-! ## Phases and rates -/

section Cycles

variable (I B : Type*)

/-- `slope` along a run in which one subtraction is enough in every tick. -/
theorem slope_run_ok {as : List (ModulatorCall I String (ModulatorOutput ℝ) B ℝ)} {s : Slope ℝ}
    (hr : (callMachine (Slope.sem I B) Slope.make).Reached
      (OnceEnough Slope.phase (increment Slope.rate)) as s) :
    SlopeOk s ∧ InCycle s.phase ∧ 0 < s.rate := by
  have hacc := (slope_clocked I B).accumulates Slope.make real_lit_zero
    (by norm_num [Slope.make, real_lit])
  refine hr.invariant (I := fun s => SlopeOk s ∧ InCycle s.phase ∧ 0 < s.rate)
    ⟨slopeOk_make, hacc.phase_start, hacc.start⟩ ?_
  rintro s a s' ⟨hok, hphase, hrate⟩ hG hstep
  have hphase' := (hacc.step_iff hrate hphase hstep).mpr hG
  refine ⟨?_, hphase', hacc.keeps s a s' hrate hstep⟩
  cases a with
  | update key x =>
      cases hstep
      exact hok.update key x
  | tick view beat r =>
      cases hstep
      rcases le_or_gt r 0 with hle | hpos
      · have hheld : (Slope.tick r s).2 = s := by
          rw [Slope.tick, if_pos (real_le_zero.mpr hle)]
        show SlopeOk (Slope.tick r s).2
        rw [hheld]
        exact hok
      · exact (slope_tick_range hok hpos hphase').1

/-- The three phases stay in one cycle along every run in which `phase + rate / tick_rate` is
    below 2 before every tick, and a tick where it is not leaves the cycle; along such a run
    `slope` stays in its range. -/
theorem phases_stay_in_cycle :
    StaysInCycle (callMachine (Slope.sem I B) Slope.make) Slope.phase Slope.rate ∧
    (∀ defs, StaysInCycle (callMachine (Segment.sem I B) (Segment.make defs)) Segment.phase
      Segment.rate) ∧
    (∀ mode length dacBits, StaysInCycle
      (callMachine (ShiftRegister.sem I B) (ShiftRegister.make mode length dacBits))
      ShiftRegister.clockPhase ShiftRegister.clockRate) ∧
    ∀ as s, (callMachine (Slope.sem I B) Slope.make).Reached
        (OnceEnough Slope.phase (increment Slope.rate)) as s →
      ∀ r, 0 < r → s.phase + s.rate / r < 2 → SlopeInRange s r := by
  refine ⟨?_, fun defs => ?_, fun mode length dacBits => ?_, fun as s hr r hpos hlt => ?_⟩
  · exact (slope_clocked I B).staysInCycle _ real_lit_zero (by norm_num [Slope.make, real_lit])
  · exact (segment_clocked I B).staysInCycle _ real_lit_zero (by norm_num [Segment.make, real_lit])
  · exact (shiftRegister_clocked I B).staysInCycle _ real_lit_zero
      (by norm_num [ShiftRegister.make, real_lit])
  · obtain ⟨hok, hphase, hrate⟩ := slope_run_ok I B hr
    have hsum : 0 ≤ s.phase + s.rate / r := add_nonneg hphase.1 (div_nonneg hrate.le hpos.le)
    have hphase' : InCycle (s.tick r).2.phase := by
      have htick : (s.tick r).2.phase = wrapOnce (s.phase + s.rate / r) :=
        (slope_clocked Unit Unit).tick_phase (fun _ => none) () r s hpos
      rw [htick, inCycle_wrapOnce_iff hsum]
      exact hlt
    exact (slope_tick_range hok hpos hphase').2

/-- A slope at 3 Hz with four ticks a second. -/
def slopeWraps : List (ModulatorCall Unit String (ModulatorOutput ℝ) Unit ℝ) :=
  [.update "rate" 3, .tick (fun _ => none) () 4, .tick (fun _ => none) () 4]

/-- Its second tick ends one cycle and stands halfway through the next. -/
theorem slope_wraps :
    ∃ s : Slope ℝ, (callMachine (Slope.sem Unit Unit) Slope.make).Reached
        (OnceEnough Slope.phase (increment Slope.rate)) slopeWraps s ∧
      s.phase = 1 / 2 ∧ InCycle s.phase ∧ SlopeInRange s 4 := by
  have hmain := phases_stay_in_cycle Unit Unit
  have hfour : (0 : ℝ) < 4 := by norm_num
  have htick : ∀ s : Slope ℝ, (s.tick 4).2.phase = wrapOnce (s.phase + s.rate / 4) ∧
      (s.tick 4).2.rate = s.rate := fun s =>
    ⟨(slope_clocked Unit Unit).tick_phase (fun _ => none) () 4 s hfour,
      (slope_clocked Unit Unit).tick_rate (fun _ => none) () 4 s⟩
  generalize hset : (Slope.make : Slope ℝ).update "rate" 3 = set
  have hset0 : set.phase = 0 ∧ set.rate = 3 := by
    rw [← hset]
    norm_num [Slope.update, Slope.make, clamp, real_lit]
  generalize hfirst : (set.tick 4).2 = first
  have hfirst0 : first.phase = 3 / 4 ∧ first.rate = 3 := by
    rw [← hfirst, (htick set).1, (htick set).2, hset0.1, hset0.2]
    norm_num [wrapOnce]
  generalize hsecond : (first.tick 4).2 = second
  have hsecond0 : second.phase = 1 / 2 ∧ second.rate = 3 := by
    rw [← hsecond, (htick first).1, (htick first).2, hfirst0.1, hfirst0.2]
    norm_num [wrapOnce]
  -- the run is slow enough, so the theorem says that the states it reaches are in the cycle
  have hreachSet : (callMachine (Slope.sem Unit Unit) Slope.make).Reached
      (OnceEnough Slope.phase (increment Slope.rate)) [.update "rate" 3] set :=
    .step .start (fun d hd => by cases hd) (congrArg some hset)
  have hreachFirst := hreachSet.step
    (hmain.1.slow _ (fun _ => none) () 4 (hmain.1.holds _ _ hreachSet) (by rw [hset0.2]; norm_num))
    (congrArg some hfirst)
  have hreach := hreachFirst.step
    (hmain.1.slow _ (fun _ => none) () 4 (hmain.1.holds _ _ hreachFirst)
      (by rw [hfirst0.2]; norm_num))
    (congrArg some hsecond)
  refine ⟨second, hreach, hsecond0.1, hmain.1.holds _ _ hreach,
    hmain.2.2.2 _ second hreach 4 hfour ?_⟩
  rw [hsecond0.1, hsecond0.2]
  norm_num

/-- At rate 100 and shape -1, a triangle. -/
noncomputable def fastSlope : Slope ℝ := (Slope.make.update "rate" 100).update "shape" (-1)

/-- With 24 ticks a second one tick takes the phase of that slope to 19/6 and its output, a
    triangle of depth 1, to -29/3. -/
theorem slope_leaves_cycle :
    (¬ ∀ as (s : Slope ℝ),
      (callMachine (Slope.sem Unit Unit) Slope.make).Reached Machine.free as s → InCycle s.phase) ∧
    fastSlope.bipolar = true ∧ fastSlope.depth = 1 ∧
    (fastSlope.tick 24).2.phase = 19 / 6 ∧ (fastSlope.tick 24).1.cv = -29 / 3 := by
  have hslope : fastSlope = ⟨100, -1, 0, 0, 1, true, 0, 1 / 2, 0⟩ := by
    norm_num [fastSlope, Slope.update, Slope.make, clamp, real_lit]
  have htick : (fastSlope.tick 24).2.phase = 19 / 6 := by
    rw [hslope]
    norm_num [Slope.tick, real_lit]
  refine ⟨fun hall => ?_, by rw [hslope], by rw [hslope], htick, ?_⟩
  · have hreach := hall [.update "rate" 100, .update "shape" (-1), .tick (fun _ => none) () 24]
      (fastSlope.tick 24).2 (.step (.step (.step .start trivial rfl) trivial rfl) trivial rfl)
    rw [InCycle, htick] at hreach
    norm_num at hreach
  · rw [hslope]
    norm_num [Slope.tick, Slope.skewed, Slope.shaped, Slope.smoothed, cvOutput, clamp, real_lit]

end Cycles

end NomosRt.Modulator
