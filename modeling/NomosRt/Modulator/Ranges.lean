/-
  NomosRt.Modulator.Ranges

  What the outputs of one modulator can be, in exact arithmetic: an invariant of each
  type's state, kept by `update` and by `tick`, and the range of the output it gives.

  Where a type ends in a clamp, or copies its input, there is nothing to keep.  The
  others hold mean values: a one-pole filter moves by a part of the distance to its
  target, a weighted sum is divided by the sum of the weights.  Such a value stays where
  the values it is the mean of are.
-/

import NomosRt.Modulator.DejaVu
import NomosRt.Modulator.Phase
import NomosRt.Modulator.Start

namespace NomosRt.Modulator

open NomosRt.Lib CFloat CMath

attribute [local instance] realMath

/-! ## Intervals -/

section Intervals

/-- `0 … 1`. -/
def Unipolar (x : ℝ) : Prop := 0 ≤ x ∧ x ≤ 1

/-- `-1 … 1`. -/
def Bipolar (x : ℝ) : Prop := -1 ≤ x ∧ x ≤ 1

theorem unipolar_clamp (x : ℝ) : Unipolar (clamp x (lit 0) (lit 1)) := by
  rw [Unipolar]
  exact_mod_cast clamp_mem x (by norm_num : (0 : ℚ) ≤ 1)

theorem bipolar_clamp (x : ℝ) : Bipolar (clamp x (lit (-1)) (lit 1)) := by
  rw [Bipolar]
  exact_mod_cast clamp_mem x (by norm_num : (-1 : ℚ) ≤ 1)

theorem unipolar_zero : Unipolar (lit 0) := by norm_num [Unipolar, real_lit]

theorem unipolar_one : Unipolar (lit 1) := by norm_num [Unipolar, real_lit]

theorem bipolar_zero : Bipolar (lit 0) := by norm_num [Bipolar, real_lit]

theorem Unipolar.mul {x d : ℝ} (hx : Unipolar x) (hd : Unipolar d) : Unipolar (x * d) :=
  ⟨mul_nonneg hx.1 hd.1, mul_le_one₀ hx.2 hd.1 hd.2⟩

/-- The depth scales a bipolar value. -/
theorem Bipolar.mul {x d : ℝ} (hx : Bipolar x) (hd : Unipolar d) : Bipolar (x * d) := by
  obtain ⟨hlow, hhigh⟩ := hx
  obtain ⟨hd0, hd1⟩ := hd
  constructor <;> nlinarith

/-- From the unit interval to the bipolar one. -/
theorem Unipolar.spread {x : ℝ} (hx : Unipolar x) : Bipolar (x * lit 2 - lit 1) := by
  obtain ⟨hlow, hhigh⟩ := hx
  norm_num [Bipolar, real_lit]
  constructor <;> linarith

/-- A part of the way to a target. -/
theorem Bipolar.approach {x target c : ℝ} (hx : Bipolar x) (ht : Bipolar target) (hc : Unipolar c) :
    Bipolar (x + (target - x) * c) := by
  obtain ⟨hx0, hx1⟩ := hx
  obtain ⟨ht0, ht1⟩ := ht
  obtain ⟨hc0, hc1⟩ := hc
  constructor <;> nlinarith

/-- The weighted mean of two values. -/
theorem Unipolar.blend {x y a : ℝ} (hx : Unipolar x) (hy : Unipolar y) (ha : Unipolar a) :
    Unipolar (a * x + (lit 1 - a) * y) := by
  obtain ⟨hx0, hx1⟩ := hx
  obtain ⟨hy0, hy1⟩ := hy
  obtain ⟨ha0, ha1⟩ := ha
  rw [real_lit_one]
  constructor <;> nlinarith

/-- A part of a positive whole. -/
theorem unipolar_div {x y : ℝ} (hx : 0 ≤ x) (hxy : x ≤ y) : Unipolar (x / y) :=
  ⟨div_nonneg hx (hx.trans hxy), div_le_one_of_le₀ hxy (hx.trans hxy)⟩

/-- `exp` of a value that is not positive. -/
theorem unipolar_exp {x : ℝ} (hx : x ≤ 0) : Unipolar (CMath.exp x) :=
  ⟨(Real.exp_pos x).le, Real.exp_le_one_iff.mpr hx⟩

theorem getD_of_forall {P : ℝ → Prop} {xs : List ℝ} (hxs : ∀ x ∈ xs, P x) {y : ℝ} (hy : P y)
    (i : Nat) : P (xs.getD i y) := by
  rw [List.getD_eq_getElem?_getD]
  cases h : xs[i]? with
  | none => exact hy
  | some x => exact hxs x (List.mem_of_getElem? h)

theorem forall_set {P : ℝ → Prop} {xs : List ℝ} (hxs : ∀ x ∈ xs, P x) {y : ℝ} (hy : P y)
    (i : Nat) : ∀ x ∈ xs.set i y, P x := by
  intro x hx
  rcases List.mem_or_eq_of_mem_set hx with hx | rfl
  · exact hxs x hx
  · exact hy

/-- The outputs that are not used are zero. -/
theorem forall_outputsOf {P : ℝ → Prop} (hzero : P (lit 0)) {xs : List ℝ} (hxs : ∀ x ∈ xs, P x) :
    ∀ x ∈ outputsOf xs, P x := by
  intro x hx
  rcases List.mem_append.mp hx with hx | hx
  · exact hxs x hx
  · rw [List.eq_of_mem_replicate hx]
    exact hzero

theorem foldl_weights {weights : List ℝ} (hweights : ∀ w ∈ weights, 0 ≤ w) (bit : Nat → Bool)
    (k : Nat) {a b : ℝ} (ha : 0 ≤ a) (hab : a ≤ b) :
    0 ≤ (weights.zipIdx k).foldl (fun sum w => if bit w.2 then sum + w.1 else sum) a ∧
      (weights.zipIdx k).foldl (fun sum w => if bit w.2 then sum + w.1 else sum) a ≤
        weights.foldl (· + ·) b := by
  induction weights generalizing k a b with
  | nil => exact ⟨ha, hab⟩
  | cons w weights ih =>
      have hw := hweights w (List.mem_cons_self ..)
      rw [List.zipIdx_cons, List.foldl_cons, List.foldl_cons]
      refine ih (fun v hv => hweights v (List.mem_cons_of_mem _ hv)) (k + 1) ?_ ?_
      · split_ifs <;> linarith
      · split_ifs <;> linarith

/-- A sum over some of the weights is no more than the sum over all of them. -/
theorem weightedSum_mem {weights : List ℝ} (hweights : ∀ w ∈ weights, 0 ≤ w) (bit : Nat → Bool) :
    0 ≤ weightedSum weights bit ∧
      weightedSum weights bit ≤ weights.foldl (· + ·) (lit 0) := by
  have hzero : (0 : ℝ) ≤ lit 0 := by rw [real_lit_zero]
  exact foldl_weights hweights bit 0 hzero le_rfl

/-- The glide towards a value in the unit interval. -/
theorem unipolar_glide (slew rate : ℝ) {state target : ℝ} (hstate : Unipolar state)
    (htarget : Unipolar target) : Unipolar (glide slew rate state target) := by
  rw [glide]
  refine hstate.blend htarget ?_
  split_ifs with h
  · simp only [Bool.and_eq_true, real_lt, real_lit_zero] at h
    refine unipolar_exp (div_nonpos_of_nonpos_of_nonneg ?_ (mul_nonneg h.2.le h.1.le))
    norm_num [real_lit]
  · exact unipolar_zero

/-- The random numbers lie in the unit interval. -/
theorem unipolar_nextRand (randState : BitVec 32) : Unipolar (nextRand (F := ℝ) randState).1 := by
  have hlt : ((randState * 1664525 + 1013904223) >>> 8).toNat < 2 ^ 24 := by
    rw [BitVec.toNat_ushiftRight, Nat.shiftRight_eq_div_pow]
    have := (randState * 1664525 + 1013904223).isLt
    omega
  have hcast : (((randState * 1664525 + 1013904223) >>> 8).toNat : ℝ) ≤ 2 ^ 24 := by
    exact_mod_cast hlt.le
  have hval : (nextRand (F := ℝ) randState).1 =
      (((randState * 1664525 + 1013904223) >>> 8).toNat : ℝ) / 2 ^ 24 := by
    show ((((randState * 1664525 + 1013904223) >>> 8).toNat : Int) : ℝ) * (lit 1 / lit 16777216) = _
    rw [real_lit_one, real_lit]
    push_cast
    ring
  rw [hval]
  exact unipolar_div (Nat.cast_nonneg _) hcast

end Intervals

/-! ## `slope`, `segment`, `slew` and `shift-register` -/

section Generators

/-- Parameters and state of `slope`. -/
structure SlopeRanged (s : Slope ℝ) : Prop extends SlopeOk s where
  rate : 0 < s.rate ∧ s.rate ≤ 100
  phase : InCycle s.phase

/-- The tick rates `slope` is made for: its own rate goes up to 100 Hz. -/
def FastTick (rate : ℝ) : Prop := (100 : ℕ) ≤ rate

/-- The range of either mode of `slope`. -/
def OfPolarity (bipolar : Bool) (x : ℝ) : Prop := if bipolar then Bipolar x else Unipolar x

theorem SlopeRanged.update {s : Slope ℝ} (h : SlopeRanged s) (key : String) (x : ℝ) :
    SlopeRanged (s.update key x) := by
  refine { h.toSlopeOk.update key x with rate := ?_, phase := ?_ }
  all_goals unfold Slope.update; split
  · refine ⟨clamp_pos x (by norm_num) (by norm_num), ?_⟩
    exact_mod_cast (clamp_mem x (by norm_num : (1 / 1000 : ℚ) ≤ 100)).2
  all_goals first | exact h.rate | exact h.phase

theorem SlopeRanged.tick {s : Slope ℝ} (h : SlopeRanged s) {r : ℝ} (hr : FastTick r) :
    SlopeRanged (s.tick r).2 ∧ OfPolarity s.bipolar (s.tick r).1.cv := by
  have hfast : 100 ≤ r := hr
  have hpos : 0 < r := lt_of_lt_of_le (by norm_num) hfast
  have hinc : s.rate / r ≤ 1 := (div_le_one hpos).mpr (h.rate.2.trans hfast)
  have hphase : InCycle (s.tick r).2.phase := by
    have htick : (s.tick r).2.phase = wrapOnce (s.phase + s.rate / r) :=
      (slope_clocked Unit Unit).tick_phase (fun _ => none) () r s hpos
    rw [htick, inCycle_wrapOnce_iff (add_nonneg h.phase.1 (div_nonneg h.rate.1.le hpos.le))]
    linarith [h.phase.2]
  obtain ⟨hok, hrange⟩ := slope_tick_range h.toSlopeOk hpos hphase
  have hcv : OfPolarity s.bipolar (s.tick r).1.cv := by
    have hdepth := h.depth
    cases hb : s.bipolar with
    | true =>
        obtain ⟨hlow, hhigh⟩ := hrange.bipolar hb
        show Bipolar _
        constructor <;> linarith
    | false =>
        obtain ⟨hlow, hhigh⟩ := hrange.unipolar hb
        show Unipolar _
        constructor <;> linarith
  have hrate : (s.tick r).2.rate = s.rate :=
    (slope_clocked Unit Unit).tick_rate (fun _ => none) () r s
  exact ⟨{ hok with rate := hrate ▸ h.rate, phase := hphase }, hcv⟩

/-- The value and the depth of `segment`. -/
structure SegmentRanged (s : Segment ℝ) : Prop where
  curOutput : Unipolar s.curOutput
  depth : Unipolar s.depth

theorem SegmentRanged.update {s : Segment ℝ} (h : SegmentRanged s) (key : String) (x : ℝ) :
    SegmentRanged (s.update key x) := by
  unfold Segment.update
  split_ifs
  · exact { h with depth := unipolar_clamp x }
  · exact { h with }
  · split
    · exact h
    · split_ifs
      · exact h
      · exact { h with }
      · exact { h with }
      · exact h

theorem SegmentRanged.tick {s : Segment ℝ} (h : SegmentRanged s) (r : ℝ) :
    SegmentRanged (s.tick r).2 ∧ Unipolar (s.tick r).1.cv := by
  rw [Segment.tick]
  split_ifs
  · exact ⟨h, h.curOutput.mul h.depth⟩
  · exact ⟨⟨unipolar_clamp _, h.depth⟩, (unipolar_clamp _).mul h.depth⟩

/-- The times, the target and the level of `slew`. -/
structure SlewRanged (s : Slew ℝ) : Prop where
  rise : 0 < s.rise
  fall : 0 < s.fall
  input : Bipolar s.input
  depth : Unipolar s.depth
  current : Bipolar s.current

theorem SlewRanged.update {s : Slew ℝ} (h : SlewRanged s) (key : String) (x : ℝ) :
    SlewRanged (s.update key x) := by
  unfold Slew.update
  split
  · exact { h with rise := clamp_pos x (by norm_num) (by norm_num) }
  · exact { h with fall := clamp_pos x (by norm_num) (by norm_num) }
  · exact { h with input := bipolar_clamp x }
  · exact { h with depth := unipolar_clamp x }
  · exact { h with }
  · split_ifs
    · exact { h with }
    · exact h
  · exact h

theorem bipolar_one : Bipolar (lit 1) := by norm_num [Bipolar, real_lit]

theorem bipolar_neg_one : Bipolar (lit (-1)) := by norm_num [Bipolar, real_lit]

/-- The part of the distance that `slew` covers in a tick. -/
theorem unipolar_coeff {timeS r : ℝ} (htime : 0 < timeS) (hr : 0 < r) :
    Unipolar (Slew.coeff timeS r) := by
  have hexp : Unipolar (CMath.exp (lit (-22 / 10) / (timeS * r))) := by
    refine unipolar_exp (div_nonpos_of_nonpos_of_nonneg ?_ (mul_nonneg htime.le hr.le))
    norm_num [real_lit]
  rw [Slew.coeff, real_lit_one]
  exact ⟨by linarith [hexp.2], by linarith [hexp.1]⟩

theorem SlewRanged.started {s : Slew ℝ} (h : SlewRanged s) : SlewRanged s.started := by
  unfold Slew.started
  dsimp only
  split_ifs
  · exact { h with current := bipolar_neg_one }
  · exact { h with current := bipolar_neg_one }
  · exact { h with }
  · exact h

theorem SlewRanged.advance {s : Slew ℝ} (h : SlewRanged s) {r : ℝ} (hr : 0 < r) :
    SlewRanged (s.advance r).1 := by
  unfold Slew.advance
  split
  · refine { h with current := h.current.approach h.input (unipolar_coeff ?_ hr) }
    split_ifs
    · exact h.rise
    · exact h.fall
  · dsimp only
    split_ifs
    · exact { h with current := bipolar_one }
    · exact { h with current := h.current.approach bipolar_one (unipolar_coeff h.rise hr) }
  · dsimp only
    split_ifs
    · exact { h with current := bipolar_neg_one }
    · exact { h with current := h.current.approach bipolar_neg_one (unipolar_coeff h.fall hr) }

theorem SlewRanged.tick {s : Slew ℝ} (h : SlewRanged s) (r : ℝ) :
    SlewRanged (s.tick r).2 ∧ Bipolar (s.tick r).1.cv := by
  rw [Slew.tick]
  split_ifs with hle
  · exact ⟨h, h.current.mul h.depth⟩
  · have hpos : 0 < r := not_le.mp (real_le_zero.not.mp hle)
    have hadv := h.started.advance hpos
    exact ⟨hadv, hadv.current.mul hadv.depth⟩

/-- The converter reads as many bits as its scale has. -/
theorem bipolar_dacOutput (s : ShiftRegister ℝ) : Bipolar s.dacOutput := by
  rw [ShiftRegister.dacOutput]
  refine Unipolar.spread (unipolar_div ?_ ?_)
  · show (0 : ℝ) ≤ ((_ : Nat) : Int)
    exact Int.cast_nonneg (Int.natCast_nonneg _)
  · show (((_ : Nat) : Int) : ℝ) ≤ (((_ : Nat) : Int) : ℝ)
    refine Int.cast_le.mpr (Int.ofNat_le.mpr ?_)
    rw [BitVec.toNat_and]
    exact Nat.and_le_right

theorem unipolar_depth_update {s : ShiftRegister ℝ} (h : Unipolar s.depth) (key : String) (x : ℝ) :
    Unipolar (s.update key x).depth := by
  unfold ShiftRegister.update
  split
  · exact h
  · exact h
  · exact h
  · exact unipolar_clamp x
  · exact h

theorem shiftRegister_tick_range {s : ShiftRegister ℝ} (h : Unipolar s.depth) (r : ℝ) :
    Unipolar (s.tick r).2.depth ∧ Bipolar (s.tick r).1.cv := by
  rw [ShiftRegister.tick]
  split_ifs
  · exact ⟨h, (bipolar_dacOutput s).mul h⟩
  · dsimp only
    split_ifs
    · exact ⟨h, (bipolar_dacOutput _).mul h⟩
    · exact ⟨h, (bipolar_dacOutput _).mul h⟩

end Generators

/-! ## `fractal` and `stochastic` -/

section Noise

/-- The parameters, the octaves and the last output of `fractal`. -/
structure FractalRanged (s : Fractal ℝ) : Prop where
  baseRate : 0 < s.baseRate
  lacunarity : 0 < s.lacunarity
  persistence : 0 < s.persistence
  depth : Unipolar s.depth
  phase : ∀ x ∈ s.phase, Unipolar x
  held : ∀ x ∈ s.held, Bipolar x
  prevOutput : Bipolar s.prevOutput

theorem FractalRanged.update {s : Fractal ℝ} (h : FractalRanged s) (key : String) (x : ℝ) :
    FractalRanged (s.update key x) := by
  unfold Fractal.update
  split
  · exact { h with baseRate := clamp_pos x (by norm_num) (by norm_num) }
  · exact { h with }
  · exact { h with lacunarity := clamp_pos x (by norm_num) (by norm_num) }
  · exact { h with persistence := clamp_pos x (by norm_num) (by norm_num) }
  · exact { h with }
  · exact { h with }
  · exact { h with depth := unipolar_clamp x }
  · exact h

theorem FractalRanged.resample {s : Fractal ℝ} (h : FractalRanged s) (i : Nat) :
    FractalRanged (s.resample i) :=
  { h with held := forall_set h.held (unipolar_nextRand _).spread i }

theorem fractalRanged_make : FractalRanged Fractal.make := by
  have hfold : ∀ (is : List Nat) (s : Fractal ℝ), FractalRanged s →
      FractalRanged (is.foldl (fun s i => s.resample i) s) := by
    intro is
    induction is with
    | nil => exact fun s h => h
    | cons i is ih => exact fun s h => ih _ (h.resample i)
  refine hfold _ _ ⟨?_, ?_, ?_, unipolar_one, ?_, ?_, bipolar_zero⟩
  · norm_num [real_lit]
  · norm_num [real_lit]
  · norm_num [real_lit]
  · intro x hx
    obtain ⟨i, hi, rfl⟩ := List.mem_map.mp hx
    simp only [List.bind_eq_flatMap, List.pure_def, List.mem_flatMap, List.mem_singleton] at hi
    obtain ⟨k, -, rfl⟩ := hi
    have harg : (0 : ℝ) ≤ CFloat.ofInt (k : Int) * kPhi := by
      refine mul_nonneg (Int.cast_nonneg (Int.natCast_nonneg k)) ?_
      norm_num [kPhi, real_lit]
    rw [real_lit_one]
    obtain ⟨hlow, hhigh⟩ := fmod_mem harg one_pos
    exact ⟨hlow, hhigh.le⟩
  · intro x hx
    rw [List.eq_of_mem_replicate hx]
    exact bipolar_zero

/-- A sample of an octave. -/
theorem FractalRanged.sample {s : Fractal ℝ} (h : FractalRanged s) (i : Nat) :
    Bipolar (s.sample i) := by
  obtain ⟨hlow, hhigh⟩ := getD_of_forall h.phase unipolar_zero i
  rw [Fractal.sample]
  split_ifs
  · generalize s.phase.getD i (lit 0) = phase at *
    have habs : |phase - 1 / 2| ≤ 1 / 2 := by
      rw [abs_le]
      constructor <;> linarith
    have habs0 := abs_nonneg (phase - 1 / 2)
    show -1 ≤ lit 1 - lit 4 * |phase - lit (1 / 2)| ∧ lit 1 - lit 4 * |phase - lit (1 / 2)| ≤ 1
    norm_num [real_lit]
    linarith
  · exact getD_of_forall h.held bipolar_zero i
  · exact ⟨Real.neg_one_le_sin _, Real.sin_le_one _⟩

/-- The loop over the octaves keeps the sum below the sum of the amplitudes. -/
theorem FractalRanged.octaveLoop {rate : ℝ} (hrate : 0 < rate) (left : Nat) :
    ∀ (i : Nat) (sum norm freq amp : ℝ) (s : Fractal ℝ), FractalRanged s → 0 < freq → 0 < amp →
      0 ≤ norm → |sum| ≤ norm →
      FractalRanged (s.octaveLoop rate left i sum norm freq amp).1 ∧
        |(s.octaveLoop rate left i sum norm freq amp).2.1| ≤
          (s.octaveLoop rate left i sum norm freq amp).2.2 := by
  induction left with
  | zero => exact fun i sum norm freq amp s h _ _ _ hsum => ⟨h, hsum⟩
  | succ left ih =>
      intro i sum norm freq amp s h hfreq hamp hnorm hsum
      rw [Fractal.octaveLoop]
      have hphase := getD_of_forall h.phase unipolar_zero i
      have hinc : 0 < freq / rate := div_pos hfreq hrate
      have hwrap : Unipolar (fmod (s.phase.getD i (lit 0) + freq / rate) (lit 1)) := by
        rw [real_lit_one]
        obtain ⟨hlow, hhigh⟩ := fmod_mem (add_nonneg hphase.1 hinc.le) one_pos
        exact ⟨hlow, hhigh.le⟩
      -- the modulator after the sample and hold and the new phase
      generalize hnext : ({ (if s.shape = 2 ∧ le (lit 1) (s.phase.getD i (lit 0) + freq / rate)
          then s.resample i else s) with
        phase := (if s.shape = 2 ∧ le (lit 1) (s.phase.getD i (lit 0) + freq / rate)
          then s.resample i else s).phase.set i
            (fmod (s.phase.getD i (lit 0) + freq / rate) (lit 1)) } : Fractal ℝ) = next
      have hranged : FractalRanged next := by
        rw [← hnext]
        split_ifs
        · exact { h.resample i with phase := forall_set h.phase hwrap i }
        · exact { h with phase := forall_set h.phase hwrap i }
      have hsample := hranged.sample i
      refine ih (i + 1) _ _ _ _ next hranged (mul_pos hfreq hranged.lacunarity)
        (mul_pos hamp hranged.persistence) (by linarith) ?_
      have hterm : |amp * next.sample i| ≤ amp := by
        rw [abs_mul, abs_of_pos hamp]
        exact mul_le_of_le_one_right hamp.le (abs_le.mpr hsample)
      exact (abs_add_le _ _).trans (add_le_add hsum hterm)

theorem FractalRanged.tick {s : Fractal ℝ} (h : FractalRanged s) (r : ℝ) :
    FractalRanged (s.tick r).2 ∧ Bipolar (s.tick r).1.cv := by
  rw [Fractal.tick]
  split_ifs with hle
  · exact ⟨h, h.prevOutput.mul h.depth⟩
  · have hpos : 0 < r := not_le.mp (real_le_zero.not.mp hle)
    have hamp : (0 : ℝ) < lit 1 := by norm_num [real_lit]
    have hzero : |(lit 0 : ℝ)| ≤ lit 0 := by rw [real_lit_zero, abs_zero]
    obtain ⟨hranged, hsum⟩ := FractalRanged.octaveLoop hpos s.octaves 0 (lit 0) (lit 0) s.baseRate
      (lit 1) s h h.baseRate hamp (abs_nonneg _ |>.trans hzero) hzero
    generalize s.octaveLoop r s.octaves 0 (lit 0) (lit 0) s.baseRate (lit 1) = out at hranged hsum
    obtain ⟨next, sum, norm⟩ := out
    have houtput : Bipolar (if lt (lit 0) norm then sum / norm else lit 0) := by
      split_ifs with hn
      · rw [real_lt, real_lit_zero] at hn
        obtain ⟨hlow, hhigh⟩ := abs_le.mp hsum
        constructor
        · rw [le_div_iff₀ hn]
          linarith
        · rw [div_le_one hn]
          exact hhigh
      · exact bipolar_zero
    exact ⟨{ hranged with prevOutput := houtput }, (bipolar_clamp _).mul hranged.depth⟩

/-- The loop of values and the depth of `stochastic`. -/
structure StochasticRanged (s : Stochastic ℝ) : Prop where
  depth : Unipolar s.depth
  cvOut : Bipolar s.cvOut
  cvBuf : ∀ x ∈ s.cvBuf, Bipolar x

theorem StochasticRanged.update {s : Stochastic ℝ} (h : StochasticRanged s) (key : String) (x : ℝ) :
    StochasticRanged (s.update key x) := by
  unfold Stochastic.update
  split
  case h_6 => exact { h with depth := unipolar_clamp x }
  all_goals exact { h with }

theorem bipolar_seedBuffers (n : Nat) (randState : BitVec 32) :
    ∀ x ∈ (Stochastic.seedBuffers (F := ℝ) n randState).1, Bipolar x := by
  induction n generalizing randState with
  | zero => exact fun x hx => absurd hx List.not_mem_nil
  | succ n ih =>
      intro x hx
      rcases List.mem_cons.mp hx with rfl | hx
      · exact (unipolar_nextRand _).spread
      · exact ih _ x hx

theorem stochasticRanged_make : StochasticRanged Stochastic.make :=
  ⟨unipolar_one, bipolar_zero, bipolar_seedBuffers kMaxLength 0xACE1⟩

/-- Rounding to one of `n` steps stays in the unit interval. -/
theorem unipolar_quantised {x : ℝ} (hx : Unipolar x) {n : Nat} (hn : 0 < n) :
    Unipolar (CMath.round (x * CFloat.ofInt (n : Int)) / CFloat.ofInt (n : Int)) := by
  have hpos : (0 : ℝ) < n := Nat.cast_pos.mpr hn
  have hscaled : 0 ≤ x * (n : ℝ) ∧ x * (n : ℝ) ≤ n :=
    ⟨mul_nonneg hx.1 hpos.le, mul_le_of_le_one_left hpos.le hx.2⟩
  have hround : (CMath.round (x * CFloat.ofInt (n : Int)) : ℝ) = ⌊x * (n : ℝ) + (1 / 2 : ℚ)⌋ := by
    show (if 0 ≤ x * ((n : Int) : ℝ) then ((⌊x * ((n : Int) : ℝ) + (1 / 2 : ℚ)⌋ : Int) : ℝ)
      else _) = _
    rw [Int.cast_natCast, if_pos hscaled.1]
  rw [hround]
  show Unipolar (_ / ((n : Int) : ℝ))
  rw [Int.cast_natCast]
  refine unipolar_div (Int.cast_nonneg (Int.floor_nonneg.mpr ?_)) ?_
  · push_cast
    linarith [hscaled.1]
  · have hlt : ⌊x * (n : ℝ) + (1 / 2 : ℚ)⌋ < (n : Int) + 1 := by
      rw [Int.floor_lt]
      push_cast
      linarith [hscaled.2]
    exact_mod_cast Int.lt_add_one_iff.mp hlt

theorem bipolar_generateCv (s : Stochastic ℝ) : Bipolar s.generateCv.1 := by
  unfold Stochastic.generateCv
  refine Unipolar.spread ?_
  split_ifs with hsteps
  · exact unipolar_quantised (unipolar_clamp _) hsteps
  · exact unipolar_clamp _

/-- What an event shows is what stands in the loop at the read position. -/
theorem event_cvOut (s : Stochastic ℝ) :
    s.event.2.cvOut = s.event.2.cvBuf.getD s.readPos (lit 0) := by
  obtain ⟨ρ, hwritten⟩ := Stochastic.written_eq s
  rw [Stochastic.event_eq, hwritten]
  cases s.replays <;> cases s.freezes <;> rfl

theorem StochasticRanged.event {s : Stochastic ℝ} (h : StochasticRanged s) :
    StochasticRanged s.event.2 ∧ Bipolar s.event.1.cv := by
  have hspec := Stochastic.event_spec s
  have hbuf : ∀ x ∈ s.event.2.cvBuf, Bipolar x := by
    rw [hspec.cvBuf]
    split_ifs
    · exact h.cvBuf
    · exact forall_set h.cvBuf (bipolar_generateCv _) _
  have hout := getD_of_forall hbuf bipolar_zero s.readPos
  refine ⟨⟨?_, ?_, hbuf⟩, ?_⟩
  · rw [hspec.params.2.1]
    exact h.depth
  · rw [event_cvOut]
    exact hout
  · rw [hspec.cv]
    exact hout.mul h.depth

theorem StochasticRanged.tick {s : Stochastic ℝ} (h : StochasticRanged s) (r : ℝ) :
    StochasticRanged (s.tick r).2 ∧ Bipolar (s.tick r).1.cv := by
  rw [Stochastic.tick]
  split_ifs
  · exact ⟨h, h.cvOut.mul h.depth⟩
  · dsimp only
    have hnext : StochasticRanged { s with clockPhase := s.clockPhase + s.rate / r } := { h with }
    split_ifs
    · exact ⟨hnext, h.cvOut.mul h.depth⟩
    · exact hnext.event

end Noise

/-! ## The listeners -/

section Listeners

variable (view : OutputView ℝ)

/-- The span that `cv_channel_decoder` hears is one. -/
def HearsSpan (s : ChannelDecoder ℝ) : Prop :=
  ∀ out, readSource view s.sourceId = some out →
    match s.sourceField with
    | .cv => Bipolar out.cv
    | .aux => Bipolar out.aux
    | .gate => True

theorem bipolar_readSpan {s : ChannelDecoder ℝ} (hspan : Bipolar s.span) (h : HearsSpan view s) :
    Bipolar (s.readSpan view) := by
  unfold ChannelDecoder.readSpan
  cases hsrc : readSource view s.sourceId with
  | none => exact hspan
  | some out =>
      have hout := h out hsrc
      cases hfield : s.sourceField with
      | cv =>
          rw [hfield] at hout
          exact hout
      | aux =>
          rw [hfield] at hout
          exact hout
      | gate =>
          dsimp only
          split_ifs
          · exact bipolar_one
          · exact bipolar_neg_one

theorem bipolar_span_update {s : ChannelDecoder ℝ} (h : Bipolar s.span) (key : String) (x : ℝ) :
    Bipolar (s.update key x).span := by
  unfold ChannelDecoder.update
  split
  · exact bipolar_clamp x
  · exact h
  · exact h
  · split_ifs
    · exact h
    · exact h
  · exact h

theorem channelDecoder_tick_span (s : ChannelDecoder ℝ) (r : ℝ) :
    (s.tick view r).2.span = s.span := by
  have hlatch : ∀ (s : ChannelDecoder ℝ) bitmap, (s.latch bitmap).2.span = s.span := by
    intro s bitmap
    unfold ChannelDecoder.latch
    dsimp only
    split_ifs <;> rfl
  exact hlatch _ _

theorem channelDecoder_tick_range (s : ChannelDecoder ℝ) (r : ℝ) :
    Unipolar (s.tick view r).1.cv := by
  show Unipolar (if !s.firstTick && lt (lit 0) r then CFloat.min (lit 1) _ else lit 0)
  split_ifs with h
  · simp only [Bool.and_eq_true, real_lt, real_lit_zero] at h
    have hspeed : 0 ≤ CFloat.abs (s.readSpan view - s.prevSpan) * r * lit (1 / 2) := by
      refine mul_nonneg (mul_nonneg (abs_nonneg _) h.2.le) ?_
      norm_num [real_lit]
    rw [CFloat.min]
    split_ifs with hlt
    · rw [real_lt, real_lit_one] at hlt
      exact ⟨hspeed, hlt.le⟩
    · exact unipolar_one
  · exact unipolar_zero

/-- The gains and the glide of `divine-cmos`. -/
structure DivineRanged (s : DivineCmos ℝ) : Prop where
  gains : ∀ g ∈ s.gains, 0 ≤ g
  slewState : Unipolar s.slewState

theorem DivineRanged.update {s : DivineCmos ℝ} (h : DivineRanged s) (key : String) (x : ℝ) :
    DivineRanged (s.update key x) := by
  have hgain : 0 ≤ clamp x (lit 0) (lit 5) := by
    exact_mod_cast (clamp_mem x (by norm_num : (0 : ℚ) ≤ 5)).1
  unfold DivineCmos.update
  split
  · exact { h with gains := forall_set h.gains hgain 0 }
  · exact { h with gains := forall_set h.gains hgain 1 }
  · exact { h with gains := forall_set h.gains hgain 2 }
  · exact { h with gains := forall_set h.gains hgain 3 }
  · exact { h with }
  · split_ifs
    · exact { h with }
    · exact h
  · split_ifs
    · exact { h with }
    · exact h
  · exact h

theorem DivineRanged.tick {s : DivineCmos ℝ} (h : DivineRanged s) (r : ℝ) :
    DivineRanged (s.tick view r).2 ∧ Unipolar (s.tick view r).1.cv ∧
      Unipolar (s.tick view r).1.aux := by
  have hmain : ∀ bit, Unipolar (if lt (lit 0) (s.gains.foldl (· + ·) (lit 0)) then
      weightedSum s.gains bit / s.gains.foldl (· + ·) (lit 0) else lit 0) := by
    intro bit
    obtain ⟨hlow, hhigh⟩ := weightedSum_mem h.gains bit
    split_ifs
    · exact unipolar_div hlow hhigh
    · exact unipolar_zero
  have hslew : Unipolar (s.tick view r).1.aux := unipolar_glide s.slew r h.slewState (hmain _)
  exact ⟨{ h with slewState := hslew }, hmain _, hslew⟩

/-- The input that `statues` hears, if it has a source. -/
def HearsInput (s : Statues ℝ) : Prop :=
  ∀ out, readSource view s.inSourceId = some out → Bipolar out.cv

/-- The slots of `statues`; they hold what it has heard. -/
structure StatuesRanged (heard : Prop) (s : Statues ℝ) : Prop where
  inVal : Bipolar s.inVal
  slots : heard → ∀ x ∈ s.slots, Bipolar x

theorem StatuesRanged.update {heard : Prop} {s : Statues ℝ} (h : StatuesRanged heard s)
    (key : String) (x : ℝ) : StatuesRanged heard (s.update key x) := by
  unfold Statues.update
  dsimp only
  split
  · exact { h with inVal := bipolar_clamp x }
  all_goals exact { h with }

theorem StatuesRanged.tick {heard : Prop} {s : Statues ℝ} (h : StatuesRanged heard s)
    (hview : heard → HearsInput view s) :
    StatuesRanged heard (s.tick view).2 ∧ (heard → Bipolar (s.tick view).1.cv ∧
      Bipolar (s.tick view).1.aux ∧ ∀ x ∈ (s.tick view).1.outputs, Bipolar x) := by
  have hin (hheard : heard) : Bipolar (readCvSrc view s.inSourceId s.inVal) := by
    rw [readCvSrc]
    cases hsrc : readSource view s.inSourceId with
    | none => exact h.inVal
    | some out => exact hview hheard out hsrc
  have hslots (hheard : heard) : ∀ x ∈ s.slots.set (s.resolveAddr view).toNat
      (readCvSrc view s.inSourceId s.inVal), Bipolar x :=
    forall_set (h.slots hheard) (hin hheard) _
  refine ⟨{ h with slots := hslots }, fun hheard => ⟨?_, hin hheard, ?_⟩⟩
  · exact getD_of_forall (hslots hheard) bipolar_zero _
  · exact forall_outputsOf bipolar_zero (hslots hheard)

theorem unipolar_projectCv (s : Cipher ℝ) (bits : List Nat) : Unipolar (s.projectCv bits) := by
  have hweights : ∀ w ∈ (Cipher.kWeights : List ℝ), 0 ≤ w := by
    intro w hw
    fin_cases hw <;> norm_num [real_lit]
  obtain ⟨hlow, hhigh⟩ := weightedSum_mem hweights fun w => s.outputReg.getLsbD (bits.getD w 0)
  refine unipolar_div hlow (hhigh.trans (le_of_eq ?_))
  norm_num [Cipher.kWeights, Cipher.kWeightSum, real_lit]

theorem cipher_tick_range (s : Cipher ℝ) : Unipolar (s.tick view).1.cv ∧
    Unipolar (s.tick view).1.aux ∧ ∀ x ∈ (s.tick view).1.outputs, Unipolar x := by
  refine ⟨unipolar_projectCv _ _, unipolar_projectCv _ _, forall_outputsOf unipolar_zero ?_⟩
  intro x hx
  obtain ⟨bits, -, rfl⟩ := List.mem_map.mp hx
  exact unipolar_projectCv _ _

theorem boolsRing_update_slewState (s : BoolsRing ℝ) (key : String) (x : ℝ) :
    (s.update key x).slewState = s.slewState := by
  unfold BoolsRing.update
  split
  case h_7 => split_ifs <;> rfl
  all_goals rfl

theorem boolsRing_tick_range {s : BoolsRing ℝ} (h : Unipolar s.slewState) (r : ℝ) :
    Unipolar (s.tick view r).2.slewState ∧ Unipolar (s.tick view r).1.cv ∧
      Unipolar (s.tick view r).1.aux := by
  have hweights : ∀ w ∈ (BoolsRing.kStepWeights : List ℝ), 0 ≤ w := by
    intro w hw
    fin_cases hw <;> norm_num [real_lit]
  have hstep : ∀ bit, Unipolar (weightedSum BoolsRing.kStepWeights bit / BoolsRing.kStepMax) := by
    intro bit
    obtain ⟨hlow, hhigh⟩ := weightedSum_mem hweights bit
    refine unipolar_div hlow (hhigh.trans (le_of_eq ?_))
    norm_num [BoolsRing.kStepWeights, BoolsRing.kStepMax, real_lit]
  have hlatch : (s.latch view (s.ring view)).2.slewState = s.slewState := by
    unfold BoolsRing.latch
    dsimp only
    split_ifs <;> rfl
  have hslew := unipolar_glide (s.latch view (s.ring view)).2.slew r (hlatch ▸ h)
    (hstep (s.latch view (s.ring view)).1.getLsbD)
  exact ⟨hslew, hstep _, hslew⟩

end Listeners

/-! ## The circuits -/

section Circuits

variable (view : OutputView ℝ)

/-- All of an output's values. -/
def AllUnipolar (out : ModulatorOutput ℝ) : Prop :=
  Unipolar out.cv ∧ Unipolar out.aux ∧ ∀ x ∈ out.outputs, Unipolar x

theorem allUnipolar_singleOutput (s : SlothState ℝ) : AllUnipolar (SlothChaos.singleOutput s) := by
  refine ⟨unipolar_clamp _, unipolar_clamp _, forall_outputsOf unipolar_zero ?_⟩
  intro x hx
  simp only [List.mem_cons, List.not_mem_nil, or_false] at hx
  rcases hx with rfl | rfl | rfl | rfl
  · exact unipolar_clamp _
  · exact unipolar_clamp _
  · exact unipolar_clamp _
  · split_ifs
    · exact unipolar_one
    · exact unipolar_zero

theorem allUnipolar_tripleOutput (states : List (SlothState ℝ)) :
    AllUnipolar (SlothChaos.tripleOutput states) := by
  refine ⟨unipolar_clamp _, unipolar_clamp _, forall_outputsOf unipolar_zero ?_⟩
  intro x hx
  rcases List.mem_append.mp hx with hx | hx
  · obtain ⟨s, -, hx⟩ := List.mem_flatMap.mp hx
    simp only [List.mem_cons, List.not_mem_nil, or_false] at hx
    rcases hx with rfl | rfl <;> exact unipolar_clamp _
  · rw [List.mem_singleton.mp hx]
    exact unipolar_clamp _

theorem slothChaos_tick_range (s : SlothChaos ℝ) (r : ℝ) : AllUnipolar (s.tick view r).1 := by
  rw [SlothChaos.tick]
  dsimp only
  split_ifs
  · exact allUnipolar_tripleOutput _
  · exact allUnipolar_singleOutput _

theorem squidAxon_update_stages (s : SquidAxon ℝ) (key : String) (x : ℝ) :
    (s.update key x).stages = s.stages := by
  unfold SquidAxon.update
  split
  case h_7 => split_ifs <;> rfl
  all_goals rfl

/-- The stages of `squid-axon` hold clamped mixes. -/
theorem squidAxon_tick_range {s : SquidAxon ℝ} (h : ∀ x ∈ s.stages, Unipolar x) :
    (∀ x ∈ (s.tick view).2.stages, Unipolar x) ∧ AllUnipolar (s.tick view).1 := by
  have hstages : ∀ x ∈ (s.tick view).2.stages, Unipolar x := by
    rw [SquidAxon.tick]
    dsimp only
    split_ifs
    · intro x hx
      rcases List.mem_cons.mp (List.mem_of_mem_take hx) with rfl | hx
      · exact unipolar_clamp _
      · exact h x hx
    · exact h
  exact ⟨hstages, getD_of_forall hstages unipolar_zero 0, getD_of_forall hstages unipolar_zero 3,
    forall_outputsOf unipolar_zero hstages⟩

theorem unipolar_neuronNorm (s : Genie ℝ) (raw : ℝ) (i : Nat) : Unipolar (s.neuronNorm raw i) := by
  unfold Genie.neuronNorm
  dsimp only
  split_ifs
  · norm_num [Unipolar, real_lit]
  · exact unipolar_clamp _

theorem genie_tick_range (s : Genie ℝ) : AllUnipolar (s.tick view).1 := by
  refine ⟨unipolar_neuronNorm _ _ _, unipolar_clamp _, forall_outputsOf unipolar_zero ?_⟩
  intro x hx
  obtain ⟨i, -, rfl⟩ := List.mem_map.mp hx
  exact unipolar_neuronNorm _ _ _

theorem partition_nonneg (ins : List ℝ) (m : Nat) : 0 ≤ LetsSplosh.partition ins m := by
  rw [LetsSplosh.partition, CFloat.max]
  split_ifs with h
  · rw [real_lt, real_lit_zero] at h
    exact h.le
  · exact unipolar_zero.1

end Circuits

end NomosRt.Modulator
