/-
  NomosRt.Modulator.RangesRun

  The documented ranges of the built-in modulators' outputs over whole runs.

  The headers of the modulators give a range for the values of an output.  In exact
  arithmetic a modulator that a message has started keeps it, whatever messages and
  ticks follow and whatever the modulators it is patched to put out.  `slope` needs a
  tick rate that is not below the highest rate it can be set to, and has a range for
  each of its two modes.  `cv_channel_decoder` and `statues` pass on what they hear,
  which then has to lie in the range itself.  The header of `graph` gives none.
-/

import NomosRt.Modulator.Ranges

namespace NomosRt.Modulator

open NomosRt.Lib CFloat CMath

attribute [local instance] realMath

/-! ## The ranges -/

/-- What the type's header says of the values of an output; `heard` stands for the same of the
    values that the modulator passes on. -/
def DocumentedRange (heard : Prop) (out : ModulatorOutput ℝ) : BuiltinModulator ℝ → Prop
  | .slope s => OfPolarity s.bipolar out.cv
  | .slew _ | .shiftRegister _ | .fractal _ | .stochastic _ => Bipolar out.cv
  | .segment _ => Unipolar out.cv
  | .channelDecoder _ => Unipolar out.cv ∧ (heard → Bipolar out.aux)
  | .divineCmos _ | .boolsRing _ => Unipolar out.cv ∧ Unipolar out.aux
  | .cipher _ | .slothChaos _ | .squidAxon _ | .genie _ => AllUnipolar out
  | .letsSplosh _ => 0 ≤ out.cv ∧ 0 ≤ out.aux ∧ ∀ x ∈ out.outputs, 0 ≤ x
  | .statues _ => heard → Bipolar out.cv ∧ Bipolar out.aux ∧ ∀ x ∈ out.outputs, Bipolar x
  -- its header gives no range
  | .graph _ => True

/-- What a modulator passes on lies in `-1 … 1`. -/
def HearsRange (view : OutputView ℝ) : BuiltinModulator ℝ → Prop
  | .channelDecoder s => HearsSpan view s
  | .statues s => HearsInput view s
  | _ => True

/-- The invariant of each type. -/
def Ranged (heard : Prop) : BuiltinModulator ℝ → Prop
  | .slope s => SlopeRanged s
  | .segment s => SegmentRanged s
  | .slew s => SlewRanged s
  | .shiftRegister s => Unipolar s.depth
  | .fractal s => FractalRanged s
  | .stochastic s => StochasticRanged s
  | .channelDecoder s => Bipolar s.span
  | .divineCmos s => DivineRanged s
  | .statues s => StatuesRanged heard s
  | .boolsRing s => Unipolar s.slewState
  | .squidAxon s => ∀ x ∈ s.stages, Unipolar x
  | .graph _ | .cipher _ | .slothChaos _ | .genie _ | .letsSplosh _ => True

/-- A `slope`. -/
def BuiltinModulator.isSlope {F : Type*} : BuiltinModulator F → Bool
  | .slope _ => true
  | _ => false

/-! ## Steps -/

section Steps

variable {D : Type*} [CNarrow D ℝ] (view : OutputView ℝ) (beat : D)

theorem ranged_update {heard : Prop} {mod : BuiltinModulator ℝ} (h : Ranged heard mod)
    (key : String) (x : ℝ) : Ranged heard (mod.update key x) := by
  cases mod with
  | slope s => exact SlopeRanged.update h key x
  | segment s => exact SegmentRanged.update h key x
  | slew s => exact SlewRanged.update h key x
  | shiftRegister s => exact unipolar_depth_update h key x
  | fractal s => exact FractalRanged.update h key x
  | stochastic s => exact StochasticRanged.update h key x
  | channelDecoder s => exact bipolar_span_update h key x
  | divineCmos s => exact DivineRanged.update h key x
  | statues s => exact StatuesRanged.update h key x
  | boolsRing s =>
      show Unipolar (s.update key x).slewState
      rw [boolsRing_update_slewState]
      exact h
  | squidAxon s =>
      show ∀ y ∈ (s.update key x).stages, Unipolar y
      rw [squidAxon_update_stages]
      exact h
  | graph s | cipher s | slothChaos s | genie s | letsSplosh s => trivial

/-- A tick keeps the invariant and shows an output in the range. -/
theorem ranged_tick {heard : Prop} {mod : BuiltinModulator ℝ} (h : Ranged heard mod) {r : ℝ}
    (hr : mod.isSlope = true → FastTick r) (hview : heard → HearsRange view mod) :
    Ranged heard (mod.tick view beat r).2 ∧ DocumentedRange heard (mod.tick view beat r).1 mod := by
  cases mod with
  | slope s => exact SlopeRanged.tick h (hr rfl)
  | segment s => exact SegmentRanged.tick h r
  | slew s => exact SlewRanged.tick h r
  | shiftRegister s => exact shiftRegister_tick_range h r
  | fractal s => exact FractalRanged.tick h r
  | stochastic s => exact StochasticRanged.tick h r
  | graph s => exact ⟨trivial, trivial⟩
  | channelDecoder s =>
      refine ⟨?_, channelDecoder_tick_range view s r, fun hheard => ?_⟩
      · show Bipolar (s.tick view r).2.span
        rw [channelDecoder_tick_span]
        exact h
      · exact bipolar_readSpan view h (hview hheard)
  | divineCmos s => exact DivineRanged.tick view h r
  | statues s => exact StatuesRanged.tick view h hview
  | cipher s => exact ⟨trivial, cipher_tick_range view s⟩
  | boolsRing s => exact boolsRing_tick_range view h r
  | slothChaos s => exact ⟨trivial, slothChaos_tick_range view s r⟩
  | squidAxon s => exact squidAxon_tick_range view h
  | genie s => exact ⟨trivial, genie_tick_range view s⟩
  | letsSplosh s =>
      refine ⟨trivial, partition_nonneg _ _, partition_nonneg _ _, ?_⟩
      intro x hx
      obtain ⟨m, -, rfl⟩ := List.mem_map.mp hx
      exact partition_nonneg _ _

theorem statues_update_source (s : Statues ℝ) (key : String) (x : ℝ) :
    (s.update key x).inSourceId = s.inSourceId := by
  unfold Statues.update
  dsimp only
  split <;> rfl

theorem channelDecoder_update_source (s : ChannelDecoder ℝ) (key : String) (x : ℝ) :
    (s.update key x).sourceId = s.sourceId ∧ (s.update key x).sourceField = s.sourceField := by
  unfold ChannelDecoder.update
  split
  case h_4 => split_ifs <;> exact ⟨rfl, rfl⟩
  all_goals exact ⟨rfl, rfl⟩

theorem channelDecoder_tick_source (s : ChannelDecoder ℝ) (r : ℝ) :
    (s.tick view r).2.sourceId = s.sourceId ∧ (s.tick view r).2.sourceField = s.sourceField := by
  have hlatch : ∀ (s : ChannelDecoder ℝ) bitmap, (s.latch bitmap).2.sourceId = s.sourceId ∧
      (s.latch bitmap).2.sourceField = s.sourceField := by
    intro s bitmap
    unfold ChannelDecoder.latch
    dsimp only
    split_ifs <;> exact ⟨rfl, rfl⟩
  exact hlatch _ _

/-- The type and the sources stay those of the modulator that was started. -/
theorem source_update (mod : BuiltinModulator ℝ) (key : String) (x : ℝ) :
    (mod.update key x).isSlope = mod.isSlope ∧
      (HearsRange view (mod.update key x) ↔ HearsRange view mod) := by
  cases mod with
  | statues s =>
      refine ⟨rfl, ?_⟩
      show HearsInput view (s.update key x) ↔ HearsInput view s
      rw [HearsInput, statues_update_source]
      rfl
  | channelDecoder s =>
      obtain ⟨hid, hfield⟩ := channelDecoder_update_source s key x
      refine ⟨rfl, ?_⟩
      show HearsSpan view (s.update key x) ↔ HearsSpan view s
      rw [HearsSpan, hid, hfield]
      rfl
  | _ => exact ⟨rfl, Iff.rfl⟩

theorem source_tick (mod : BuiltinModulator ℝ) (r : ℝ) (view' : OutputView ℝ) :
    (mod.tick view beat r).2.isSlope = mod.isSlope ∧
      (HearsRange view' (mod.tick view beat r).2 ↔ HearsRange view' mod) := by
  cases mod with
  | channelDecoder s =>
      obtain ⟨hid, hfield⟩ := channelDecoder_tick_source view s r
      refine ⟨rfl, ?_⟩
      show HearsSpan view' (s.tick view r).2 ↔ HearsSpan view' s
      rw [HearsSpan, hid, hfield]
      rfl
  | _ => exact ⟨rfl, Iff.rfl⟩

end Steps

/-! ## The start -/

section Build

variable {D : Type*} [CNarrow D ℝ]

/-- What `update` keeps, a series of parameters keeps. -/
theorem applied_induction {M : Type*} {P : M → Prop} {update : String → ℝ → M → M}
    (hupdate : ∀ key x mod, P mod → P (update key x mod)) (params : List (String × String × ℚ))
    (m : Entries D) {mod : M} (h : P mod) : P (applied update params m mod) := by
  unfold applied
  induction params generalizing mod with
  | nil => exact h
  | cons p params ih => exact ih (hupdate _ _ _ h)

theorem divineRanged_build (m : Entries D) : DivineRanged (buildDivineCmos m : DivineCmos ℝ) := by
  have hmake : ∀ src1 src2, DivineRanged (DivineCmos.make src1 src2 : DivineCmos ℝ) := by
    intro src1 src2
    refine ⟨fun g hg => ?_, unipolar_zero⟩
    rw [List.eq_of_mem_replicate hg]
    exact unipolar_one.1
  have hfold : ∀ (gs : List (ℝ × Nat)) (mod : DivineCmos ℝ), DivineRanged mod →
      DivineRanged (gs.foldl (fun mod g => mod.update (indexedKey "gain" g.2) g.1) mod) := by
    intro gs
    induction gs with
    | nil => exact fun mod h => h
    | cons g gs ih => exact fun mod h => ih _ (h.update _ _)
  unfold buildDivineCmos
  refine applied_induction (fun key x mod h => h.update key x) _ m ?_
  split
  · exact hfold _ _ (hmake _ _)
  · exact hmake _ _

theorem unipolar_stages_build (m : Entries D) :
    ∀ x ∈ (buildSquidAxon m : SquidAxon ℝ).stages, Unipolar x := by
  have hmake : ∀ x ∈ (SquidAxon.make (getSrc "clock" m) (getSrc "in1" m) (getSrc "in2" m)
      (getSrc "in3" m) : SquidAxon ℝ).stages, Unipolar x := by
    intro x hx
    rw [List.eq_of_mem_replicate hx]
    exact unipolar_zero
  have hupdate : ∀ key x (s : SquidAxon ℝ), (∀ y ∈ s.stages, Unipolar y) →
      ∀ y ∈ (s.update key x).stages, Unipolar y := by
    intro key x s hs
    rw [squidAxon_update_stages]
    exact hs
  have happlied := applied_induction (P := fun s : SquidAxon ℝ => ∀ x ∈ s.stages, Unipolar x)
    hupdate [("nl_fb", "nl-fb", 0), ("lin_fb", "lin-fb", 0)] m hmake
  unfold buildSquidAxon
  dsimp only
  split_ifs
  · exact hupdate _ _ _ happlied
  · exact happlied

theorem slopeRanged_make : SlopeRanged Slope.make := by
  refine { slopeOk_make with rate := ?_, phase := ?_ }
  · norm_num [Slope.make, real_lit]
  · norm_num [InCycle, Slope.make, real_lit]

theorem slewRanged_make : SlewRanged Slew.make := by
  refine ⟨?_, ?_, bipolar_zero, unipolar_one, bipolar_zero⟩
  · norm_num [Slew.make, real_lit]
  · norm_num [Slew.make, real_lit]

theorem bipolar_span_build [CTrunc D] (m : Entries D) :
    Bipolar (buildChannelDecoder m : ChannelDecoder ℝ).span := by
  have happlied : Bipolar (applied ChannelDecoder.update [("space", "space", 1),
      ("clocked", "clocked", 0)] m (ChannelDecoder.make (channelsOf (Edn.findKw "channels" m))
        ((nameAt (Edn.findKw "span" m) 0).getD "") (spanField (Edn.findKw "span" m)))).span :=
    applied_induction (P := fun s : ChannelDecoder ℝ => Bipolar s.span)
      (fun key x s hs => bipolar_span_update hs key x) _ m bipolar_zero
  unfold buildChannelDecoder
  dsimp only
  split
  · exact bipolar_clamp _
  · exact happlied

theorem ranged_build [CTrunc D] (heard : Prop) {typeName : String} {m : Entries D}
    {mod : BuiltinModulator ℝ} (h : buildModulator typeName m = some mod) : Ranged heard mod := by
  unfold buildModulator at h
  split at h
  · cases h
    exact applied_induction (P := SlopeRanged) (fun key x s hs => hs.update key x) _ m
      slopeRanged_make
  · obtain ⟨s, hs, rfl⟩ := Option.map_eq_some_iff.mp h
    unfold buildSegment at hs
    split at hs
    · split at hs
      · cases hs
      · cases hs
        exact ⟨unipolar_zero, unipolar_one⟩
    · cases hs
  · cases h
    exact applied_induction (P := SlewRanged) (fun key x s hs => hs.update key x) _ m
      slewRanged_make
  · cases h
    exact applied_induction (P := fun s : ShiftRegister ℝ => Unipolar s.depth)
      (fun key x s hs => unipolar_depth_update hs key x) _ m unipolar_one
  · cases h
    exact applied_induction (P := FractalRanged) (fun key x s hs => hs.update key x) _ m
      fractalRanged_make
  · cases h
    exact applied_induction (P := StochasticRanged) (fun key x s hs => hs.update key x) _ m
      stochasticRanged_make
  · obtain ⟨s, -, rfl⟩ := Option.map_eq_some_iff.mp h
    trivial
  · cases h
    exact bipolar_span_build m
  · cases h
    exact divineRanged_build m
  · cases h
    refine ⟨bipolar_zero, fun _ x hx => ?_⟩
    rw [List.eq_of_mem_replicate hx]
    exact bipolar_zero
  · cases h
    trivial
  · cases h
    refine applied_induction (P := fun s : BoolsRing ℝ => Unipolar s.slewState)
      (fun key x s hs => ?_) _ m unipolar_zero
    rw [boolsRing_update_slewState]
    exact hs
  · cases h
    trivial
  · cases h
    exact unipolar_stages_build m
  · cases h
    trivial
  · cases h
    trivial
  · cases h

end Build

/-! ## Runs -/

section Runs

variable {D : Type*} [CNarrow D ℝ]

theorem shown_ranged {heard : Prop} {mod : BuiltinModulator ℝ} (h : Ranged heard mod)
    {calls : List (ModulatorCall String String (ModulatorOutput ℝ) D ℝ)}
    (hrates : mod.isSlope = true → ∀ view beat r, .tick view beat r ∈ calls → FastTick r)
    (hviews : heard → ∀ view beat r, .tick view beat r ∈ calls → HearsRange view mod) :
    ∀ p ∈ mod.shown calls, DocumentedRange heard p.2 p.1 := by
  induction calls generalizing mod with
  | nil => exact fun p hp => absurd hp List.not_mem_nil
  | cons call calls ih =>
      cases call with
      | tick view beat r =>
          obtain ⟨hnext, hout⟩ := ranged_tick view beat h
            (fun hslope => hrates hslope view beat r (List.mem_cons_self ..))
            (fun hheard => hviews hheard view beat r (List.mem_cons_self ..))
          intro p hp
          rcases List.mem_cons.mp hp with rfl | hp
          · exact hout
          · refine ih hnext (fun hslope view' beat' r' hr => ?_)
              (fun hheard view' beat' r' hr => ?_) p hp
            · obtain ⟨hkind, -⟩ := source_tick view beat mod r view'
              exact hrates (hkind ▸ hslope) view' beat' r' (List.mem_cons_of_mem _ hr)
            · obtain ⟨-, hsource⟩ := source_tick view beat mod r view'
              exact hsource.mpr (hviews hheard view' beat' r' (List.mem_cons_of_mem _ hr))
      | update key x =>
          refine ih (ranged_update h key x) (fun hslope view beat r hr => ?_)
            (fun hheard view beat r hr => ?_)
          · obtain ⟨hkind, -⟩ := source_update view mod key x
            exact hrates (hkind ▸ hslope) view beat r (List.mem_cons_of_mem _ hr)
          · obtain ⟨-, hsource⟩ := source_update view mod key x
            exact hsource.mpr (hviews hheard view beat r (List.mem_cons_of_mem _ hr))

/-- In exact arithmetic every output of every built-in modulator lies in the range that its
    header documents for the state that is ticked: after any message that starts one, along any
    further updates and ticks, with any outputs of the modulators it listens to.  What is passed
    on lies in it if what is heard does. -/
theorem outputs_in_documented_range [CTrunc D] {typeName : String} {m : Entries D}
    {mod : BuiltinModulator ℝ} (h : buildModulator typeName m = some mod)
    {calls : List (ModulatorCall String String (ModulatorOutput ℝ) D ℝ)}
    (hrates : mod.isSlope = true → ∀ view beat r, .tick view beat r ∈ calls → FastTick r) :
    (mod.shown calls).map Prod.snd = mod.outputs calls ∧
      ∀ p ∈ mod.shown calls,
        DocumentedRange (∀ view beat r, .tick view beat r ∈ calls → HearsRange view mod) p.2 p.1 :=
  ⟨mod.map_snd_shown calls, shown_ranged (ranged_build _ h) hrates id⟩

end Runs

attribute [local instance] realNarrow realTrunc in
/-- A `slope` that a message sets to 50 Hz, ticked a thousand times a second: bipolar at first,
    then unipolar. -/
theorem slope_outputs_in_documented_range :
    ∃ mod : BuiltinModulator ℝ,
      buildModulator "slope" [(.keyword "rate", .double (50 : ℝ))] = some mod ∧
      ∃ first second, mod.outputs [.tick (fun _ => none) (0 : ℝ) 1000, .update "bipolar" 0,
          .tick (fun _ => none) (0 : ℝ) 1000] = [first, second] ∧
        Bipolar first.cv ∧ Unipolar second.cv := by
  have hbuild : buildModulator "slope" [(.keyword "rate", .double (50 : ℝ))] =
      some (.slope (buildSlope [(.keyword "rate", .double (50 : ℝ))]) : BuiltinModulator ℝ) := rfl
  have hrates : ∀ view beat r, (.tick view beat r : ModulatorCall String String
      (ModulatorOutput ℝ) ℝ ℝ) ∈ [.tick (fun _ => none) (0 : ℝ) 1000, .update "bipolar" 0,
        .tick (fun _ => none) (0 : ℝ) 1000] → FastTick r := by
    intro view beat r hr
    simp only [List.mem_cons, List.not_mem_nil, or_false, reduceCtorEq, false_or,
      ModulatorCall.tick.injEq] at hr
    rcases hr with hr | hr <;> norm_num [FastTick, hr.2.2]
  obtain ⟨-, hrange⟩ := outputs_in_documented_range hbuild fun _ => hrates
  refine ⟨_, hbuild, _, _, rfl, ?_, ?_⟩
  · have hfirst := hrange _ (.head _)
    have hmode : (buildSlope [(.keyword "rate", .double (50 : ℝ))] : Slope ℝ).bipolar = true := by
      show le (lit (1 / 2)) (lit 1) = true
      norm_num [real_le, real_lit]
    rwa [DocumentedRange, hmode] at hfirst
  · have hmode : ((Slope.tick 1000 (buildSlope [(.keyword "rate", .double (50 : ℝ))])).2.update
        "bipolar" (0 : ℝ)).bipolar = false := by
      show le (lit (1 / 2)) (0 : ℝ) = false
      rw [Bool.eq_false_iff, Ne, real_le]
      norm_num [real_lit]
    have hsecond : OfPolarity ((Slope.tick 1000
        (buildSlope [(.keyword "rate", .double (50 : ℝ))])).2.update "bipolar" (0 : ℝ)).bipolar _ :=
      hrange _ (.tail _ (.head _))
    rw [hmode] at hsecond
    exact hsecond

end NomosRt.Modulator
