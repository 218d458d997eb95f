/-
  NomosRt.Modulator.Edges

  Armed edges: the one-shot clocks of `cv_channel_decoder` and `bools_ring_modulator`.

  A key arms an edge and a tick is to spend it.  Both modulators look at the flag, and
  `bools_ring_modulator` at the gate of its sample source, only while their latch mode is
  on.  A tick in the other mode leaves an armed edge armed and does not record the gate,
  so a later tick may latch on what happened before an earlier one.

  `EdgeLatch` says what the two share; the results about runs are proved for it.
-/

import NomosRt.Modulator.Listeners
import NomosRt.Modulator.Literals
import NomosRt.Modulator.Phase

namespace NomosRt.Modulator

open NomosRt.Lib CFloat CMath

/-! ## What a history says -/

section History

variable {I O B F : Type*} [CMath F]

/-- `key` was set above 0.5 since the last tick. -/
def armedSince (key : String) (as : List (ModulatorCall I String O B F)) : Bool :=
  as.foldl (fun armed a =>
    match a with
    | .tick _ _ _ => false
    | .update k value => armed || (decide (k = key) && lt (lit (1 / 2)) value)) false

/-- The gate at the last tick; low before the first. -/
def lastGate (gate : (I → Option O) → Bool) (as : List (ModulatorCall I String O B F)) : Bool :=
  as.foldl (fun last a =>
    match a with
    | .tick view _ _ => gate view
    | .update _ _ => last) false

theorem armedSince_update (key : String) (as : List (ModulatorCall I String O B F)) (k : String)
    (value : F) :
    armedSince key (as ++ [.update k value]) =
      (armedSince key as || (decide (k = key) && lt (lit (1 / 2)) value)) := by
  rw [armedSince, List.foldl_append]
  rfl

omit [CMath F] in
theorem lastGate_tick (gate : (I → Option O) → Bool) (as : List (ModulatorCall I String O B F))
    (view : I → Option O) (beat : B) (rate : F) :
    lastGate gate (as ++ [.tick view beat rate]) = gate view := by
  rw [lastGate, List.foldl_append]
  rfl

omit [CMath F] in
theorem lastGate_update (gate : (I → Option O) → Bool) (as : List (ModulatorCall I String O B F))
    (k : String) (value : F) :
    lastGate gate (as ++ [.update k value]) = lastGate gate as := by
  rw [lastGate, List.foldl_append]
  rfl

end History

/-! ## A latch with an armed edge and a clock source -/

section Latch

variable {I O B M W F : Type*} [CMath F]

/-- The parts of a latch in a modulator.  `prev` is the gate of the clock source as the latch knows
    it. -/
structure EdgeLatch (I O M W : Type*) where
  mode : M → Bool
  pending : M → Bool
  prev : M → Bool
  latched : M → W
  gate : M → (I → Option O) → Bool

/-- What `tick` and `update` do to a latch that `key` arms. -/
structure EdgeLatch.Lawful (L : EdgeLatch I O M W) (sem : ModulatorSem I String M O B F)
    (key : String) : Prop where
  tick_gate : ∀ view beat rate s, L.gate (sem.tick view beat rate s).2 = L.gate s
  tick_off : ∀ view beat rate s, L.mode s = false →
    L.pending (sem.tick view beat rate s).2 = L.pending s ∧
    L.prev (sem.tick view beat rate s).2 = L.prev s
  tick_on : ∀ view beat rate s, L.mode s = true →
    L.pending (sem.tick view beat rate s).2 = false ∧
    L.prev (sem.tick view beat rate s).2 = L.gate s view
  tick_latched : ∀ view beat rate s, L.latched (sem.tick view beat rate s).2 ≠ L.latched s →
    L.pending s = true ∨ (L.gate s view = true ∧ L.prev s = false)
  update_gate : ∀ k value s, L.gate (sem.update k value s) = L.gate s
  update_pending : ∀ k value s, L.pending (sem.update k value s) =
    (L.pending s || (decide (k = key) && lt (lit (1 / 2)) value))
  update_prev : ∀ k value s, L.prev (sem.update k value s) = L.prev s

namespace EdgeLatch

variable {sem : ModulatorSem I String M O B F} {key : String} (L : EdgeLatch I O M W)

/-- A tick outside the mode finds no armed edge and no gate that has gone up unseen. -/
def Current (s : M) : ModulatorCall I String O B F → Prop
  | .tick view _ _ => L.mode s = false →
      L.pending s = false ∧ (L.gate s view = true → L.prev s = true)
  | .update _ _ => True

/-- The latch against the history: an edge is armed only since the last tick, and the latch knows
    of the gate of that tick. -/
structure Tracks (key : String) (gate : (I → Option O) → Bool)
    (as : List (ModulatorCall I String O B F)) (s : M) : Prop where
  gate_eq : L.gate s = gate
  armed : L.pending s = true → armedSince key as = true
  seen : lastGate gate as = true → L.prev s = true

variable {L}

theorem tracks_tick (hL : L.Lawful sem key) {gate : (I → Option O) → Bool}
    {as : List (ModulatorCall I String O B F)} {s : M} (h : L.Tracks key gate as s) (view : I → Option O) (beat : B) (rate : F)
    (hcurrent : L.Current s (.tick view beat rate)) :
    L.Tracks key gate (as ++ [.tick view beat rate]) (sem.tick view beat rate s).2 := by
  refine ⟨(hL.tick_gate view beat rate s).trans h.gate_eq, ?_, ?_⟩
  · intro hpending
    cases hmode : L.mode s with
    | false =>
        rw [(hL.tick_off view beat rate s hmode).1, (hcurrent hmode).1] at hpending
        cases hpending
    | true =>
        rw [(hL.tick_on view beat rate s hmode).1] at hpending
        cases hpending
  · intro hlast
    rw [lastGate_tick, ← h.gate_eq] at hlast
    cases hmode : L.mode s with
    | false =>
        rw [(hL.tick_off view beat rate s hmode).2]
        exact (hcurrent hmode).2 hlast
    | true =>
        rw [(hL.tick_on view beat rate s hmode).2]
        exact hlast

theorem tracks_update (hL : L.Lawful sem key) {gate : (I → Option O) → Bool}
    {as : List (ModulatorCall I String O B F)} {s : M} (h : L.Tracks key gate as s) (k : String) (value : F) :
    L.Tracks key gate (as ++ [.update k value]) (sem.update k value s) := by
  refine ⟨(hL.update_gate k value s).trans h.gate_eq, ?_, ?_⟩
  · intro hpending
    rw [hL.update_pending, Bool.or_eq_true] at hpending
    rw [armedSince_update, Bool.or_eq_true]
    exact hpending.imp_left h.armed
  · intro hlast
    rw [lastGate_update] at hlast
    rw [hL.update_prev]
    exact h.seen hlast

/-- The latch tracks the history along every run whose ticks outside the mode leave nothing
    behind. -/
theorem tracks_of_reached (hL : L.Lawful sem key) {start : M} (hpending : L.pending start = false)
    {as : List (ModulatorCall I String O B F)} {s : M}
    (hr : (callMachine sem start).Reached L.Current as s) : L.Tracks key (L.gate start) as s := by
  induction hr with
  | start =>
      refine ⟨rfl, ?_, ?_⟩
      · intro h
        exact absurd (hpending.symm.trans h) Bool.false_ne_true
      · intro h
        exact absurd h Bool.false_ne_true
  | step hprev hcurrent hstep ih =>
      rename_i a _
      cases a with
      | tick view beat rate =>
          cases hstep
          exact tracks_tick hL ih view beat rate hcurrent
      | update k value =>
          cases hstep
          exact tracks_update hL ih k value

/-- A tick that changes the latch has its cause since the last tick or in this one. -/
theorem Tracks.cause (hL : L.Lawful sem key) {gate : (I → Option O) → Bool}
    {as : List (ModulatorCall I String O B F)} {s : M} (h : L.Tracks key gate as s) (view : I → Option O) (beat : B) (rate : F)
    (hchange : L.latched (sem.tick view beat rate s).2 ≠ L.latched s) :
    armedSince key as = true ∨ (gate view = true ∧ lastGate gate as = false) := by
  rcases hL.tick_latched view beat rate s hchange with hpending | ⟨hgate, hprev⟩
  · exact .inl (h.armed hpending)
  · refine .inr ⟨h.gate_eq ▸ hgate, ?_⟩
    rw [← Bool.not_eq_true]
    intro hlast
    exact absurd ((h.seen hlast).symm.trans hprev) (by decide)

end EdgeLatch

end Latch

/-! ## The two modulators -/

section Modulators

variable {B F : Type*} [CMath F]

/-- The virtual functions of `cv_channel_decoder`. -/
def ChannelDecoder.sem (B : Type*) {F : Type*} [CMath F] :
    ModulatorSem String String (ChannelDecoder F) (ModulatorOutput F) B F where
  tick view _ := ChannelDecoder.tick view
  update := ChannelDecoder.update

/-- The virtual functions of `bools_ring_modulator`. -/
def BoolsRing.sem (B : Type*) {F : Type*} [CMath F] :
    ModulatorSem String String (BoolsRing F) (ModulatorOutput F) B F where
  tick view _ := BoolsRing.tick view
  update := BoolsRing.update

/-- The gate of the sample source. -/
def BoolsRing.sampleGate (s : BoolsRing F) (view : OutputView F) : Bool :=
  if s.sampleSrc ≠ "" then readGateLevel view s.sampleSrc (lit 0) else false

theorem ChannelDecoder.tick_snd (view : OutputView F) (rate : F) (s : ChannelDecoder F) :
    (s.tick view rate).2 =
      if s.clocked ∧ s.clockPending then
        { s with
          firstTick := false
          prevSpan := s.readSpan view
          latchedState := bitmapOf s.channels fun i => s.channelActive i (s.readSpan view)
          clockPending := false }
      else { s with firstTick := false, prevSpan := s.readSpan view } := by
  cases hclocked : s.clocked <;> cases hpending : s.clockPending <;>
    simp [ChannelDecoder.tick, ChannelDecoder.latch, hclocked, hpending]
  rfl

/-- The latch of `cv_channel_decoder`; it has no clock source. -/
def ChannelDecoder.edgeLatch (F : Type*) :
    EdgeLatch String (ModulatorOutput F) (ChannelDecoder F) (BitVec 32) where
  mode := ChannelDecoder.clocked
  pending := ChannelDecoder.clockPending
  prev _ := false
  latched := ChannelDecoder.latchedState
  gate _ _ := false

theorem ChannelDecoder.edgeLatch_lawful :
    (ChannelDecoder.edgeLatch F).Lawful (ChannelDecoder.sem B) "clock_tick" where
  tick_gate _ _ _ _ := rfl
  tick_off view beat rate s hmode := by
    have hmode : s.clocked = false := hmode
    show (s.tick view rate).2.clockPending = s.clockPending ∧ _
    rw [ChannelDecoder.tick_snd, if_neg (by simp [hmode])]
    exact ⟨rfl, rfl⟩
  tick_on view beat rate s hmode := by
    have hmode : s.clocked = true := hmode
    show (s.tick view rate).2.clockPending = false ∧ _
    rw [ChannelDecoder.tick_snd]
    split_ifs with h
    · exact ⟨rfl, rfl⟩
    · refine ⟨?_, rfl⟩
      rw [not_and, Bool.not_eq_true] at h
      exact h hmode
  tick_latched view beat rate s hchange := by
    have hchange : (s.tick view rate).2.latchedState ≠ s.latchedState := hchange
    rw [ChannelDecoder.tick_snd] at hchange
    split_ifs at hchange with h
    · exact .inl h.2
    · exact absurd rfl hchange
  update_gate _ _ _ := rfl
  update_pending k value s := by
    show (s.update k value).clockPending = (s.clockPending || _)
    unfold ChannelDecoder.update
    split
    · simp
    · simp
    · simp
    -- `clock_tick` arms for a value above 0.5 and never disarms
    · cases h : lt (lit (1 / 2)) value <;> simp
    · rename_i hother
      rw [decide_eq_false hother]
      simp
  update_prev _ _ _ := rfl

theorem BoolsRing.tick_snd (view : OutputView F) (rate : F) (s : BoolsRing F) :
    ∃ x, (s.tick view rate).2 =
      if s.sampled then
        { s with
          slewState := x
          samplePrev := s.sampleGate view
          samplePending := false
          latchedOut := if (s.sampleGate view && !s.samplePrev) || s.samplePending
            then s.ring view else s.latchedOut }
      else { s with slewState := x } := by
  refine ⟨(s.tick view rate).2.slewState, ?_⟩
  cases hsampled : s.sampled with
  | false => simp [BoolsRing.tick, BoolsRing.latch, hsampled]
  | true =>
      simp only [BoolsRing.tick, BoolsRing.latch, hsampled, BoolsRing.sampleGate]
      split_ifs <;> simp_all

/-- The latch of `bools_ring_modulator`. -/
def BoolsRing.edgeLatch (F : Type*) [CMath F] :
    EdgeLatch String (ModulatorOutput F) (BoolsRing F) (BitVec 8) where
  mode := BoolsRing.sampled
  pending := BoolsRing.samplePending
  prev := BoolsRing.samplePrev
  latched := BoolsRing.latchedOut
  gate := BoolsRing.sampleGate

theorem BoolsRing.edgeLatch_lawful :
    (BoolsRing.edgeLatch F).Lawful (BoolsRing.sem B) "sample_tick" where
  tick_gate view beat rate s := by
    obtain ⟨x, hx⟩ := BoolsRing.tick_snd view rate s
    show (s.tick view rate).2.sampleGate = s.sampleGate
    rw [hx]
    split_ifs <;> rfl
  tick_off view beat rate s hmode := by
    have hmode : s.sampled = false := hmode
    obtain ⟨x, hx⟩ := BoolsRing.tick_snd view rate s
    show (s.tick view rate).2.samplePending = s.samplePending ∧
      (s.tick view rate).2.samplePrev = s.samplePrev
    rw [hx, if_neg (by simp [hmode])]
    exact ⟨rfl, rfl⟩
  tick_on view beat rate s hmode := by
    have hmode : s.sampled = true := hmode
    obtain ⟨x, hx⟩ := BoolsRing.tick_snd view rate s
    show (s.tick view rate).2.samplePending = false ∧
      (s.tick view rate).2.samplePrev = s.sampleGate view
    rw [hx, if_pos hmode]
    exact ⟨rfl, rfl⟩
  tick_latched view beat rate s hchange := by
    obtain ⟨x, hx⟩ := BoolsRing.tick_snd view rate s
    have hchange : (s.tick view rate).2.latchedOut ≠ s.latchedOut := hchange
    rw [hx] at hchange
    split_ifs at hchange with hmode hedge
    · rw [Bool.or_eq_true, Bool.and_eq_true, Bool.not_eq_true'] at hedge
      exact hedge.symm
    · exact absurd rfl hchange
    · exact absurd rfl hchange
  update_gate k value s := by
    show (s.update k value).sampleGate = s.sampleGate
    unfold BoolsRing.update
    split <;> try rfl
    split_ifs <;> rfl
  update_pending k value s := by
    show (s.update k value).samplePending = (s.samplePending || _)
    unfold BoolsRing.update
    split
    · simp
    · simp
    · simp
    · simp
    · simp
    · simp
    -- `sample_tick`; the six keys before it leave the flag alone
    · cases h : lt (lit (1 / 2)) value <;> simp
    · rename_i hother
      rw [decide_eq_false hother]
      simp
  update_prev k value s := by
    show (s.update k value).samplePrev = s.samplePrev
    unfold BoolsRing.update
    split <;> try rfl
    split_ifs <;> rfl

/-- Along every run whose ticks outside the latch mode leave no edge behind, an edge is armed only
    since the last tick, and a tick changes the latch only for such an edge or, in
    `bools_ring_modulator`, for a gate that is up and was down at the last tick. -/
theorem armed_edge_is_spent (channels : Int) (sourceId : String) (field : SourceField)
    (mode : RingMode) (src0 src1 src2 src3 sampleSrc : String) :
    (∀ as s, (callMachine (ChannelDecoder.sem B)
        (ChannelDecoder.make channels sourceId field : ChannelDecoder F)).Reached
        (ChannelDecoder.edgeLatch F).Current as s →
      (s.clockPending = true → armedSince "clock_tick" as = true) ∧
      ∀ view beat rate,
        ((ChannelDecoder.sem B).tick view beat rate s).2.latchedState ≠ s.latchedState →
          armedSince "clock_tick" as = true) ∧
    (∀ as s, (callMachine (BoolsRing.sem B)
        (BoolsRing.make mode src0 src1 src2 src3 sampleSrc : BoolsRing F)).Reached
        (BoolsRing.edgeLatch F).Current as s →
      (s.samplePending = true → armedSince "sample_tick" as = true) ∧
      ∀ view beat rate,
        ((BoolsRing.sem B).tick view beat rate s).2.latchedOut ≠ s.latchedOut →
          armedSince "sample_tick" as = true ∨
            (s.sampleGate view = true ∧ lastGate s.sampleGate as = false)) := by
  constructor
  · intro as s hr
    have htracks := EdgeLatch.tracks_of_reached ChannelDecoder.edgeLatch_lawful rfl hr
    refine ⟨htracks.armed, fun view beat rate hchange => ?_⟩
    rcases htracks.cause ChannelDecoder.edgeLatch_lawful view beat rate hchange with harmed | hgate
    · exact harmed
    -- the channel decoder has no gate
    · exact absurd hgate.1 Bool.false_ne_true
  · intro as s hr
    have htracks := EdgeLatch.tracks_of_reached BoolsRing.edgeLatch_lawful rfl hr
    refine ⟨htracks.armed, fun view beat rate hchange => ?_⟩
    have hgate : s.sampleGate = _ := htracks.gate_eq
    rw [hgate]
    exact htracks.cause BoolsRing.edgeLatch_lawful view beat rate hchange

end Modulators

/-! ## Runs that switch the mode -/

section Switching

attribute [local instance] exactMath

/-- No source has an output. -/
def noOutputs : OutputView ℚ := fun _ => none

theorem armed_edge_is_spent_clocked :
    ∃ as s, (callMachine (ChannelDecoder.sem Unit)
        (ChannelDecoder.make 2 "" .cv : ChannelDecoder ℚ)).Reached
        (ChannelDecoder.edgeLatch ℚ).Current as s ∧
      (s.tick noOutputs 1).2.latchedState ≠ s.latchedState ∧ armedSince "clock_tick" as = true := by
  have hr : (callMachine (ChannelDecoder.sem Unit)
      (ChannelDecoder.make 2 "" .cv : ChannelDecoder ℚ)).Reached
      (ChannelDecoder.edgeLatch ℚ).Current
      [.update "clocked" 1, .update "clock_tick" 1]
      (((ChannelDecoder.make 2 "" .cv).update "clocked" 1).update "clock_tick" 1) :=
    .step (.step .start trivial rfl) trivial rfl
  have hchange : ((((ChannelDecoder.make 2 "" .cv : ChannelDecoder ℚ).update "clocked" 1).update
      "clock_tick" 1).tick noOutputs 1).2.latchedState ≠
      (((ChannelDecoder.make 2 "" .cv : ChannelDecoder ℚ).update "clocked" 1).update
        "clock_tick" 1).latchedState := by
    decide +kernel
  exact ⟨_, _, hr, hchange,
    ((armed_edge_is_spent 2 "" .cv .xorMode "" "" "" "" "").1 _ _ hr).2 noOutputs () 1 hchange⟩

/-- Every source has its gate up. -/
def gatesUp : OutputView ℚ := fun _ => some { cvOutput 0 with gate := true }

/-- A clock edge is armed, a tick passes, the decoder is clocked. -/
def staleClock : List (ModulatorCall String String (ModulatorOutput ℚ) Unit ℚ) :=
  [.update "clock_tick" 1, .tick noOutputs () 1, .update "clocked" 1]

/-- A sample edge is armed, a tick passes, the ring is sampled. -/
def staleSample : List (ModulatorCall String String (ModulatorOutput ℚ) Unit ℚ) :=
  [.update "in0" 1, .update "sample_tick" 1, .tick noOutputs () 1, .update "sampled" 1]

/-- The gate of the sample source is up at a tick, the ring is sampled. -/
def staleGate : List (ModulatorCall String String (ModulatorOutput ℚ) Unit ℚ) :=
  [.update "in0" 1, .tick gatesUp () 1, .update "sampled" 1]

/-- An edge armed before a tick outside the mode latches at a later one, and so does a gate that went
    up at such a tick. -/
theorem armed_edge_outlives_a_tick :
    (∃ s, (callMachine (ChannelDecoder.sem Unit)
        (ChannelDecoder.make 2 "" .cv : ChannelDecoder ℚ)).Reached Machine.free staleClock s ∧
      armedSince "clock_tick" staleClock = false ∧
      (s.tick noOutputs 1).2.latchedState ≠ s.latchedState) ∧
    (∃ s, (callMachine (BoolsRing.sem Unit)
        (BoolsRing.make .xorMode "" "" "" "" "" : BoolsRing ℚ)).Reached Machine.free staleSample s ∧
      armedSince "sample_tick" staleSample = false ∧ s.sampleGate noOutputs = false ∧
      (s.tick noOutputs 1).2.latchedOut ≠ s.latchedOut) ∧
    (∃ s, (callMachine (BoolsRing.sem Unit)
        (BoolsRing.make .xorMode "" "" "" "" "clk" : BoolsRing ℚ)).Reached Machine.free
          staleGate s ∧
      armedSince "sample_tick" staleGate = false ∧ lastGate s.sampleGate staleGate = true ∧
      (s.tick gatesUp 1).2.latchedOut ≠ s.latchedOut) := by
  refine ⟨⟨_, .step (.step (.step .start trivial rfl) trivial rfl) trivial rfl, ?_⟩,
    ⟨_, .step (.step (.step (.step .start trivial rfl) trivial rfl) trivial rfl) trivial rfl, ?_⟩,
    ⟨_, .step (.step (.step .start trivial rfl) trivial rfl) trivial rfl, ?_⟩⟩
  · decide +kernel
  · decide +kernel
  · decide +kernel

end Switching

end NomosRt.Modulator
