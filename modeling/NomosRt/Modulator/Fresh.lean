/-
  NomosRt.Modulator.Fresh

  `stochastic_modulator` at `deja_vu` 0.

  There every clock event generates a pair and stores it at the write position, but what
  it emits is the pair at the read position.  The two positions advance alike at
  `deja_vu` 0; an event that replays moves the read position alone, and one that freezes
  neither.  After that the loop plays back what it stored before.

  Every slot of the buffers is given the number of the event that wrote it.  An event is
  fresh if the slot it emits is its own.
-/

import NomosRt.Modulator.DejaVu

namespace NomosRt.Modulator

open NomosRt.Lib CFloat CMath

section Fresh

variable {I B F : Type*} [CMath F]

/-- The modulator with the number of events, and for each slot the event that wrote it; 0 is the
    constructor. -/
structure Tagged (F : Type*) where
  mod : Stochastic F
  count : Nat
  born : List Nat

namespace Tagged

/-- The constructor. -/
def make : Tagged F := ⟨Stochastic.make, 0, List.replicate kMaxLength 0⟩

/-- A clock event. -/
def event (rate : F) (t : Tagged F) : Tagged F where
  mod := (t.mod.tick rate).2
  count := t.count + 1
  born := if t.mod.replays then t.born else t.born.set t.mod.writePos (t.count + 1)

/-- One call. -/
def call (t : Tagged F) : ModulatorCall I String (ModulatorOutput F) B F → Tagged F
  | .tick _ _ rate =>
      if t.mod.clocks rate then t.event rate else { t with mod := (t.mod.tick rate).2 }
  | .update key value => { t with mod := t.mod.update key value }

/-- The event emits what it wrote itself. -/
def EmitsFresh (rate : F) (t : Tagged F) : Prop :=
  (t.event rate).born.getD t.mod.readPos 0 = (t.event rate).count

end Tagged

/-- The tagged modulator under `tick` and `update`. -/
def taggedMachine (I B F : Type*) [CMath F] :
    Machine (Tagged F) (ModulatorCall I String (ModulatorOutput F) B F) where
  start := Tagged.make
  step t a := some (t.call a)

/-- No clock event takes place with `deja_vu` above 0. -/
def NeverReplays (t : Tagged F) : ModulatorCall I String (ModulatorOutput F) B F → Prop
  | .tick _ _ rate => t.mod.clocks rate = true → lt (lit 0) t.mod.dejaVu = false
  | .update _ _ => True

namespace Tagged

/-- The tags do not disturb the modulator. -/
theorem reached_mod {as : List (ModulatorCall I String (ModulatorOutput F) B F)} {t : Tagged F}
    (hr : (taggedMachine I B F).Reached Machine.free as t) :
    (callMachine (Stochastic.sem I B) Stochastic.make).Reached Machine.free as t.mod := by
  induction hr with
  | start => exact .start
  | @step _ _ a _ hprev _ hstep ih =>
      cases hstep
      refine .step ih trivial ?_
      cases a with
      | tick view beat rate =>
          rw [call]
          split_ifs <;> rfl
      | update key value => rfl

/-- The tags are those of events so far. -/
structure TagsOk (t : Tagged F) : Prop where
  length : t.born.length = kMaxLength
  le_count : ∀ n ∈ t.born, n ≤ t.count

theorem TagsOk.event {t : Tagged F} (h : t.TagsOk) (rate : F) : (t.event rate).TagsOk := by
  refine ⟨?_, ?_⟩
  · rw [Tagged.event]
    split_ifs
    · exact h.length
    · rw [List.length_set, h.length]
  · intro n hn
    show n ≤ t.count + 1
    rw [Tagged.event] at hn
    split_ifs at hn
    · exact Nat.le_succ_of_le (h.le_count n hn)
    · rcases List.mem_or_eq_of_mem_set hn with hold | hnew
      · exact Nat.le_succ_of_le (h.le_count n hold)
      · exact hnew.le

theorem tagsOk_of_reached {as : List (ModulatorCall I String (ModulatorOutput F) B F)} {t : Tagged F}
    (hr : (taggedMachine I B F).Reached Machine.free as t) : t.TagsOk := by
  refine hr.invariant (I := TagsOk) ⟨List.length_replicate, ?_⟩ ?_
  · intro n hn
    exact (List.eq_of_mem_replicate hn).le
  · rintro t a t' ht - hstep
    cases hstep
    cases a with
    | tick view beat rate =>
        rw [call]
        split_ifs
        · exact ht.event rate
        · exact ⟨ht.length, ht.le_count⟩
    | update key value => exact ⟨ht.length, ht.le_count⟩

/-- At `deja_vu` 0 an event is fresh where the positions meet. -/
theorem emitsFresh_iff {t : Tagged F} (htags : t.TagsOk) (hloop : t.mod.LoopOk) (rate : F)
    (hzero : lt (lit 0) t.mod.dejaVu = false) :
    t.EmitsFresh rate ↔ t.mod.readPos = t.mod.writePos := by
  have hwrite : t.mod.writePos < t.born.length := by
    rw [htags.length]
    exact hloop.writePos
  have hread : t.mod.readPos < t.born.length := by
    rw [htags.length]
    exact hloop.readPos
  rw [EmitsFresh, event, Stochastic.replays_of_not_pos hzero]
  show (t.born.set t.mod.writePos (t.count + 1)).getD t.mod.readPos 0 = t.count + 1 ↔ _
  rw [List.getD_eq_getElem?_getD, List.getElem?_set]
  by_cases heq : t.mod.writePos = t.mod.readPos
  · simp [heq, hread]
  · rw [if_neg heq, List.getElem?_eq_getElem hread, Option.getD_some]
    have hold := htags.le_count _ (List.getElem_mem hread)
    refine iff_of_false ?_ (Ne.symm heq)
    omega

/-- What such an event emits: the generated pair where the positions meet, else a stored one. -/
theorem emitted_of_zero {s : Stochastic F} (hloop : s.LoopOk) {rate : F}
    (hclocks : s.clocks rate = true) (hzero : lt (lit 0) s.dejaVu = false) :
    ((s.tick rate).1.cv, (s.tick rate).1.gate) =
      if s.readPos = s.writePos then (s.newCv * s.depth, s.newGate)
      else s.pairAt s.depth s.readPos := by
  have hspec := Stochastic.tick_spec hclocks
  have hcv : s.readPos < s.cvBuf.length := by
    rw [hloop.cvBuf]
    exact hloop.readPos
  have hgate : s.readPos < s.gateBuf.length := by
    rw [hloop.gateBuf]
    exact hloop.readPos
  rw [hspec.cv, hspec.gate, hspec.cvBuf, hspec.gateBuf, Stochastic.replays_of_not_pos hzero,
    List.getD_eq_getElem?_getD, List.getD_eq_getElem?_getD, Stochastic.pairAt]
  by_cases heq : s.readPos = s.writePos
  · rw [heq] at hcv hgate
    simp [heq, hcv, hgate]
  · simp [heq, Ne.symm heq]

/-- As long as no event takes place above 0 the positions stay together. -/
theorem positions_of_reached [SingleOrder F]
    {as : List (ModulatorCall I String (ModulatorOutput F) B F)} {t : Tagged F}
    (hr : (taggedMachine I B F).Reached NeverReplays as t) : t.mod.readPos = t.mod.writePos := by
  refine hr.invariant (I := fun t => t.mod.readPos = t.mod.writePos) rfl ?_
  intro t a t' ht hnever hstep
  cases hstep
  cases a with
  | update key value =>
      obtain ⟨-, -, hwrite, hread⟩ := Stochastic.update_loop key value t.mod
      exact hread.trans (ht.trans hwrite.symm)
  | tick view beat rate =>
      rw [call]
      cases hclocks : t.mod.clocks rate with
      | false =>
          obtain ⟨x, hx⟩ := Stochastic.tick_held hclocks
          simp only [hx]
          exact ht
      | true =>
          have hspec := Stochastic.tick_spec hclocks
          have hzero := hnever hclocks
          show (t.mod.tick rate).2.readPos = (t.mod.tick rate).2.writePos
          rw [hspec.readPos, hspec.writePos, Stochastic.replays_of_not_pos hzero,
            Stochastic.freezes_of_not_pos hzero, ht]

end Tagged

/-- In every state that a run reaches, a clock event at `deja_vu` 0 emits the pair it generates if
    and only if the read position is at the write position; so it does in every run without an
    event above 0. -/
theorem zero_is_fresh_iff_positions_meet [SingleOrder F]
    {as : List (ModulatorCall I String (ModulatorOutput F) B F)} {t : Tagged F}
    (hr : (taggedMachine I B F).Reached Machine.free as t) {rate : F}
    (hclocks : t.mod.clocks rate = true) (hzero : lt (lit 0) t.mod.dejaVu = false) :
    (t.EmitsFresh rate ↔ t.mod.readPos = t.mod.writePos) ∧
    (t.mod.readPos = t.mod.writePos →
      ((t.mod.tick rate).1.cv, (t.mod.tick rate).1.gate) =
        (t.mod.newCv * t.mod.depth, t.mod.newGate)) ∧
    (t.mod.readPos ≠ t.mod.writePos →
      ((t.mod.tick rate).1.cv, (t.mod.tick rate).1.gate) =
        t.mod.pairAt t.mod.depth t.mod.readPos) ∧
    ((taggedMachine I B F).Reached NeverReplays as t → t.EmitsFresh rate) := by
  have hloop := loopOk_of_reached (Tagged.reached_mod hr)
  have hiff := Tagged.emitsFresh_iff (Tagged.tagsOk_of_reached hr) hloop rate hzero
  have hemitted := Tagged.emitted_of_zero hloop hclocks hzero
  refine ⟨hiff, ?_, ?_, ?_⟩
  · intro hmeet
    rw [hemitted, if_pos hmeet]
  · intro hapart
    rw [hemitted, if_neg hapart]
  · intro hnever
    exact hiff.mpr (Tagged.positions_of_reached hnever)

end Fresh

section Exact

attribute [local instance] exactMath

/-- A locked event, then `deja_vu` 0. -/
def lockedOnce : List (ModulatorCall Unit String (ModulatorOutput ℚ) Unit ℚ) :=
  [.update "deja_vu" (1 / 2), .tick (fun _ => none) () 2, .update "deja_vu" 0]

/-- Two locked events in a loop of two, which bring the read position back to the write position,
    then `deja_vu` 0. -/
def lockedTwice : List (ModulatorCall Unit String (ModulatorOutput ℚ) Unit ℚ) :=
  [.update "length" 2, .update "deja_vu" (1 / 2), .tick (fun _ => none) () 2,
    .tick (fun _ => none) () 2, .update "deja_vu" 0]

/-- The event after that is fresh again. -/
theorem zero_is_fresh_after_lockedTwice :
    ∃ t, (taggedMachine Unit Unit ℚ).Reached Machine.free lockedTwice t ∧ t.count = 2 ∧
      t.mod.clocks 2 = true ∧ t.EmitsFresh 2 ∧
      ((t.mod.tick 2).1.cv, (t.mod.tick 2).1.gate) = (t.mod.newCv * t.mod.depth, t.mod.newGate) := by
  have horder := singleOrder_exactMath
  have hr : (taggedMachine Unit Unit ℚ).Reached Machine.free lockedTwice
      (lockedTwice.foldl Tagged.call Tagged.make) :=
    .step (.step (.step (.step (.step .start trivial rfl) trivial rfl) trivial rfl) trivial rfl)
      trivial rfl
  have hclocks : (lockedTwice.foldl Tagged.call Tagged.make).mod.clocks 2 = true := by
    decide +kernel
  have hzero : lt (lit 0) (lockedTwice.foldl Tagged.call Tagged.make).mod.dejaVu = false := by
    decide +kernel
  have hmeet : (lockedTwice.foldl Tagged.call Tagged.make).mod.readPos =
      (lockedTwice.foldl Tagged.call Tagged.make).mod.writePos := by
    decide +kernel
  obtain ⟨hiff, hemitted, -, -⟩ := zero_is_fresh_iff_positions_meet hr hclocks hzero
  exact ⟨_, hr, by decide +kernel, hclocks, hiff.mpr hmeet, hemitted hmeet⟩

/-- The event after it emits a pair of the constructor. -/
theorem zero_replays_after_locked :
    ∃ t, (taggedMachine Unit Unit ℚ).Reached Machine.free lockedOnce t ∧
      t.mod.clocks 2 = true ∧ t.mod.dejaVu = 0 ∧ ¬ t.EmitsFresh 2 ∧
      ((t.mod.tick 2).1.cv, (t.mod.tick 2).1.gate) ≠ (t.mod.newCv * t.mod.depth, t.mod.newGate) := by
  refine ⟨_, .step (.step (.step .start trivial rfl) trivial rfl) trivial rfl, ?_, ?_, ?_, ?_⟩
  · decide +kernel
  · decide +kernel
  · show ¬ (_ = _)
    decide +kernel
  · decide +kernel

end Exact

end NomosRt.Modulator
