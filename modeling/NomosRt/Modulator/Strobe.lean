/-
  NomosRt.Modulator.Strobe

  STROBE in `cipher_modulator`.

  The shift register alone is a machine over the clock and the data inputs; the strobe is
  not among them.  A run of the modulator drives that machine with what its ticks read,
  shows the bit it shifts out and, while the strobe is low, the register; while the
  strobe is high it shows what it showed before.

  The statement about two runs follows from this: both drive the same machine with the
  same inputs.
-/

import NomosRt.Modulator.Listeners
import NomosRt.Modulator.Literals

namespace NomosRt.Modulator

open NomosRt.Lib CFloat CMath

/-! ## The shift register alone -/

/-- What a tick reads of the clock and the data: the gate of the clock source, an armed edge, and
    the data; without `data2` the register feeds back. -/
structure CipherInputs where
  clock : Bool
  armed : Bool
  data1 : Bool
  data2 : Option Bool
  deriving DecidableEq, Repr

/-- The inner register and the last gate of the clock source. -/
structure CipherCore where
  reg : BitVec 8
  prev : Bool
  deriving DecidableEq, Repr

namespace CipherCore

/-- The new LSB. -/
def bitIn (x : CipherInputs) (c : CipherCore) : Bool :=
  match x.data2 with
  | some d2 => x.data1 || d2
  | none => (c.reg.getLsbD 7 ^^ c.reg.getLsbD 0) || x.data1

/-- A tick: the bit that is shifted out and the core. -/
def step (x : CipherInputs) (c : CipherCore) : Bool × CipherCore :=
  let edge := (x.clock && !c.prev) || x.armed
  (edge && c.reg.getLsbD 7,
    ⟨if edge then (c.reg <<< 1) ||| (if c.bitIn x then 1 else 0) else c.reg, x.clock⟩)

/-- The bits shifted out and the registers, tick by tick. -/
def steps (c : CipherCore) : List CipherInputs → List (Bool × BitVec 8)
  | [] => []
  | x :: xs => ((c.step x).1, (c.step x).2.reg) :: steps (c.step x).2 xs

end CipherCore

/-! ## Ticks of a run -/

section Ticks

variable {B F : Type*} [CMath F]

namespace Cipher

/-- The core of the modulator. -/
def core (s : Cipher F) : CipherCore := ⟨s.innerReg, s.clockPrev⟩

/-- The inputs that a tick reads. -/
def inputs (view : OutputView F) (s : Cipher F) : CipherInputs where
  clock := readGateSrc view s.clockSrc
  armed := s.clockPending
  data1 := readGateLevel view s.data1Src s.data1
  data2 :=
    if s.data2Src ≠ "" then some (readGateSrc view s.data2Src)
    else if le (lit 0) s.data2 then some (lt (lit (1 / 2)) s.data2)
    else none

/-- The strobe that a tick reads. -/
def strobeActive (view : OutputView F) (s : Cipher F) : Bool :=
  readGateLevel view s.strobeSrc s.strobe

end Cipher

/-- A tick of a run: what it read and what it returned. -/
structure CipherTick (F : Type*) where
  inputs : CipherInputs
  strobe : Bool
  out : ModulatorOutput F

/-- The ticks of a run of calls. -/
def Cipher.ticks (s : Cipher F) :
    List (ModulatorCall String String (ModulatorOutput F) B F) → List (CipherTick F)
  | [] => []
  | .tick view _ _ :: as =>
      ⟨s.inputs view, s.strobeActive view, (s.tick view).1⟩ :: ticks (s.tick view).2 as
  | .update key value :: as => ticks (s.update key value) as

/-- What the strobe freezes: `cv`, `aux`, `state` and the first four outputs. -/
def frozenPart (out : ModulatorOutput F) : F × F × BitVec 32 × List F :=
  (out.cv, out.aux, out.state, out.outputs.take 4)

/-- The frozen part for an output register. -/
def shownFor (reg : BitVec 8) : F × F × BitVec 32 × List F :=
  let cvs := Cipher.kCVBits.map fun bits =>
    weightedSum Cipher.kWeights (fun w => reg.getLsbD (bits.getD w 0)) / Cipher.kWeightSum
  (cvs.getD 0 (lit 0), cvs.getD 1 (lit 0), reg.setWidth 32, cvs)

namespace Cipher

/-! ## One tick -/

theorem bitIn_eq (view : OutputView F) (s : Cipher F) :
    s.bitIn view = s.core.bitIn (s.inputs view) := by
  rw [bitIn, CipherCore.bitIn, inputs]
  by_cases hsrc : s.data2Src ≠ ""
  · simp only [hsrc, if_true, true_or, ne_eq, not_false_eq_true]
  · by_cases hdata : le (lit 0) s.data2 = true
    · simp only [hsrc, hdata, if_true, if_false, or_true]
    · simp only [hsrc, hdata, if_false]
      rfl

theorem core_tick (view : OutputView F) (s : Cipher F) :
    (s.tick view).2.core = (s.core.step (s.inputs view)).2 := by
  rw [CipherCore.step, ← bitIn_eq]
  rfl

theorem outputReg_tick (view : OutputView F) (s : Cipher F) :
    (s.tick view).2.outputReg =
      if s.strobeActive view then s.outputReg else (s.tick view).2.innerReg := rfl

theorem frozenPart_tick (view : OutputView F) (s : Cipher F) :
    frozenPart (s.tick view).1 = shownFor (s.tick view).2.outputReg := rfl

theorem core_update (key : String) (value : F) (s : Cipher F) :
    (s.update key value).core = s.core := by
  unfold update
  split <;> try rfl
  split_ifs <;> rfl

theorem outputReg_update (key : String) (value : F) (s : Cipher F) :
    (s.update key value).outputReg = s.outputReg := by
  unfold update
  split <;> try rfl
  split_ifs <;> rfl

/-! ## Runs -/

/-- With the strobe low a tick shows the register of the core. -/
theorem ticks_refine (s : Cipher F) (as : List (ModulatorCall String String (ModulatorOutput F) B F))
    {i : Nat} {r : CipherTick F} (h : (s.ticks as)[i]? = some r) :
    ∃ y, (s.core.steps ((s.ticks as).map CipherTick.inputs))[i]? = some y ∧
      (r.strobe = false → frozenPart r.out = shownFor y.2) := by
  induction as generalizing s i with
  | nil => cases h
  | cons a as ih =>
      cases a with
      | update key value =>
          rw [← core_update key value s]
          exact ih (s.update key value) h
      | tick view beat rate =>
          cases i with
          | zero =>
              cases h
              refine ⟨_, rfl, fun hstrobe => ?_⟩
              have hlow : s.strobeActive view = false := hstrobe
              have hreg : (s.tick view).2.outputReg = (s.core.step (s.inputs view)).2.reg := by
                rw [outputReg_tick, hlow, ← core_tick]
                rfl
              rw [← hreg]
              exact frozenPart_tick view s
          | succ i =>
              obtain ⟨y, hy, hr⟩ := ih (s.tick view).2 h
              rw [core_tick] at hy
              exact ⟨y, hy, hr⟩

/-- A first tick with the strobe high shows the output register as it is. -/
theorem frozenPart_first (s : Cipher F)
    (as : List (ModulatorCall String String (ModulatorOutput F) B F)) {r : CipherTick F}
    (h : (s.ticks as)[0]? = some r) (hstrobe : r.strobe = true) :
    frozenPart r.out = shownFor s.outputReg := by
  induction as generalizing s with
  | nil => cases h
  | cons a as ih =>
      cases a with
      | update key value =>
          rw [← outputReg_update key value s]
          exact ih (s.update key value) h
      | tick view beat rate =>
          cases h
          have hhigh : s.strobeActive view = true := hstrobe
          have hreg : (s.tick view).2.outputReg = s.outputReg := by
            rw [outputReg_tick, hhigh]
            rfl
          rw [← hreg]
          exact frozenPart_tick view s

/-- A later tick with the strobe high shows what the tick before it showed. -/
theorem frozenPart_next (s : Cipher F)
    (as : List (ModulatorCall String String (ModulatorOutput F) B F)) {i : Nat}
    {r r' : CipherTick F} (h : (s.ticks as)[i]? = some r) (h' : (s.ticks as)[i + 1]? = some r')
    (hstrobe : r'.strobe = true) : frozenPart r'.out = frozenPart r.out := by
  induction as generalizing s i with
  | nil => cases h
  | cons a as ih =>
      cases a with
      | update key value => exact ih (s.update key value) h h'
      | tick view beat rate =>
          cases i with
          | zero =>
              cases h
              exact (frozenPart_first (s.tick view).2 as h' hstrobe).trans
                (frozenPart_tick view s).symm
          | succ i => exact ih (s.tick view).2 h h'

/-- The SERIAL gates of a run are the bits that the core shifts out. -/
theorem gates_eq_steps (s : Cipher F)
    (as : List (ModulatorCall String String (ModulatorOutput F) B F)) :
    (s.ticks as).map (fun r => r.out.gate) =
      (s.core.steps ((s.ticks as).map CipherTick.inputs)).map Prod.fst := by
  induction as generalizing s with
  | nil => rfl
  | cons a as ih =>
      cases a with
      | update key value =>
          rw [← core_update key value s]
          exact ih (s.update key value)
      | tick view beat rate =>
          show _ :: _ = _ :: _
          rw [ih (s.tick view).2, core_tick]
          rfl

end Cipher

/-- Two runs whose ticks read the same clock and data have the same SERIAL gate, and show the same
    where the strobe is low in both; within a run a high strobe holds what is shown. -/
theorem strobe_hides_the_register (clockSrc data1Src data2Src strobeSrc : String)
    (clockSrc' data1Src' data2Src' strobeSrc' : String)
    (as as' : List (ModulatorCall String String (ModulatorOutput F) B F)) :
    let run := (Cipher.make clockSrc data1Src data2Src strobeSrc : Cipher F).ticks as
    let run' := (Cipher.make clockSrc' data1Src' data2Src' strobeSrc' : Cipher F).ticks as'
    (run.map CipherTick.inputs = run'.map CipherTick.inputs →
      run.map (fun r => r.out.gate) = run'.map (fun r => r.out.gate) ∧
      ∀ (i : Nat) (r r' : CipherTick F), run[i]? = some r → run'[i]? = some r' →
        r.strobe = false → r'.strobe = false → frozenPart r.out = frozenPart r'.out) ∧
    ∀ (i : Nat) (r r' : CipherTick F), run[i]? = some r → run[i + 1]? = some r' →
      r'.strobe = true → frozenPart r'.out = frozenPart r.out := by
  intro run run'
  refine ⟨fun hinputs => ⟨?_, ?_⟩, fun i r r' => Cipher.frozenPart_next _ as⟩
  · -- both runs drive the same core with the same inputs
    have hgates := Cipher.gates_eq_steps (Cipher.make clockSrc data1Src data2Src strobeSrc) as
    have hgates' := Cipher.gates_eq_steps (Cipher.make clockSrc' data1Src' data2Src' strobeSrc') as'
    exact hgates.trans ((congrArg (fun xs => (CipherCore.steps ⟨0, false⟩ xs).map Prod.fst)
      hinputs).trans hgates'.symm)
  · intro i r r' hr hr' hlow hlow'
    obtain ⟨y, hy, hshown⟩ := Cipher.ticks_refine _ as hr
    obtain ⟨y', hy', hshown'⟩ := Cipher.ticks_refine _ as' hr'
    have hsame : y = y' := by
      apply Option.some_inj.mp
      rw [← hy, ← hy']
      exact congrArg (fun xs => (CipherCore.steps ⟨0, false⟩ xs)[i]?) hinputs
    rw [hshown hlow, hshown' hlow', hsame]

end Ticks

section Exact

attribute [local instance] exactMath

/-- A bit is clocked in with the strobe low. -/
def openShift : List (ModulatorCall String String (ModulatorOutput ℚ) Unit ℚ) :=
  [.update "data1" 1, .update "clock_tick" 1, .tick (fun _ => none) () 1,
    .tick (fun _ => none) () 1]

/-- The same bit is clocked in with the strobe high, and shown at the next tick. -/
def hiddenShift : List (ModulatorCall String String (ModulatorOutput ℚ) Unit ℚ) :=
  [.update "data1" 1, .update "clock_tick" 1, .update "strobe" 1, .tick (fun _ => none) () 1,
    .update "strobe" 0, .tick (fun _ => none) () 1]

theorem strobe_hides_the_register_shift :
    ((Cipher.make "" "" "" "").ticks openShift).map CipherTick.inputs =
      ((Cipher.make "" "" "" "").ticks hiddenShift).map CipherTick.inputs ∧
    ((Cipher.make "" "" "" "").ticks openShift).map (fun r => r.strobe) = [false, false] ∧
    ((Cipher.make "" "" "" "").ticks hiddenShift).map (fun r => r.strobe) = [true, false] ∧
    ((Cipher.make "" "" "" "").ticks openShift).map (fun r => r.out.gate) =
      ((Cipher.make "" "" "" "").ticks hiddenShift).map (fun r => r.out.gate) := by
  have hinputs : ((Cipher.make "" "" "" "").ticks openShift).map CipherTick.inputs =
      ((Cipher.make "" "" "" "").ticks hiddenShift).map CipherTick.inputs := by
    decide +kernel
  refine ⟨hinputs, ?_, ?_, ?_⟩
  · decide +kernel
  · decide +kernel
  · exact ((strobe_hides_the_register "" "" "" "" "" "" "" "" openShift hiddenShift).1 hinputs).1

end Exact

end NomosRt.Modulator
