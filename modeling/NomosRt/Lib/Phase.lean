/-
  NomosRt.Lib.Phase

  Phase accumulators: a machine some of whose steps add an increment to a phase and
  then take one cycle off if the phase has left `[0, 1)`.

  One subtraction is enough exactly while phase and increment stay below two cycles.
-/

import NomosRt.Lib.Machine
import Mathlib.Data.Real.Basic
import Mathlib.Tactic.Linarith

namespace NomosRt.Lib

/-- In `[0, 1)`. -/
def InCycle (x : ℝ) : Prop := 0 ≤ x ∧ x < 1

open Classical in
/-- At most one cycle is taken off. -/
noncomputable def wrapOnce (x : ℝ) : ℝ := if 1 ≤ x then x - 1 else x

theorem wrapOnce_nonneg {x : ℝ} (hx : 0 ≤ x) : 0 ≤ wrapOnce x := by
  rw [wrapOnce]
  split_ifs <;> linarith

theorem inCycle_wrapOnce_iff {x : ℝ} (hx : 0 ≤ x) : InCycle (wrapOnce x) ↔ x < 2 := by
  have hlow := wrapOnce_nonneg hx
  rw [InCycle, and_iff_right hlow, wrapOnce]
  split_ifs
  · constructor <;> intro h <;> linarith
  · constructor <;> intro h <;> linarith

section Accumulators

variable {σ α : Type*}

/-- A machine that keeps a phase: a step leaves it alone or advances it by an increment
    that is not negative. -/
structure Accumulates (m : Machine σ α) (phase : σ → ℝ) (inc : σ → α → Option ℝ)
    (Inv : σ → Prop) : Prop where
  start : Inv m.start
  phase_start : InCycle (phase m.start)
  keeps : ∀ s a s', Inv s → m.step s a = some s' → Inv s'
  inc_nonneg : ∀ s a d, Inv s → inc s a = some d → 0 ≤ d
  idle : ∀ s a s', m.step s a = some s' → inc s a = none → phase s' = phase s
  advance : ∀ s a s' d, m.step s a = some s' → inc s a = some d →
    phase s' = wrapOnce (phase s + d)

/-- One subtraction takes the step back into the cycle. -/
def OnceEnough (phase : σ → ℝ) (inc : σ → α → Option ℝ) (s : σ) (a : α) : Prop :=
  ∀ d, inc s a = some d → phase s + d < 2

variable {m : Machine σ α} {phase : σ → ℝ} {inc : σ → α → Option ℝ} {Inv : σ → Prop}

/-- What a step from inside the cycle does. -/
theorem Accumulates.step_iff (h : Accumulates m phase inc Inv) {s s' : σ} {a : α} (hs : Inv s)
    (hphase : InCycle (phase s)) (hstep : m.step s a = some s') :
    InCycle (phase s') ↔ OnceEnough phase inc s a := by
  cases hinc : inc s a with
  | none =>
      rw [h.idle s a s' hstep hinc, iff_true_intro hphase, true_iff]
      intro d hd
      rw [hinc] at hd
      cases hd
  | some d =>
      have hsum : 0 ≤ phase s + d := add_nonneg hphase.1 (h.inc_nonneg s a d hs hinc)
      rw [h.advance s a s' d hstep hinc, inCycle_wrapOnce_iff hsum]
      constructor
      · intro hlt d' hd'
        rw [hinc, Option.some.injEq] at hd'
        rwa [← hd']
      · intro hd
        exact hd d hinc

theorem Accumulates.inv (h : Accumulates m phase inc Inv) {G : σ → α → Prop} {as : List α} {s : σ}
    (hr : m.Reached G as s) : Inv s :=
  hr.invariant h.start fun s a s' hs _ hstep => h.keeps s a s' hs hstep

/-- Along a run whose steps all need no more than one subtraction, the phase stays in the
    cycle. -/
theorem Accumulates.inCycle (h : Accumulates m phase inc Inv) {as : List α} {s : σ}
    (hr : m.Reached (OnceEnough phase inc) as s) : InCycle (phase s) := by
  have hboth : Inv s ∧ InCycle (phase s) := by
    apply hr.invariant ⟨h.start, h.phase_start⟩
    rintro s a s' ⟨hs, hphase⟩ hG hstep
    exact ⟨h.keeps s a s' hs hstep, (h.step_iff hs hphase hstep).mpr hG⟩
  exact hboth.2

end Accumulators

end NomosRt.Lib
