/-
  NomosRt.Lib.Simulation

  A machine that does what another one may do.

  `event` says what a step shows of itself to whoever knows the other machine only, if it
  shows anything.  When every step is one of the other machine on the abstract states, or
  leaves these alone, then the events of a whole run are a run of the other machine
  (`Reached.simulates`).
-/

import NomosRt.Lib.Machine

namespace NomosRt.Lib.Machine

variable {σ τ α β : Type*} (m : Machine σ α)

/-- What a schedule shows. -/
def events (event : σ → α → Option β) (s : σ) : List α → List β
  | [] => []
  | a :: as =>
      (event s a).toList ++
        match m.step s a with
        | some s' => events event s' as
        | none => []

variable {m} {m' : Machine τ β} {G : σ → α → Prop} {event : σ → α → Option β} {as : List α} {s t : σ}

theorem run_singleton (s : σ) (a : α) : m.run s [a] = m.step s a := by
  simp [Machine.run]

theorem Reached.run (h : m.Reached G as s) : m.run m.start as = some s := by
  induction h with
  | start => rfl
  | step _ _ hs ih => exact run_append_of ih (by simp [Machine.run, hs])

theorem events_append (h : m.run s as = some t) (bs : List α) :
    m.events event s (as ++ bs) = m.events event s as ++ m.events event t bs := by
  induction as generalizing s with
  | nil =>
      cases h
      rfl
  | cons a as ih =>
      obtain ⟨s', hs', hrest⟩ := Option.bind_eq_some_iff.mp h
      simp only [List.cons_append, events, hs', ih hrest, List.append_assoc]

/-- The simulation rule. -/
theorem Reached.simulates {I : σ → Prop} {abs : σ → τ} (h : m.Reached G as s)
    (hstart : I m.start) (hstep : ∀ s a s', I s → G s a → m.step s a = some s' → I s')
    (habs : abs m.start = m'.start)
    (hsim : ∀ s a s', I s → G s a → m.step s a = some s' →
      m'.run (abs s) (event s a).toList = some (abs s')) :
    m'.run m'.start (m.events event m.start as) = some (abs s) := by
  induction h with
  | start => exact congrArg some habs.symm
  | @step as s a s' hreached hG hs ih =>
      have hlast : m.events event s [a] = (event s a).toList := by simp [events, hs]
      rw [events_append hreached.run, hlast]
      exact run_append_of ih (hsim s a s' (hreached.invariant hstart hstep) hG hs)

end NomosRt.Lib.Machine
