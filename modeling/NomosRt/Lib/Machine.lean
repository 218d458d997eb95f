/-
  NomosRt.Lib.Machine

  Labelled machines and their runs.

  A machine is a start state and a partial step function.  An action carries
  every choice of the scheduler and the environment, so a schedule is a list of
  actions and a run is a fold.  A *guarded* run is one whose steps all meet a
  condition on the state before the step; the guard `free` admits every run.

  Safety results are proved once per machine by `Reached.invariant`: an
  invariant of the start state that every guarded step keeps holds in every
  state reached.

  `CanReach A D s` says that actions of a class `A` alone lead from `s` to a state
  in `D`.  A rank that some action of the class always lowers proves it
  (`canReach_of_rank`); a set outside `D` that no action of the class leaves
  refutes it (`not_canReach_of_trap`).
-/

import Mathlib.Data.List.Basic

namespace NomosRt.Lib

/-- A start state and a partial step function; `none` means the action is not
    enabled. -/
structure Machine (σ α : Type*) where
  start : σ
  step : σ → α → Option σ

namespace Machine

variable {σ α : Type*} (m : Machine σ α)

/-- The guard that admits every step. -/
def free : σ → α → Prop := fun _ _ => True

/-- Run a schedule from `s`. -/
def run (s : σ) : List α → Option σ
  | [] => some s
  | a :: as => (m.step s a).bind fun s' => run s' as

/-- Run a schedule from `s`, stopping at the first step that breaks the guard. -/
def runIf (G : σ → α → Prop) [∀ s a, Decidable (G s a)] (s : σ) : List α → Option σ
  | [] => some s
  | a :: as => if G s a then (m.step s a).bind fun s' => runIf G s' as else none

/-- `Reached G as s`: the schedule `as` leads from the start state to `s`, and
    each of its steps meets `G` in the state before it. -/
inductive Reached (G : σ → α → Prop) : List α → σ → Prop where
  | start : Reached G [] m.start
  | step {as : List α} {s : σ} {a : α} {s' : σ} :
      Reached G as s → G s a → m.step s a = some s' → Reached G (as ++ [a]) s'

variable {m}

/-- The invariant rule. -/
theorem Reached.invariant {G : σ → α → Prop} {I : σ → Prop}
    (hstart : I m.start)
    (hstep : ∀ s a s', I s → G s a → m.step s a = some s' → I s')
    {as : List α} {s : σ} (h : m.Reached G as s) : I s := by
  induction h with
  | start => exact hstart
  | step _ hG hs ih => exact hstep _ _ _ ih hG hs

/-- The last step of a schedule. -/
theorem Reached.of_snoc {G : σ → α → Prop} {as : List α} {a : α} {s' : σ}
    (h : m.Reached G (as ++ [a]) s') :
    ∃ s, m.Reached G as s ∧ G s a ∧ m.step s a = some s' := by
  generalize hbs : as ++ [a] = bs at h
  cases h with
  | start => exact absurd hbs (by simp)
  | step hprev hG hstep =>
      obtain ⟨rfl, hlast⟩ := List.append_inj' hbs rfl
      cases hlast
      exact ⟨_, hprev, hG, hstep⟩

/-- A schedule leads to one state. -/
theorem Reached.unique {G : σ → α → Prop} {as : List α} {s t : σ} (hs : m.Reached G as s)
    (ht : m.Reached G as t) : s = t := by
  induction hs generalizing t with
  | start =>
      generalize hnil : ([] : List α) = as at ht
      cases ht with
      | start => rfl
      | step => exact absurd hnil (by simp)
  | step _ _ hstep ih =>
      obtain ⟨u, hu, -, hstep'⟩ := ht.of_snoc
      rw [← ih hu, hstep, Option.some.injEq] at hstep'
      exact hstep'

theorem Reached.run_append {G : σ → α → Prop} [∀ s a, Decidable (G s a)]
    {as bs : List α} {s t : σ} (h : m.Reached G as s)
    (hr : m.runIf G s bs = some t) : m.Reached G (as ++ bs) t := by
  induction bs generalizing as s with
  | nil =>
      simp only [runIf, Option.some.injEq] at hr
      subst hr
      simpa using h
  | cons b bs ih =>
      simp only [runIf] at hr
      by_cases hb : G s b
      · rw [if_pos hb] at hr
        obtain ⟨u, hu, hrest⟩ := Option.bind_eq_some_iff.mp hr
        have hnext := ih (.step h hb hu) hrest
        simpa using hnext
      · rw [if_neg hb] at hr
        exact absurd hr (by simp)

/-- Runs compose. -/
theorem run_append_of {as bs : List α} {s t u : σ} (hs : m.run s as = some t)
    (ht : m.run t bs = some u) : m.run s (as ++ bs) = some u := by
  induction as generalizing s with
  | nil =>
      simp only [run, Option.some.injEq] at hs
      subst hs
      exact ht
  | cons a as ih =>
      simp only [run] at hs
      obtain ⟨s₁, hstep, hrest⟩ := Option.bind_eq_some_iff.mp hs
      simp only [List.cons_append, run, hstep, Option.bind_some]
      exact ih hrest

/-- A guarded run computed by `runIf` is reached. -/
theorem reached_of_runIf {G : σ → α → Prop} [∀ s a, Decidable (G s a)]
    {as : List α} {s : σ} (h : m.runIf G m.start as = some s) : m.Reached G as s := by
  simpa using Reached.run_append (m := m) (G := G) .start h

instance (s : σ) (a : α) : Decidable (free s a) := .isTrue trivial

theorem runIf_free (s : σ) (as : List α) : m.runIf free s as = m.run s as := by
  induction as generalizing s with
  | nil => rfl
  | cons a as ih =>
      simp only [runIf, run, free]
      cases m.step s a with
      | none => rfl
      | some u => exact ih u

/-- A run computed by `run` is reached by an unguarded schedule. -/
theorem reached_of_run {as : List α} {s : σ} (h : m.run m.start as = some s) :
    m.Reached free as s :=
  reached_of_runIf (by rw [runIf_free]; exact h)

/-! ## Reaching a state by some of the actions -/

variable (m) in
/-- Actions in `A` lead from `s` to a state in `D`. -/
def CanReach (A : α → Prop) (D : σ → Prop) (s : σ) : Prop :=
  ∃ as, (∀ a ∈ as, A a) ∧ ∃ t, m.run s as = some t ∧ D t

variable {A : α → Prop} {D : σ → Prop} {s : σ}

/-- The first action on the way. -/
theorem CanReach.enabled (h : m.CanReach A D s) (hs : ¬ D s) :
    ∃ a, A a ∧ (m.step s a).isSome := by
  obtain ⟨as, hA, t, hrun, hD⟩ := h
  rcases as with _ | ⟨a, as⟩
  · exact absurd (Option.some.inj hrun ▸ hD) hs
  · refine ⟨a, hA a (List.mem_cons_self ..), ?_⟩
    obtain ⟨s', hs', -⟩ := Option.bind_eq_some_iff.mp hrun
    rw [hs']
    rfl

theorem CanReach.trans {E : σ → Prop} (h : m.CanReach A D s)
    (hnext : ∀ t, D t → m.CanReach A E t) : m.CanReach A E s := by
  obtain ⟨as, hA, t, hrun, hD⟩ := h
  obtain ⟨bs, hB, u, hrun', hE⟩ := hnext t hD
  refine ⟨as ++ bs, fun a ha => ?_, u, run_append_of hrun hrun', hE⟩
  rcases List.mem_append.mp ha with ha | ha
  · exact hA a ha
  · exact hB a ha

theorem canReach_of_rank {I : σ → Prop} (rank : σ → Nat)
    (hstep : ∀ s, I s → ¬ D s → ∃ a s', A a ∧ m.step s a = some s' ∧ I s' ∧ rank s' < rank s)
    (hI : I s) : m.CanReach A D s := by
  induction hn : rank s using Nat.strongRecOn generalizing s with
  | ind n ih =>
      by_cases hD : D s
      · exact ⟨[], by simp, s, rfl, hD⟩
      · obtain ⟨a, s', hA, hs', hI', hlt⟩ := hstep s hI hD
        obtain ⟨as, hAs, t, hrun, hDt⟩ := ih (rank s') (hn ▸ hlt) hI' rfl
        refine ⟨a :: as, ?_, t, ?_, hDt⟩
        · intro b hb
          rcases List.mem_cons.mp hb with rfl | hb
          · exact hA
          · exact hAs b hb
        · simp only [run, hs', Option.bind_some]
          exact hrun

theorem CanReach.here (hD : D s) : m.CanReach A D s := ⟨[], by simp, s, rfl, hD⟩

theorem CanReach.step {a : α} {t : σ} (hA : A a) (hs : m.step s a = some t)
    (h : m.CanReach A D t) : m.CanReach A D s :=
  CanReach.trans (D := (· = t)) ⟨[a], by simpa using hA, t, by simp [run, hs], rfl⟩
    fun _ ht => ht ▸ h

/-- The rank rule for stretches of several actions. -/
theorem canReach_of_stretch {I : σ → Prop} (rank : σ → Nat)
    (hstretch : ∀ s, I s → ¬ D s → m.CanReach A (fun t => I t ∧ rank t < rank s) s) (hI : I s) :
    m.CanReach A D s := by
  induction hn : rank s using Nat.strongRecOn generalizing s with
  | ind n ih =>
      by_cases hD : D s
      · exact .here hD
      · exact (hstretch s hI hD).trans fun t ht => ih (rank t) (hn ▸ ht.2) ht.1 rfl

theorem not_canReach_of_trap {T : σ → Prop} (hD : ∀ s, T s → ¬ D s)
    (hstep : ∀ s a s', T s → A a → m.step s a = some s' → T s') (hT : T s) :
    ¬ m.CanReach A D s := by
  rintro ⟨as, hA, t, hrun, hDt⟩
  induction as generalizing s with
  | nil => exact hD s hT (Option.some.inj hrun ▸ hDt)
  | cons a as ih =>
      obtain ⟨s', hs', hrest⟩ := Option.bind_eq_some_iff.mp hrun
      exact ih (hstep s a s' hT (hA a (List.mem_cons_self ..)) hs')
        (fun b hb => hA b (List.mem_cons_of_mem _ hb)) hrest

end Machine

end NomosRt.Lib
