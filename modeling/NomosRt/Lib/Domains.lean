/-
  NomosRt.Lib.Domains

  Transducers that serve several domains.

  Each action belongs to at most one domain and each event to one; `sim d` relates the
  states that look the same from the domain `d`.  `Separated` is what has to be shown of
  a single step: an action neither changes what another domain sees nor has an event of
  it, and what it does in its own domain depends on what that domain sees.  A run then
  looks, from any domain, like the run of that domain's actions alone.
-/

import NomosRt.Lib.Trace

namespace NomosRt.Lib

/-- One step, seen from every domain; `δ` are the domains. -/
structure Separated {σ α ε δ : Type*} (step : σ → α → List ε × σ) (dom : α → Option δ)
    (owner : ε → δ) (sim : δ → σ → σ → Prop) : Prop where
  equiv : ∀ d, Equivalence (sim d)
  other : ∀ s a d, dom a ≠ some d → sim d (step s a).2 s ∧ ∀ e ∈ (step s a).1, owner e ≠ d
  own : ∀ s t a d, dom a = some d → sim d s t →
    (step s a).1 = (step t a).1 ∧ sim d (step s a).2 (step t a).2

namespace Separated

variable {σ α ε δ : Type*} [DecidableEq δ] {step : σ → α → List ε × σ} {dom : α → Option δ}
  {owner : ε → δ} {sim : δ → σ → σ → Prop}

/-- The events of an action are events of its domain. -/
theorem owner_of_mem (h : Separated step dom owner sim) {s : σ} {a : α} {d : δ}
    (hdom : dom a = some d) {e : ε} (he : e ∈ (step s a).1) : owner e = d := by
  by_contra hne
  have hother : dom a ≠ some (owner e) := by
    rw [hdom]
    exact fun heq => hne (Option.some.inj heq).symm
  exact (h.other s a (owner e) hother).2 e he rfl

/-- From a domain, a run looks like the run of its own actions, also from another state that looks
    the same. -/
theorem purge (h : Separated step dom owner sim) (d : δ) {s t : σ} (hst : sim d s t)
    (as : List α) :
    (Trace.events step s as).flatten.filter (owner · = d) =
        (Trace.events step t (as.filter (dom · = some d))).flatten ∧
      sim d (Trace.after step s as) (Trace.after step t (as.filter (dom · = some d))) := by
  induction as generalizing s t with
  | nil => exact ⟨rfl, hst⟩
  | cons a as ih =>
      rw [Trace.events, List.flatten_cons, List.filter_append]
      by_cases hdom : dom a = some d
      · obtain ⟨hevents, hsim⟩ := h.own s t a d hdom hst
        obtain ⟨ihevents, ihsim⟩ := ih hsim
        have hall : (step s a).1.filter (owner · = d) = (step s a).1 := by
          rw [List.filter_eq_self]
          exact fun e he => decide_eq_true (h.owner_of_mem hdom he)
        rw [List.filter_cons_of_pos (by simpa using hdom), Trace.events, List.flatten_cons, hall,
          ihevents, hevents]
        exact ⟨rfl, ihsim⟩
      · obtain ⟨hsim, hevents⟩ := h.other s a d hdom
        have hnone : (step s a).1.filter (owner · = d) = [] := by
          rw [List.filter_eq_nil_iff]
          exact fun e he => by simpa using hevents e he
        rw [List.filter_cons_of_neg (by simpa using hdom), hnone]
        exact ih ((h.equiv d).trans hsim hst)

/-- Two runs with the same actions of a domain look the same from it. -/
theorem agree (h : Separated step dom owner sim) (d : δ) {s t : σ} (hst : sim d s t)
    {as bs : List α} (hab : as.filter (dom · = some d) = bs.filter (dom · = some d)) :
    (Trace.events step s as).flatten.filter (owner · = d) =
        (Trace.events step t bs).flatten.filter (owner · = d) ∧
      sim d (Trace.after step s as) (Trace.after step t bs) := by
  obtain ⟨hevents, hsim⟩ := h.purge d hst as
  obtain ⟨hevents', hsim'⟩ := h.purge d ((h.equiv d).refl t) bs
  rw [hab] at hevents hsim
  exact ⟨hevents.trans hevents'.symm, (h.equiv d).trans hsim ((h.equiv d).symm hsim')⟩

end Separated

end NomosRt.Lib
