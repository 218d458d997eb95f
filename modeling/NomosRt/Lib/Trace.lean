/-
  NomosRt.Lib.Trace

  Transducers: a total step function that returns an event, and the events of a run.

  `between` is the rule for alternation.  A kind of event leads into a set of states, is
  impossible inside it, and only a second kind of event leaves it; then between two
  events of the first kind there is one of the second.

  `loop` is a `while` loop whose rounds record events, and `loop_total` its rule for total
  correctness.
-/

import Mathlib.Data.List.Basic

namespace NomosRt.Lib

namespace Trace

variable {σ α ε : Type*} (step : σ → α → ε × σ)

/-- The state behind a run. -/
def after (s : σ) (as : List α) : σ := as.foldl (fun s a => (step s a).2) s

/-- The events of a run. -/
def events (s : σ) : List α → List ε
  | [] => []
  | a :: as => (step s a).1 :: events (step s a).2 as

/-- `P` holds in every state of a run. -/
def Along (P : σ → Prop) (s : σ) : List α → Prop
  | [] => P s
  | a :: as => P s ∧ Along P (step s a).2 as

instance Along.decidable (P : σ → Prop) [DecidablePred P] (s : σ) (as : List α) :
    Decidable (Along step P s as) :=
  match as with
  | [] => inferInstanceAs (Decidable (P s))
  | a :: as =>
      have := Along.decidable P (step s a).2 as
      inferInstanceAs (Decidable (P s ∧ Along step P (step s a).2 as))

theorem events_append (s : σ) (as bs : List α) :
    events step s (as ++ bs) = events step s as ++ events step (after step s as) bs := by
  induction as generalizing s with
  | nil => rfl
  | cons a as ih => exact congrArg ((step s a).1 :: ·) (ih (step s a).2)

variable {step}

/-- The invariant rule. -/
theorem after_invariant {I : σ → Prop} {G : α → Prop} (hstep : ∀ s a, I s → G a → I (step s a).2)
    {s : σ} (hs : I s) {as : List α} (has : ∀ a ∈ as, G a) : I (after step s as) := by
  induction as generalizing s with
  | nil => exact hs
  | cons a as ih =>
      rw [List.forall_mem_cons] at has
      exact ih (hstep s a hs has.1) has.2

/-- From inside the set, the first kind of event is preceded by the second. -/
theorem exists_before {P : σ → Prop} {X Y : ε → Prop}
    (hblock : ∀ s a, P s → ¬ X (step s a).1)
    (hkeep : ∀ s a, P s → ¬ Y (step s a).1 → P (step s a).2)
    {s : σ} (hs : P s) {as : List α} {j : Nat} {e : ε} (he : (events step s as)[j]? = some e)
    (hX : X e) : ∃ k < j, ∃ e', (events step s as)[k]? = some e' ∧ Y e' := by
  induction as generalizing s j with
  | nil => cases he
  | cons a as ih =>
      cases j with
      | zero =>
          cases he
          exact absurd hX (hblock s a hs)
      | succ j =>
          by_cases hY : Y (step s a).1
          · exact ⟨0, Nat.succ_pos j, _, rfl, hY⟩
          · obtain ⟨k, hk, e', he', hYe'⟩ := ih (hkeep s a hs hY) he
            exact ⟨k + 1, Nat.succ_lt_succ hk, e', he', hYe'⟩

/-- The rule for alternation. -/
theorem between {P : σ → Prop} {X Y : ε → Prop}
    (henter : ∀ s a, X (step s a).1 → P (step s a).2)
    (hblock : ∀ s a, P s → ¬ X (step s a).1)
    (hkeep : ∀ s a, P s → ¬ Y (step s a).1 → P (step s a).2)
    (s : σ) (as : List α) {i j : Nat} (hij : i < j) {e e' : ε}
    (he : (events step s as)[i]? = some e) (hX : X e)
    (he' : (events step s as)[j]? = some e') (hX' : X e') :
    ∃ k, i < k ∧ k < j ∧ ∃ e'', (events step s as)[k]? = some e'' ∧ Y e'' := by
  induction as generalizing s i j with
  | nil => cases he
  | cons a as ih =>
      obtain ⟨j, rfl⟩ := Nat.exists_eq_add_of_lt (Nat.zero_lt_of_lt hij)
      rw [Nat.zero_add] at he' hij ⊢
      cases i with
      | zero =>
          cases he
          obtain ⟨k, hk, e'', he'', hY⟩ := exists_before hblock hkeep (henter s a hX) he' hX'
          exact ⟨k + 1, Nat.succ_pos k, Nat.succ_lt_succ hk, e'', he'', hY⟩
      | succ i =>
          obtain ⟨k, hik, hkj, e'', he'', hY⟩ := ih (step s a).2 (Nat.lt_of_succ_lt_succ hij) he he'
          exact ⟨k + 1, Nat.succ_lt_succ hik, Nat.succ_lt_succ hkj, e'', he'', hY⟩

/-! ## Loops -/

section Loop

variable (test : σ → Bool) (body : σ → List ε × σ)

/-- `while (test) body`, with the events of its rounds; `none` if `fuel` rounds are not enough. -/
def loop : Nat → σ → Option (List ε × σ)
  | 0, s => if test s then none else some ([], s)
  | fuel + 1, s =>
      if test s then (loop fuel (body s).2).map fun r => ((body s).1 ++ r.1, r.2)
      else some ([], s)

variable {test body}

theorem loop_end {s : σ} (htest : test s = false) (fuel : Nat) :
    loop test body fuel s = some ([], s) := by
  cases fuel <;> rw [loop, htest] <;> rfl

/-- A loop whose rounds keep an invariant of the events so far and the state, and make a variant
    smaller, ends within the variant. -/
theorem loop_total {I : List ε → σ → Prop} (variant : σ → Nat)
    (hbody : ∀ es s, test s = true → I es s →
      I (es ++ (body s).1) (body s).2 ∧ variant (body s).2 < variant s)
    {es : List ε} {s : σ} (hs : I es s) {fuel : Nat} (hfuel : variant s ≤ fuel) :
    ∃ es' s', loop test body fuel s = some (es', s') ∧ test s' = false ∧ I (es ++ es') s' := by
  induction fuel generalizing es s with
  | zero =>
      cases htest : test s with
      | true =>
          have hlt := (hbody es s htest hs).2
          omega
      | false => exact ⟨[], s, loop_end htest 0, htest, by rwa [List.append_nil]⟩
  | succ fuel ih =>
      cases htest : test s with
      | true =>
          obtain ⟨hnext, hlt⟩ := hbody es s htest hs
          obtain ⟨es', s', hloop, htest', hI⟩ := ih hnext (by omega)
          refine ⟨(body s).1 ++ es', s', ?_, htest', ?_⟩
          · rw [loop, htest, if_pos rfl, hloop]
            rfl
          · rwa [← List.append_assoc]
      | false => exact ⟨[], s, loop_end htest (fuel + 1), htest, by rwa [List.append_nil]⟩

end Loop

end Trace

end NomosRt.Lib
