/-
  NomosRt.Lib.Mutex

  A mutex and the threads that use it.

  `pc` gives each thread's position and `out` says which positions lie outside
  the locked region.  `Guarded` is the invariant a correct use keeps: a thread
  inside the region is the holder.  Taking a free mutex, moving inside and
  releasing on the way out each keep it.

  `Held` is the same for threads of several kinds, and in both directions: the
  holder is exactly the thread inside, so a mutex that is taken has a thread that
  can be asked to move.
-/

import Mathlib.Logic.Function.Basic

namespace NomosRt.Lib

/-- Every thread inside the locked region holds the mutex. -/
def Guarded {P S : Type*} (out : S → Prop) (mutex : Option P) (pc : P → S) : Prop :=
  ∀ p, ¬ out (pc p) → mutex = some p

namespace Guarded

variable {P S : Type*} {out : S → Prop} {mutex : Option P} {pc : P → S}

/-- At most one thread is inside. -/
theorem unique (h : Guarded out mutex pc) {p q : P} (hp : ¬ out (pc p)) (hq : ¬ out (pc q)) :
    p = q := by
  have hpq := h p hp
  rw [h q hq, Option.some.injEq] at hpq
  exact hpq.symm

variable [DecidableEq P]

/-- A thread other than the moved one is where it was. -/
theorem of_update (h : Guarded out mutex pc) {p q : P} {x : S}
    (hq : ¬ out (Function.update pc p x q)) : q = p ∨ mutex = some q := by
  by_cases hqp : q = p
  · exact .inl hqp
  · rw [Function.update_of_ne hqp] at hq
    exact .inr (h q hq)

/-- Taking a free mutex. -/
theorem acquire (h : Guarded out mutex pc) (hm : mutex = none) (p : P) (x : S) :
    Guarded out (some p) (Function.update pc p x) := by
  intro q hq
  rcases h.of_update hq with rfl | hmq
  · rfl
  · rw [hm] at hmq
    cases hmq

/-- Moving while holding it. -/
theorem move (h : Guarded out mutex pc) {p : P} (hm : mutex = some p) (x : S) :
    Guarded out mutex (Function.update pc p x) := by
  intro q hq
  rcases h.of_update hq with rfl | hmq
  · exact hm
  · exact hmq

/-- Releasing it on the way out. -/
theorem release (h : Guarded out mutex pc) {p : P} (hm : mutex = some p) {x : S} (hx : out x) :
    Guarded out none (Function.update pc p x) := by
  intro q hq
  rcases h.of_update hq with rfl | hmq
  · rw [Function.update_self] at hq
    exact absurd hx hq
  · rw [hm, Option.some.injEq] at hmq
    rw [hmq, Function.update_self] at hq
    exact absurd hx hq

end Guarded

/-- The holder is exactly the thread inside. -/
def Held {P : Type*} (mutex : Option P) (inside : P → Prop) : Prop :=
  ∀ p, mutex = some p ↔ inside p

namespace Held

variable {P : Type*} {mutex : Option P} {I J : P → Prop} {p : P}

/-- `p` moves and does not cross the border. -/
theorem keep (h : Held mutex I) (hother : ∀ q, q ≠ p → (J q ↔ I q)) (hp : J p ↔ I p) :
    Held mutex J := by
  intro q
  by_cases hq : q = p
  · rw [hq, hp]
    exact h p
  · rw [hother q hq]
    exact h q

/-- `p` enters through a free mutex. -/
theorem acquire (h : Held mutex I) (hm : mutex = none) (hother : ∀ q, q ≠ p → (J q ↔ I q))
    (hp : J p) : Held (some p) J := by
  intro q
  by_cases hq : q = p
  · rw [hq]
    exact iff_of_true rfl hp
  · rw [hother q hq, ← h q, hm, Option.some.injEq]
    exact iff_of_false (fun heq => hq heq.symm) (by simp)

/-- The holder leaves. -/
theorem release (h : Held mutex I) (hin : I p) (hother : ∀ q, q ≠ p → (J q ↔ I q))
    (hp : ¬ J p) : Held none J := by
  intro q
  by_cases hq : q = p
  · rw [hq]
    exact iff_of_false (by simp) hp
  · rw [hother q hq, ← h q, (h p).mpr hin, Option.some.injEq]
    exact iff_of_false (by simp) fun heq => hq heq.symm

/-- Only the holder is inside. -/
theorem eq_of_inside (h : Held mutex I) (hm : mutex = some p) {q : P} (hq : I q) : q = p := by
  have hmq := (h q).mpr hq
  rw [hm, Option.some.injEq] at hmq
  exact hmq.symm

end Held

end NomosRt.Lib
