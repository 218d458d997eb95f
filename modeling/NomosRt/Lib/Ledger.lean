/-
  NomosRt.Lib.Ledger

  Things that move between places, and the lists that record where they are.

  `place` gives each thing its one place.  `Lists l P place` says that `l` lists,
  each once, the things whose place satisfies `P`.  When one thing moves, a list
  keeps, gains or loses it by what `P` says of its old and its new place; two lists
  of one ledger with exclusive `P`s are disjoint by definition.
-/

import Mathlib.Data.List.Nodup
import Mathlib.Logic.Function.Basic

namespace NomosRt.Lib

variable {α β : Type*}

/-- `l` lists the things at the places `P`, each once. -/
structure Lists (l : List α) (P : β → Prop) (place : α → β) : Prop where
  nodup : l.Nodup
  mem_iff : ∀ a, a ∈ l ↔ P (place a)

namespace Lists

variable [DecidableEq α] {l l' : List α} {P : β → Prop} {place : α → β} {a : α} {x : β}

/-- The move does not matter to `P`. -/
theorem keep (h : Lists l P place) (hsame : P x ↔ P (place a)) :
    Lists l P (Function.update place a x) := by
  refine ⟨h.nodup, fun b => ?_⟩
  rw [h.mem_iff]
  by_cases hb : b = a
  · rw [hb, Function.update_self]
    exact hsame.symm
  · rw [Function.update_of_ne hb]

/-- The move brings `a` to the places `P`. -/
theorem gain (h : Lists l P place) (hold : ¬ P (place a)) (hx : P x) :
    Lists (l ++ [a]) P (Function.update place a x) := by
  refine ⟨?_, fun b => ?_⟩
  · have hnot : a ∉ l := fun ha => hold ((h.mem_iff a).mp ha)
    rw [List.nodup_append]
    refine ⟨h.nodup, List.nodup_singleton a, ?_⟩
    intro b hb c hc hbc
    rw [List.mem_singleton] at hc
    exact hnot (hc ▸ hbc ▸ hb)
  · by_cases hb : b = a
    · rw [hb, Function.update_self]
      simp [hx]
    · rw [Function.update_of_ne hb, ← h.mem_iff]
      simp [hb]

/-- The move takes `a` from the places `P`. -/
theorem lose (h : Lists l P place) (hperm : l.Perm (a :: l')) (hx : ¬ P x) :
    Lists l' P (Function.update place a x) := by
  obtain ⟨hnot, hnodup⟩ := List.nodup_cons.mp (hperm.nodup_iff.mp h.nodup)
  refine ⟨hnodup, fun b => ?_⟩
  by_cases hb : b = a
  · rw [hb, Function.update_self]
    exact iff_of_false hnot hx
  · rw [Function.update_of_ne hb, ← h.mem_iff, hperm.mem_iff, List.mem_cons]
    simp [hb]

omit [DecidableEq α] in
/-- The nothing-listed list of a place nobody is at. -/
theorem nil (h : ∀ a, ¬ P (place a)) : Lists [] P place :=
  ⟨List.nodup_nil, fun a => iff_of_false List.not_mem_nil (h a)⟩

end Lists

end NomosRt.Lib
