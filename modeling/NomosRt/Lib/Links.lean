/-
  NomosRt.Lib.Links

  Chains whose links are made in two steps: a link is announced, and stored later.

  `link a n` says that the node `n` comes behind the place `a`, and `pend a n` that
  somebody is to store it; `fin` are the places nothing comes behind.  `Links` ties them
  to memory: what is linked is stored or pending, nothing pending is stored, and nothing
  is stored at an end.  A store that is pending never changes another link (`store`), a
  node is announced only at an end (`append`), and what is cut off must be stored
  (`restrict`).

  `succs` are the links of a list behind a place.
-/

import Mathlib.Data.List.Nodup
import Mathlib.Logic.Function.Basic

namespace NomosRt.Lib

/-- Memory and the links that are in it or on their way to it. -/
structure Links {P N : Type*} (next : P → Option N) (pend link : P → N → Prop) (fin : P → Prop) :
    Prop where
  made : ∀ a n, link a n → next a = some n ∨ next a = none ∧ pend a n
  pending : ∀ a n, pend a n → link a n ∧ next a = none
  unique : ∀ a n n', link a n → link a n' → n = n'
  last : ∀ a, fin a → next a = none
  notLast : ∀ a n, link a n → ¬ fin a

namespace Links

variable {P N : Type*} {next next' : P → Option N} {pend pend' link link' : P → N → Prop}
  {fin fin' : P → Prop}

/-- What is stored behind a place with a link is the link. -/
theorem eq_of_next (h : Links next pend link fin) {a : P} {n m : N} (hlink : link a n)
    (hnext : next a = some m) : m = n := by
  rcases h.made a n hlink with hmade | ⟨hnone, -⟩
  · exact Option.some.inj (hnext.symm.trans hmade)
  · rw [hnext] at hnone
    cases hnone

/-- A pending link is stored. -/
theorem store [DecidableEq P] (h : Links next pend link fin) {a : P} {n : N} (hp : pend a n)
    (hpend : ∀ a' n', pend' a' n' → pend a' n' ∧ ¬ (a' = a ∧ n' = n))
    (hpend' : ∀ a' n', pend a' n' → a' ≠ a → pend' a' n') :
    Links (Function.update next a (some n)) pend' link fin := by
  obtain ⟨hlink, -⟩ := h.pending a n hp
  refine ⟨fun a' n' hl => ?_, fun a' n' hp' => ?_, h.unique, fun a' ha' => ?_, h.notLast⟩
  · by_cases ha : a' = a
    · subst ha
      rw [Function.update_self, h.unique _ _ _ hl hlink]
      exact .inl rfl
    · rw [Function.update_of_ne ha]
      exact (h.made a' n' hl).imp_right fun hr => ⟨hr.1, hpend' a' n' hr.2 ha⟩
  · obtain ⟨hold, hne⟩ := hpend a' n' hp'
    obtain ⟨hl, hnone⟩ := h.pending a' n' hold
    have ha : a' ≠ a := by
      rintro rfl
      exact hne ⟨rfl, h.unique _ _ _ hl hlink⟩
    rw [Function.update_of_ne ha]
    exact ⟨hl, hnone⟩
  · have ha : a' ≠ a := by
      rintro rfl
      exact h.notLast _ _ hlink ha'
    rw [Function.update_of_ne ha]
    exact h.last a' ha'

/-- A node is announced behind an end and is an end itself. -/
theorem append (h : Links next pend link fin) {a b : P} {n : N} (ha : fin a) (hab : b ≠ a)
    (hb : next b = none) (hfree : ∀ m, ¬ link b m) :
    Links next (fun a' n' => pend a' n' ∨ a' = a ∧ n' = n)
      (fun a' n' => link a' n' ∨ a' = a ∧ n' = n) (fun a' => fin a' ∧ a' ≠ a ∨ a' = b) := by
  have hnone := h.last a ha
  refine ⟨?_, ?_, ?_, ?_, ?_⟩
  · rintro a' n' (hl | ⟨rfl, rfl⟩)
    · exact (h.made a' n' hl).imp_right fun hr => ⟨hr.1, .inl hr.2⟩
    · exact .inr ⟨hnone, .inr ⟨rfl, rfl⟩⟩
  · rintro a' n' (hp | ⟨rfl, rfl⟩)
    · exact ⟨.inl (h.pending a' n' hp).1, (h.pending a' n' hp).2⟩
    · exact ⟨.inr ⟨rfl, rfl⟩, hnone⟩
  · rintro a' n' n'' (hl | ⟨rfl, rfl⟩) (hl' | ⟨heq, rfl⟩)
    · exact h.unique a' n' n'' hl hl'
    · exact absurd (heq ▸ ha) (h.notLast a' n' hl)
    · exact absurd ha (h.notLast _ n'' hl')
    · rfl
  · rintro a' (⟨hf, -⟩ | rfl)
    · exact h.last a' hf
    · exact hb
  · rintro a' n' (hl | ⟨rfl, rfl⟩) hf
    · rcases hf with ⟨hf, -⟩ | rfl
      · exact h.notLast a' n' hl hf
      · exact hfree n' hl
    · rcases hf with ⟨-, hne⟩ | heq
      · exact hne rfl
      · exact hab heq.symm

/-- Links are cut off and memory outside those left changes. -/
theorem restrict (h : Links next pend link fin) (hold : ∀ a n, pend' a n → pend a n)
    (hlink : ∀ a n, link' a n → link a n ∧ next' a = next a)
    (hpend : ∀ a n, pend a n → pend' a n ∧ link' a n)
    (hlast : ∀ a, fin' a → next' a = none) (hnot : ∀ a n, link' a n → ¬ fin' a) :
    Links next' pend' link' fin' := by
  refine ⟨fun a n hl => ?_, fun a n hp => ?_, fun a n n' hl hl' => ?_, hlast, hnot⟩
  · obtain ⟨hlinked, heq⟩ := hlink a n hl
    rw [heq]
    exact (h.made a n hlinked).imp_right fun hr => ⟨hr.1, (hpend a n hr.2).1⟩
  · have hp' := hold a n hp
    have hl := (hpend a n hp').2
    rw [(hlink a n hl).2]
    exact ⟨hl, (h.pending a n hp').2⟩
  · exact h.unique a n n' (hlink a n hl).1 (hlink a n' hl').1

end Links

/-! ## The links of a list -/

section Succs

variable {N : Type*}

/-- The nodes of a list, each with the place before it. -/
def succs : Option N → List N → List (Option N × N)
  | _, [] => []
  | a, n :: l => (a, n) :: succs (some n) l

theorem succs_snoc (a : Option N) (l : List N) (n : N) :
    succs a (l ++ [n]) = succs a l ++ [(l.getLast?.or a, n)] := by
  induction l generalizing a with
  | nil => rfl
  | cons m l ih =>
      rw [List.cons_append, succs, succs, ih, List.cons_append]
      cases l with
      | nil => rfl
      | cons m' l => rfl

theorem fst_of_mem_succs {a x : Option N} {l : List N} {n : N} (h : (x, n) ∈ succs a l) :
    x = a ∨ ∃ m ∈ l, x = some m := by
  induction l generalizing a with
  | nil => cases h
  | cons m l ih =>
      rcases List.mem_cons.mp h with heq | h
      · cases heq
        exact .inl rfl
      · rcases ih h with rfl | ⟨m', hm', rfl⟩
        · exact .inr ⟨m, List.mem_cons_self .., rfl⟩
        · exact .inr ⟨m', List.mem_cons_of_mem _ hm', rfl⟩

theorem snd_of_mem_succs {a x : Option N} {l : List N} {n : N} (h : (x, n) ∈ succs a l) : n ∈ l := by
  induction l generalizing a with
  | nil => cases h
  | cons m l ih =>
      rcases List.mem_cons.mp h with heq | h
      · cases heq
        exact List.mem_cons_self ..
      · exact List.mem_cons_of_mem _ (ih h)

end Succs

end NomosRt.Lib
