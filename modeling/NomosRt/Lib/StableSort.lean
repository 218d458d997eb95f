/-
  NomosRt.Lib.StableSort

  A stable sort keeps the order of ties, in the form an event queue needs it:
  any relation that holds between tied elements in input order still does after
  the sort.  Cutting a list at the first element that fails a test is a filter
  when the test is downward closed along the list.
-/

import Mathlib.Data.List.Basic
import Mathlib.Data.List.Perm.Basic

namespace NomosRt.Lib

variable {α β : Type*}

/-- The positions of `l.zipIdx` are distinct. -/
theorem zipIdx_pairwise_snd_ne (l : List α) : l.zipIdx.Pairwise fun a b => a.2 ≠ b.2 := by
  rw [List.pairwise_iff_getElem]
  intro i j hi hj hij
  simp only [List.getElem_zipIdx]
  omega

/-- A stable sort keeps every relation between tied elements. -/
theorem pairwise_mergeSort_ties {le : α → α → Bool}
    (htrans : ∀ a b c, le a b = true → le b c = true → le a c = true)
    (htotal : ∀ a b, (le a b || le b a) = true) {r : α → α → Prop} {l : List α}
    (h : l.Pairwise fun a b => le b a = true → r a b) :
    (l.mergeSort le).Pairwise fun a b => le b a = true → r a b := by
  have hsorted := List.pairwise_mergeSort (List.zipIdxLE_trans htrans)
    (List.zipIdxLE_total htotal) l.zipIdx
  have hperm := List.mergeSort_perm l.zipIdx (List.zipIdxLE le)
  have hne : (l.zipIdx.mergeSort (List.zipIdxLE le)).Pairwise fun a b => a.2 ≠ b.2 := by
    refine (hperm.pairwise_iff ?_).mpr (zipIdx_pairwise_snd_ne l)
    intro a b hab
    exact hab.symm
  rw [← List.mergeSort_zipIdx, List.pairwise_map]
  refine (hsorted.and hne).imp_of_mem ?_
  rintro ⟨a, i⟩ ⟨b, j⟩ ha hb ⟨hle, hij⟩ hba
  -- tied elements come out in the order of their positions in `l`
  have hlt : i < j := by
    simp only at hba hij
    simp only [List.zipIdxLE] at hle
    by_cases hab : le a b = true
    · simp only [hab, hba, if_true, decide_eq_true_eq] at hle
      omega
    · simp [hab] at hle
  obtain ⟨hi, rfl⟩ : ∃ hi : i < l.length, l.get ⟨i, hi⟩ = a := by
    have := List.mem_zipIdx' (hperm.mem_iff.mp ha)
    exact ⟨this.1, by simpa using this.2.symm⟩
  obtain ⟨hj, rfl⟩ : ∃ hj : j < l.length, l.get ⟨j, hj⟩ = b := by
    have := List.mem_zipIdx' (hperm.mem_iff.mp hb)
    exact ⟨this.1, by simpa using this.2.symm⟩
  exact (List.pairwise_iff_getElem.mp h) i j hi hj hlt hba

/-- Sorting by a key commutes with an annotation the key does not look at. -/
theorem mergeSort_map_comp {le : β → β → Bool} (f : α → β) (l : List α) :
    (l.map f).mergeSort le = (l.mergeSort fun a b => le (f a) (f b)).map f := by
  symm
  apply List.map_mergeSort
  intro a _ b _
  rfl

section TakeWhile

variable {p : α → Bool} {l : List α}

/-- Along a list on which `p` is downward closed, `takeWhile` is `filter`. -/
theorem takeWhile_eq_filter (h : l.Pairwise fun a b => p b = true → p a = true) :
    l.takeWhile p = l.filter p := by
  induction l with
  | nil => rfl
  | cons a l ih =>
      rw [List.pairwise_cons] at h
      by_cases hp : p a = true
      · rw [List.takeWhile_cons_of_pos hp, List.filter_cons_of_pos hp, ih h.2]
      · rw [List.takeWhile_cons_of_neg hp, List.filter_cons_of_neg hp]
        symm
        rw [List.filter_eq_nil_iff]
        intro b hb hpb
        exact hp (h.1 b hb hpb)

/-- Along a list on which `p` is downward closed, `dropWhile` is the complementary
    `filter`. -/
theorem dropWhile_eq_filter (h : l.Pairwise fun a b => p b = true → p a = true) :
    l.dropWhile p = l.filter fun a => !p a := by
  induction l with
  | nil => rfl
  | cons a l ih =>
      rw [List.pairwise_cons] at h
      by_cases hp : p a = true
      · rw [List.dropWhile_cons_of_pos hp, List.filter_cons_of_neg (by simp [hp]), ih h.2]
      · rw [List.dropWhile_cons_of_neg hp, List.filter_cons_of_pos (by simp [hp])]
        congr 1
        symm
        rw [List.filter_eq_self]
        intro b hb
        by_contra hpb
        exact hp (h.1 b hb (by simpa using hpb))

end TakeWhile

end NomosRt.Lib
