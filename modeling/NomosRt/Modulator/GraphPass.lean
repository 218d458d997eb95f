/-
  NomosRt.Modulator.GraphPass

  The forward pass over nodes that refer only backwards.

  `tick` runs over a buffer that still holds the previous tick's values.  When
  every input of a node is -1 or an earlier node, no stale value is read: the
  pass is `evalCode`, which computes the values from nothing.
-/

import NomosRt.Modulator.Graph

namespace NomosRt.Modulator

open NomosRt.Lib CFloat

/-! ## Backward references -/

/-- An index that is -1 or names one of the first `bound` nodes. -/
def Refers (bound : Nat) (idx : Int) : Prop := idx = -1 ∨ (0 ≤ idx ∧ idx < bound)

theorem Refers.mono {a b : Nat} {idx : Int} (h : Refers a idx) (hab : a ≤ b) : Refers b idx := by
  rcases h with h | ⟨h0, hlt⟩
  · exact Or.inl h
  · exact Or.inr ⟨h0, by omega⟩

/-- Nodes placed at `base` refer only to nodes before them. -/
def Linked {F : Type*} (base : Nat) (nodes : List (CgNode F)) : Prop :=
  ∀ i n, nodes[i]? = some n → ∀ idx ∈ n.inputs, Refers (base + i) idx

section Links

variable {F : Type*}

theorem linked_nil (base : Nat) : Linked base ([] : List (CgNode F)) := by
  intro i n hn
  simp at hn

theorem linked_cons {base : Nat} {n : CgNode F} {ns : List (CgNode F)} :
    Linked base (n :: ns) ↔ (∀ idx ∈ n.inputs, Refers base idx) ∧ Linked (base + 1) ns := by
  constructor
  · intro h
    refine ⟨h 0 n rfl, ?_⟩
    intro i m hm idx hidx
    have hr := h (i + 1) m hm idx hidx
    rwa [show base + 1 + i = base + (i + 1) by omega]
  · rintro ⟨hn, hns⟩ i m hm idx hidx
    cases i with
    | zero =>
        obtain rfl : n = m := by simpa using hm
        exact hn idx hidx
    | succ i =>
        have hr := hns i m hm idx hidx
        rwa [show base + (i + 1) = base + 1 + i by omega]

theorem Linked.append {base : Nat} {as bs : List (CgNode F)} (ha : Linked base as)
    (hb : Linked (base + as.length) bs) : Linked base (as ++ bs) := by
  induction as generalizing base with
  | nil => simpa using hb
  | cons a as ih =>
      rw [linked_cons] at ha
      rw [List.cons_append, linked_cons]
      refine ⟨ha.1, ih ha.2 ?_⟩
      rwa [show base + 1 + as.length = base + (a :: as).length by simp; omega]

end Links

/-! ## The pass -/

section Pass

variable {D F : Type*} [CFloat F] [CNarrow D F]

/-- The pass over nodes placed behind `vals`: the nodes after it and all values. -/
def evalCode (env : TickEnv D F) : List (CgNode F) → List F → List (CgNode F) × List F
  | [], vals => ([], vals)
  | n :: ns, vals =>
      let (x, n') := evalNode env n vals
      let (ns', vals') := evalCode env ns (vals ++ [x])
      (n' :: ns', vals')

theorem evalCode_append (env : TickEnv D F) (as bs : List (CgNode F)) (vals : List F) :
    evalCode env (as ++ bs) vals =
      ((evalCode env as vals).1 ++ (evalCode env bs (evalCode env as vals).2).1,
        (evalCode env bs (evalCode env as vals).2).2) := by
  induction as generalizing vals with
  | nil => rfl
  | cons a as ih =>
      simp only [List.cons_append, evalCode]
      rw [ih]

theorem length_evalCode (env : TickEnv D F) (nodes : List (CgNode F)) (vals : List F) :
    (evalCode env nodes vals).1.length = nodes.length ∧
    (evalCode env nodes vals).2.length = vals.length + nodes.length := by
  induction nodes generalizing vals with
  | nil => exact ⟨rfl, rfl⟩
  | cons n ns ih =>
      obtain ⟨hnodes, hvals⟩ := ih (vals ++ [(evalNode env n vals).1])
      simp only [evalCode, List.length_cons]
      rw [hnodes, hvals, List.length_append, List.length_singleton]
      exact ⟨rfl, by omega⟩

/-- The values of later nodes go behind those that are there. -/
theorem evalCode_getElem?_of_lt (env : TickEnv D F) (nodes : List (CgNode F)) {vals : List F} {i : Nat}
    (hi : i < vals.length) : (evalCode env nodes vals).2[i]? = vals[i]? := by
  induction nodes generalizing vals with
  | nil => rfl
  | cons n ns ih =>
      simp only [evalCode]
      rw [ih (by rw [List.length_append]; omega), List.getElem?_append_left hi]

/-- Node `i` is evaluated on the values of the nodes before it. -/
theorem evalCode_getElem? (env : TickEnv D F) {nodes : List (CgNode F)} {i : Nat} {n : CgNode F}
    (hn : nodes[i]? = some n) (vals : List F) :
    (evalCode env nodes vals).2[vals.length + i]? =
      some (evalNode env n (evalCode env (nodes.take i) vals).2).1 ∧
    (evalCode env nodes vals).1[i]? =
      some (evalNode env n (evalCode env (nodes.take i) vals).2).2 := by
  induction nodes generalizing i vals with
  | nil => cases hn
  | cons m ns ih =>
      cases i with
      | zero =>
          obtain rfl : m = n := Option.some.inj hn
          simp only [evalCode, List.take_zero, List.getElem?_cons_zero, Nat.add_zero, and_true]
          rw [evalCode_getElem?_of_lt env ns (by simp)]
          simp
      | succ i =>
          obtain ⟨hval, hnode⟩ := ih hn (vals ++ [(evalNode env m vals).1])
          simp only [evalCode, List.take_succ_cons, List.getElem?_cons_succ]
          refine ⟨?_, hnode⟩
          rw [← hval]
          congr 1
          simp
          omega

theorem readIndex_neg (vals : List F) : readIndex vals (-1) = lit 0 := by
  simp [readIndex]

/-- A backward reference reads the same value whatever stands behind it. -/
theorem readIndex_append {vals : List F} {idx : Int} (h : Refers vals.length idx)
    (later : List F) : readIndex (vals ++ later) idx = readIndex vals idx := by
  rcases h with rfl | ⟨h0, hlt⟩
  · rw [readIndex_neg, readIndex_neg]
  · have hlong : idx < ((vals ++ later).length : Int) := by
      simp only [List.length_append]
      omega
    rw [readIndex, readIndex, if_pos ⟨h0, hlong⟩, if_pos ⟨h0, hlt⟩]
    rw [List.getD_append _ _ _ _ (by omega)]

/-- An input reads the same value whatever stands behind it. -/
theorem readIndex_input {n : CgNode F} {vals : List F} (h : ∀ idx ∈ n.inputs, Refers vals.length idx)
    (later : List F) (slot : Nat) : readIndex (vals ++ later) (n.inputs.getD slot (-1)) =
      readIndex vals (n.inputs.getD slot (-1)) := by
  apply readIndex_append
  rw [List.getD_eq_getElem?_getD]
  cases hidx : n.inputs[slot]? with
  | none => exact Or.inl rfl
  | some idx => exact h idx (List.mem_of_getElem? hidx)

theorem evalNode_append (env : TickEnv D F) {n : CgNode F} {vals : List F}
    (h : ∀ idx ∈ n.inputs, Refers vals.length idx) (later : List F) :
    evalNode env n (vals ++ later) = evalNode env n vals := by
  simp only [evalNode, readIndex_input h]

/-- A round with the buffer's old values behind the new ones. -/
theorem passRound_append (env : TickEnv D F) {n : CgNode F} {ns done : List (CgNode F)}
    {vals : List F} (h : ∀ idx ∈ n.inputs, Refers vals.length idx)
    (hdone : done.length = vals.length) (old : F) (stale : List F) :
    passRound env (done ++ n :: ns, vals ++ old :: stale) vals.length =
      (done ++ [(evalNode env n vals).2] ++ ns, vals ++ [(evalNode env n vals).1] ++ stale) := by
  simp [passRound, ← hdone, evalNode_append env h]

/-- The rounds from node `vals.length` on, with the buffer's old values behind
    the new ones. -/
theorem foldl_passRound (env : TickEnv D F) (todo done : List (CgNode F)) (vals stale : List F)
    (hdone : done.length = vals.length) (hstale : stale.length = todo.length)
    (hlink : Linked vals.length todo) :
    (List.range' vals.length todo.length).foldl (passRound env) (done ++ todo, vals ++ stale) =
      (done ++ (evalCode env todo vals).1, (evalCode env todo vals).2) := by
  induction todo generalizing done vals stale with
  | nil =>
      obtain rfl : stale = [] := List.length_eq_zero_iff.mp hstale
      simp [evalCode]
  | cons n ns ih =>
      obtain ⟨old, stale, rfl⟩ : ∃ old rest, stale = old :: rest := by
        cases stale with
        | nil => simp at hstale
        | cons old rest => exact ⟨old, rest, rfl⟩
      rw [linked_cons] at hlink
      rw [List.length_cons, List.range'_succ, List.foldl_cons, passRound_append env hlink.1 hdone]
      have hih := ih (done ++ [(evalNode env n vals).2]) (vals ++ [(evalNode env n vals).1]) stale
        (by simp [hdone]) (by simpa using hstale) (by simpa using hlink.2)
      rw [List.length_append, List.length_singleton] at hih
      rw [hih]
      simp [evalCode]

theorem forwardPass_eq_evalCode (env : TickEnv D F) {nodes : List (CgNode F)} {values : List F}
    (hlen : values.length = nodes.length) (hlink : Linked 0 nodes) :
    forwardPass env nodes values = evalCode env nodes [] := by
  have h := foldl_passRound env nodes [] [] values rfl hlen hlink
  rw [forwardPass, List.range_eq_range']
  exact h

end Pass

end NomosRt.Modulator
