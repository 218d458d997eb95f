/-
  NomosRt.Modulator.GraphCode

  The node array of an expression, as a function of where it is placed.

  `parse_node` appends to the array it is given.  `code` says what it appends:
  the nodes of an expression whose first node lands at `base`, each with the
  state its position has in a `Cell`.  `parseNode` appends the code with zero
  states, and a forward pass over code turns it into the code of the next cell,
  so one description serves the parser and every later tick.
-/

import NomosRt.Modulator.GraphRef

namespace NomosRt.Modulator

open NomosRt.Lib CFloat

/-! ## Code -/

/-- The index of an expression and its nodes, placed at `base` with the states
    of a cell. -/
abbrev Code (F : Type*) := Nat → Cell F → Int × List (CgNode F)

section Code

variable {D F : Type*} [CFloat F] [CNarrow D F]

/-- No expression: no nodes, index -1. -/
def Code.empty : Code F := fun _ _ => (-1, [])

/-- A single constant. -/
def Code.const (x : F) : Code F := fun base _ => (base, [constNode x])

/-- The code of operand `i`. -/
def codeOperand (kids : List (Code F)) (i : Nat) (dflt : Option ℚ) : Code F :=
  match kids[i]?, dflt with
  | some kid, _ => kid
  | none, none => Code.empty
  | none, some x => Code.const (lit x)

/-- The code of the operands from operand `i` on, one behind the other. -/
def codeOperands (kids : List (Code F)) :
    Nat → List (Option ℚ) → Nat → Cell F → List Int × List (CgNode F)
  | _, [], _, _ => ([], [])
  | i, dflt :: specs, base, σ =>
      let here := codeOperand kids i dflt base (σ.sub i)
      let rest := codeOperands kids (i + 1) specs (base + here.2.length) σ
      (here.1 :: rest.1, here.2 ++ rest.2)

/-- An operator behind its operands. -/
def OpShape.code (sh : OpShape F) (kids : List (Code F)) : Code F := fun base σ =>
  let ins := codeOperands kids 0 sh.operands base σ
  ((base + ins.2.length : Nat), ins.2 ++ [sh.node ins.1 (σ [])])

/-- The code of a vector. -/
def codeVector (items : List (Edn D)) (kids : List (Code F)) : Code F :=
  match items with
  | .keyword op :: _ =>
      match opShape op items with
      | none => Code.empty
      | some sh => sh.code kids
  | _ => Code.empty

mutual

/-- The code of a value. -/
def code : Edn D → Code F
  | .double x => Code.const (CNarrow.narrow x)
  | .int n => Code.const (CFloat.ofInt n)
  | .vector items => codeVector items (codes items).tail
  | _ => Code.empty

def codes : List (Edn D) → List (Code F)
  | [] => []
  | v :: vs => code v :: codes vs

end

/-! ### The item lists are maps -/

theorem parseNodes_eq_map (vs : List (Edn D)) :
    parseNodes vs = vs.map (parseNode (F := F)) := by
  induction vs with
  | nil => rfl
  | cons v vs ih => rw [parseNodes, ih, List.map_cons]

theorem codes_eq_map (vs : List (Edn D)) : codes vs = vs.map (code (F := F)) := by
  induction vs with
  | nil => rfl
  | cons v vs ih => rw [codes, ih, List.map_cons]

theorem interps_eq_map (vs : List (Edn D)) : interps vs = vs.map (interp (F := F)) := by
  induction vs with
  | nil => rfl
  | cons v vs ih => rw [interps, ih, List.map_cons]

/-! ## The parser appends code -/

/-- `p` appends the code `k`, with every state 0. -/
def Parses (p : NodeParser F) (k : Code F) : Prop :=
  ∀ g, p g = ((k g.length Cell.zero).1, g ++ (k g.length Cell.zero).2)

theorem parses_empty : Parses (fun g => (-1, g)) (Code.empty (F := F)) := by
  intro g
  simp [Code.empty]

theorem parses_const (x : F) : Parses (fun g => pushNode g (constNode x)) (Code.const x) :=
  fun _ => rfl

/-- One operand, `child` or `child_or_const` by its default. -/
def parseOperand (kids : List (NodeParser F)) (i : Nat) : Option ℚ → NodeParser F
  | none => child kids i
  | some dflt => childOrConst kids i dflt

theorem parseOperands_cons (kids : List (NodeParser F)) (i : Nat) (dflt : Option ℚ)
    (specs : List (Option ℚ)) (g : List (CgNode F)) :
    parseOperands kids i (dflt :: specs) g =
      ((parseOperand kids i dflt g).1 ::
          (parseOperands kids (i + 1) specs (parseOperand kids i dflt g).2).1,
        (parseOperands kids (i + 1) specs (parseOperand kids i dflt g).2).2) := by
  cases dflt <;> rfl

section Operands

variable {ι : Type*} {xs : List ι} {p : ι → NodeParser F} {k : ι → Code F}

theorem parses_operand (h : ∀ x ∈ xs, Parses (p x) (k x)) (i : Nat) (dflt : Option ℚ) :
    Parses (parseOperand (xs.map p) i dflt) (codeOperand (xs.map k) i dflt) := by
  intro g
  cases hx : xs[i]? with
  | some x =>
      have hp := h x (List.mem_of_getElem? hx) g
      cases dflt <;>
        simpa [parseOperand, child, childOrConst, codeOperand, List.getElem?_map, hx] using hp
  | none =>
      cases dflt with
      | none => simp [parseOperand, child, codeOperand, List.getElem?_map, hx, Code.empty]
      | some x =>
          simp [parseOperand, childOrConst, codeOperand, List.getElem?_map, hx, Code.const,
            pushNode]

theorem parses_operands (h : ∀ x ∈ xs, Parses (p x) (k x)) (i : Nat) (specs : List (Option ℚ))
    (g : List (CgNode F)) :
    parseOperands (xs.map p) i specs g =
      ((codeOperands (xs.map k) i specs g.length Cell.zero).1,
        g ++ (codeOperands (xs.map k) i specs g.length Cell.zero).2) := by
  induction specs generalizing i g with
  | nil => simp [parseOperands, codeOperands]
  | cons dflt specs ih =>
      rw [parseOperands_cons, parses_operand h i dflt g, ih]
      -- the rest is placed behind what the first operand appended
      simp only [List.length_append, List.append_assoc]
      rfl

end Operands

theorem parses_vector (items : List (Edn D))
    (h : ∀ v ∈ items, Parses (parseNode (F := F) v) (code v)) :
    Parses (parseNode (F := F) (.vector items)) (code (.vector items)) := by
  intro g
  rw [parseNode, code, parseNodes_eq_map, codes_eq_map]
  rw [← List.map_tail, ← List.map_tail]
  have htail : ∀ v ∈ items.tail, Parses (parseNode (F := F) v) (code v) :=
    fun v hv => h v (List.mem_of_mem_tail hv)
  unfold parseVector
  split
  · next op rest =>
    rw [codeVector]
    cases hsh : opShape (F := F) op (.keyword op :: rest) with
    | none => exact parses_empty g
    | some sh =>
        simp only [parses_operands htail, OpShape.code, pushNode, List.length_append,
          List.append_assoc]
        rfl
  · next hop =>
    rw [codeVector.eq_2 _ _ hop]
    exact parses_empty g

theorem parses_code (v : Edn D) : Parses (parseNode (F := F) v) (code v) := by
  refine Edn.vectorRec_value (P := fun v => Parses (parseNode (F := F) v) (code v))
    parses_vector ?_ v
  intro v hv
  cases v with
  | double x => exact parses_const _
  | int n => exact parses_const _
  | vector items => exact absurd rfl (hv items)
  | _ => exact parses_empty

end Code

end NomosRt.Modulator
