/-
  NomosRt.Modulator.GraphCorrect

  The compiled graph computes what the reference interpreter computes.

  `Computes k m` relates code to a meaning: a pass over the code, placed behind
  any values, leaves the code of the next cell and puts the meaning's value at
  the code's index.  It is proved for every expression by induction through
  vectors; a run then keeps the nodes of the modulator equal to the code of the
  reference's cell.
-/

import NomosRt.Modulator.GraphCode
import NomosRt.Modulator.GraphPass

namespace NomosRt.Modulator

open NomosRt.Lib CFloat

section Correct

variable {D F : Type*} [CFloat F] [CNarrow D F]

/-! ## Operators -/

theorem fieldArg_lt (items : List (Edn D)) : fieldArg items < 4 := by
  unfold fieldArg
  split <;> decide

theorem keywordAt_one (items : List (Edn D)) : (keywordAt items 1).getD "" = namedBy items := by
  rcases items with _ | ⟨head, _ | ⟨v, rest⟩⟩
  · rfl
  · rfl
  · cases v <;> rfl

theorem keywordAt_two (items : List (Edn D)) : keywordAt items 2 = namedOutput items := by
  rcases items with _ | ⟨head, _ | ⟨name, _ | ⟨v, rest⟩⟩⟩
  · rfl
  · rfl
  · rfl
  · cases v <;> rfl

omit [CNarrow D F] in
/-- The field `:mod-out` numbers is the one its keyword names. -/
theorem modField_fieldArg (out : ModulatorOutput F) (items : List (Edn D)) :
    modField out (toInt (lit (fieldArg items) : F)) = namedField out (namedOutput items) := by
  rw [toInt_lit _ (fieldArg_lt items), ← keywordAt_two]
  unfold fieldArg
  generalize keywordAt items 2 = field
  split
  case h_4 => simp_all [modField, namedField]
  all_goals rfl

/-- The parser's and the interpreter's table have the same operators, with the
    same operands, and `eval_node` on the parsed node applies the operator. -/
theorem opShape_opMeaning (op : String) (items : List (Edn D)) :
    (opShape (F := F) op items = none ∧ opMeaning (F := F) op items = none) ∨
    ∃ (sh : OpShape F) (om : OpMeaning D F),
      opShape op items = some sh ∧ opMeaning op items = some om ∧
      om.operands = sh.operands ∧
      ∀ env inputs st x, evalOp env (sh.node inputs st) x = om.apply env x st := by
  unfold opShape opMeaning
  split
  case h_2 =>
    refine Or.inr ⟨_, _, rfl, rfl, rfl, ?_⟩
    intro env inputs st x
    simp only [OpShape.node, evalOp, OpMeaning.pure, keywordAt_one]
  case h_3 =>
    refine Or.inr ⟨_, _, rfl, rfl, rfl, ?_⟩
    intro env inputs st x
    simp only [OpShape.node, evalOp, OpMeaning.pure, keywordAt_one]
    split <;> simp_all [modField_fieldArg]
  case h_5 =>
    -- the guard stands around the returned pair in `eval_node`
    refine Or.inr ⟨_, _, rfl, rfl, rfl, ?_⟩
    intro env inputs st x
    simp only [OpShape.node, OpShape.plain, evalOp, OpMeaning.pure]
    split <;> rfl
  case h_23 =>
    left
    simp_all
  all_goals
    exact Or.inr ⟨_, _, rfl, rfl, rfl, fun _ _ _ _ => rfl⟩

/-! ## Code and meaning -/

/-- The code `k` computes `m`. -/
structure Computes (k : Code F) (m : Option (Meaning D F)) : Prop where
  /-- The layout does not depend on the states. -/
  index : ∀ base σ τ, (k base σ).1 = (k base τ).1
  length : ∀ base σ τ, (k base σ).2.length = (k base τ).2.length
  linked : ∀ base σ, Linked base (k base σ).2
  refers : ∀ base σ, Refers (base + (k base σ).2.length) (k base σ).1
  isSome : ∀ base σ, 0 ≤ (k base σ).1 ↔ m.isSome
  /-- A pass leaves the code of the next cell, and the value at the index. -/
  pass : ∀ env σ vals, ∃ ys, ys.length = (k vals.length σ).2.length ∧
    evalCode env (k vals.length σ).2 vals =
      ((k vals.length (Meaning.orZero m env σ).2).2, vals ++ ys) ∧
    readIndex (vals ++ ys) (k vals.length σ).1 = (Meaning.orZero m env σ).1

theorem computes_empty : Computes (D := D) (F := F) Code.empty none where
  index := fun _ _ _ => rfl
  length := fun _ _ _ => rfl
  linked := fun base _ => linked_nil base
  refers := fun _ _ => Or.inl rfl
  isSome := by simp [Code.empty]
  pass := by
    intro env σ vals
    refine ⟨[], rfl, ?_, ?_⟩
    · simp [Code.empty, evalCode]
    · exact readIndex_neg _

omit [CNarrow D F] in
theorem readIndex_length (vals : List F) (x : F) (later : List F) :
    readIndex (vals ++ x :: later) vals.length = x := by
  have hlt : (vals.length : Int) < (vals ++ x :: later).length := by
    simp only [List.length_append, List.length_cons]
    omega
  rw [readIndex, if_pos ⟨by omega, hlt⟩]
  simp [List.getD_eq_getElem?_getD]

theorem computes_const (x : F) :
    Computes (D := D) (Code.const x) (some fun _ σ => (x, σ)) where
  index := fun _ _ _ => rfl
  length := fun _ _ _ => rfl
  linked := by
    intro base σ
    rw [show (Code.const x base σ).2 = [constNode x] from rfl, linked_cons]
    refine ⟨?_, linked_nil _⟩
    intro idx hidx
    simp [constNode] at hidx
  refers := by
    intro base σ
    refine Or.inr ⟨?_, ?_⟩ <;> simp only [Code.const, List.length_singleton] <;> omega
  isSome := by simp [Code.const]
  pass := by
    intro env σ vals
    refine ⟨[x], rfl, rfl, ?_⟩
    exact readIndex_length vals x []

/-! ## Operands -/

section Operands

variable {ι : Type*} {xs : List ι} {k : ι → Code F} {m : ι → Option (Meaning D F)}

theorem computes_operand (h : ∀ x ∈ xs, Computes (k x) (m x)) (i : Nat) (dflt : Option ℚ) :
    Computes (codeOperand (xs.map k) i dflt) (operand (xs.map m) i dflt) := by
  unfold codeOperand operand
  rw [List.getElem?_map, List.getElem?_map]
  cases hx : xs[i]? with
  | some x => exact h x (List.mem_of_getElem? hx)
  | none =>
      cases dflt with
      | none => exact computes_empty
      | some q => exact computes_const (lit q)

theorem codeOperands_layout (h : ∀ x ∈ xs, Computes (k x) (m x)) (i : Nat)
    (specs : List (Option ℚ)) (base : Nat) (σ τ : Cell F) :
    (codeOperands (xs.map k) i specs base σ).1 = (codeOperands (xs.map k) i specs base τ).1 ∧
    (codeOperands (xs.map k) i specs base σ).2.length =
      (codeOperands (xs.map k) i specs base τ).2.length := by
  induction specs generalizing i base with
  | nil => exact ⟨rfl, rfl⟩
  | cons dflt specs ih =>
      have c := computes_operand h i dflt
      have hlen := c.length base (σ.sub i) (τ.sub i)
      obtain ⟨hidx, hrest⟩ :=
        ih (i + 1) (base + (codeOperand (xs.map k) i dflt base (τ.sub i)).2.length)
      simp only [codeOperands, List.length_append, hlen, c.index base (σ.sub i) (τ.sub i), hidx,
        hrest, and_self]

theorem codeOperands_linked (h : ∀ x ∈ xs, Computes (k x) (m x)) (i : Nat)
    (specs : List (Option ℚ)) (base : Nat) (σ : Cell F) :
    Linked base (codeOperands (xs.map k) i specs base σ).2 := by
  induction specs generalizing i base with
  | nil => exact linked_nil base
  | cons dflt specs ih => exact ((computes_operand h i dflt).linked base _).append (ih _ _)

theorem codeOperands_refers (h : ∀ x ∈ xs, Computes (k x) (m x)) (i : Nat)
    (specs : List (Option ℚ)) (base : Nat) (σ : Cell F) :
    ∀ idx ∈ (codeOperands (xs.map k) i specs base σ).1,
      Refers (base + (codeOperands (xs.map k) i specs base σ).2.length) idx := by
  induction specs generalizing i base with
  | nil =>
      intro idx hidx
      simp [codeOperands] at hidx
  | cons dflt specs ih =>
      intro idx hidx
      simp only [codeOperands, List.mem_cons, List.length_append] at hidx ⊢
      rcases hidx with rfl | hidx
      · refine ((computes_operand h i dflt).refers base (σ.sub i)).mono ?_
        omega
      · refine (ih _ _ idx hidx).mono ?_
        omega

theorem codeOperands_isSome (h : ∀ x ∈ xs, Computes (k x) (m x)) (i : Nat)
    (specs : List (Option ℚ)) (base : Nat) (σ : Cell F) (j : Nat) (dflt : Option ℚ)
    (hj : specs[j]? = some dflt) :
    0 ≤ (codeOperands (xs.map k) i specs base σ).1.getD j (-1) ↔
      (operand (xs.map m) (i + j) dflt).isSome := by
  induction specs generalizing i base j with
  | nil => simp at hj
  | cons d specs ih =>
      cases j with
      | zero =>
          obtain rfl : d = dflt := by simpa using hj
          exact (computes_operand h i d).isSome base (σ.sub i)
      | succ j =>
          rw [show i + (j + 1) = i + 1 + j by omega]
          exact ih (i + 1) _ j hj

/-- A pass over the operands' code: each leaves the code of its next states and
    its value at its index.  `τ` is any cell with the next states. -/
theorem codeOperands_pass (h : ∀ x ∈ xs, Computes (k x) (m x)) (env : TickEnv D F)
    (σ τ : Cell F) (i : Nat) (specs : List (Option ℚ)) (vals : List F)
    (hτ : ∀ j dflt, specs[j]? = some dflt → τ.sub (i + j) =
      (Meaning.orZero (operand (xs.map m) (i + j) dflt) env (σ.sub (i + j))).2) :
    ∃ ys, ys.length = (codeOperands (xs.map k) i specs vals.length σ).2.length ∧
      evalCode env (codeOperands (xs.map k) i specs vals.length σ).2 vals =
        ((codeOperands (xs.map k) i specs vals.length τ).2, vals ++ ys) ∧
      ∀ j, readIndex (vals ++ ys)
          ((codeOperands (xs.map k) i specs vals.length σ).1.getD j (-1)) =
        match specs[j]? with
        | some dflt => (Meaning.orZero (operand (xs.map m) (i + j) dflt) env (σ.sub (i + j))).1
        | none => lit 0 := by
  induction specs generalizing i vals with
  | nil =>
      refine ⟨[], rfl, by simp [codeOperands, evalCode], ?_⟩
      intro j
      exact readIndex_neg _
  | cons dflt specs ih =>
      have c := computes_operand h i dflt
      obtain ⟨ys, hlen, heval, hread⟩ := c.pass env (σ.sub i) vals
      -- the rest of the operands is placed behind the values of the first
      have hbase : vals.length + (codeOperand (xs.map k) i dflt vals.length (σ.sub i)).2.length =
          (vals ++ ys).length := by
        rw [List.length_append, hlen]
      have hbase' : vals.length + (codeOperand (xs.map k) i dflt vals.length (τ.sub i)).2.length =
          (vals ++ ys).length := by
        rw [← hbase, c.length]
      have hhead : τ.sub i = (Meaning.orZero (operand (xs.map m) i dflt) env (σ.sub i)).2 :=
        hτ 0 dflt rfl
      obtain ⟨zs, hzlen, hzeval, hzread⟩ := ih (i + 1) (vals ++ ys) (by
        intro j d hd
        rw [show i + 1 + j = i + (j + 1) by omega]
        exact hτ (j + 1) d hd)
      refine ⟨ys ++ zs, ?_, ?_, ?_⟩
      · simp only [codeOperands, hbase]
        rw [List.length_append, List.length_append, hlen, hzlen]
      · simp only [codeOperands, hbase, hbase', evalCode_append, heval, hzeval,
          List.append_assoc]
        rw [hhead]
      · intro j
        rw [← List.append_assoc]
        simp only [codeOperands, hbase]
        cases j with
        | zero =>
            have hrefers : Refers (vals ++ ys).length
                (codeOperand (xs.map k) i dflt vals.length (σ.sub i)).1 := by
              rw [← hbase]
              exact c.refers _ _
            exact (readIndex_append hrefers zs).trans hread
        | succ j =>
            rw [show i + (j + 1) = i + 1 + j by omega]
            exact hzread j

/-- A parsed node run on values where its inputs read `x`. -/
theorem evalNode_node {sh : OpShape F} {om : OpMeaning D F}
    (happly : ∀ env inputs st x, evalOp env (sh.node inputs st) x = om.apply env x st)
    (env : TickEnv D F) (inputs : List Int) (st : F × F) (vals : List F) (x : Nat → F)
    (hx : ∀ slot, readIndex vals (inputs.getD slot (-1)) = x slot) :
    evalNode env (sh.node inputs st) vals =
      ((om.apply env x st).1, sh.node inputs (om.apply env x st).2) := by
  have hin : (fun slot => readIndex vals ((sh.node inputs st).inputs.getD slot (-1))) = x := by
    funext slot
    exact hx slot
  rw [evalNode, hin, happly]
  rfl

/-- An operator behind its operands computes the operator's meaning. -/
theorem computes_op (h : ∀ x ∈ xs, Computes (k x) (m x)) {sh : OpShape F} {om : OpMeaning D F}
    (hops : om.operands = sh.operands)
    (happly : ∀ env inputs st x, evalOp env (sh.node inputs st) x = om.apply env x st) :
    Computes (sh.code (xs.map k)) (some (om.eval (xs.map m))) where
  index := by
    intro base σ τ
    simp only [OpShape.code, (codeOperands_layout h 0 sh.operands base σ τ).2]
  length := by
    intro base σ τ
    simp only [OpShape.code, List.length_append, List.length_singleton,
      (codeOperands_layout h 0 sh.operands base σ τ).2]
  linked := by
    intro base σ
    refine (codeOperands_linked h 0 sh.operands base σ).append ?_
    rw [linked_cons]
    exact ⟨codeOperands_refers h 0 sh.operands base σ, linked_nil _⟩
  refers := by
    intro base σ
    refine Or.inr ⟨?_, ?_⟩
    · simp only [OpShape.code]
      omega
    · simp only [OpShape.code, List.length_append, List.length_singleton]
      omega
  isSome := by
    intro base σ
    simp only [OpShape.code, Option.isSome_some, iff_true]
    omega
  pass := by
    intro env σ vals
    show ∃ ys, _ ∧ _ = ((sh.code (xs.map k) vals.length (om.eval (xs.map m) env σ).2).2, _) ∧
      _ = (om.eval (xs.map m) env σ).1
    set τ : Cell F := (om.eval (xs.map m) env σ).2 with hτdef
    have hτ : ∀ j dflt, sh.operands[j]? = some dflt → τ.sub (0 + j) =
        (Meaning.orZero (operand (xs.map m) (0 + j) dflt) env (σ.sub (0 + j))).2 := by
      intro j dflt hj
      funext p
      rw [Nat.zero_add, hτdef]
      simp only [Cell.sub, OpMeaning.eval, hops, hj]
    obtain ⟨ys, hlen, heval, hread⟩ := codeOperands_pass h env σ τ 0 sh.operands vals hτ
    have hindex := (codeOperands_layout h 0 sh.operands vals.length σ τ).1
    -- the operator's node, run on the operands' values
    have hnode : evalNode env
        (sh.node (codeOperands (xs.map k) 0 sh.operands vals.length σ).1 (σ [])) (vals ++ ys) =
        ((om.eval (xs.map m) env σ).1,
          sh.node (codeOperands (xs.map k) 0 sh.operands vals.length τ).1 (τ [])) := by
      rw [← hindex]
      refine evalNode_node happly env _ _ _ _ ?_
      intro slot
      have hslot := hread slot
      rw [Nat.zero_add] at hslot
      rw [hops]
      exact hslot
    refine ⟨ys ++ [(om.eval (xs.map m) env σ).1], ?_, ?_, ?_⟩
    · simp only [OpShape.code, List.length_append, List.length_singleton, hlen]
    · simp only [OpShape.code, evalCode_append, heval, evalCode, hnode, List.append_assoc]
    · simp only [OpShape.code]
      rw [← hlen, ← List.length_append, ← List.append_assoc]
      exact readIndex_length (vals ++ ys) _ []

end Operands

/-! ## Expressions -/

theorem computes_vector (items : List (Edn D))
    (h : ∀ v ∈ items, Computes (code (F := F) v) (interp v)) :
    Computes (code (F := F) (.vector items)) (interp (.vector items)) := by
  rw [code, interp, codes_eq_map, interps_eq_map, ← List.map_tail, ← List.map_tail]
  have htail : ∀ v ∈ items.tail, Computes (code (F := F) v) (interp v) :=
    fun v hv => h v (List.mem_of_mem_tail hv)
  unfold interpVector
  split
  · next op rest =>
    rw [codeVector]
    rcases opShape_opMeaning (F := F) op (.keyword op :: rest) with
      ⟨hsh, hom⟩ | ⟨sh, om, hsh, hom, hops, happly⟩
    · rw [hsh, hom]
      exact computes_empty
    · rw [hsh, hom]
      exact computes_op htail hops happly
  · next hop =>
    rw [codeVector.eq_2 _ _ hop]
    exact computes_empty

/-- The code of every value computes its meaning. -/
theorem computes_code (v : Edn D) : Computes (code (F := F) v) (interp v) := by
  refine Edn.vectorRec_value (P := fun v => Computes (code (F := F) v) (interp v))
    computes_vector ?_ v
  intro v hv
  cases v with
  | double x => exact computes_const _
  | int n => exact computes_const _
  | vector items => exact absurd rfl (hv items)
  | _ => exact computes_empty

/-! ## Graphs -/

/-- The four output expressions as a list. -/
def outputList (v : Edn D) : List (Option (Edn D)) :=
  let (cv, aux, gate, gate2) := outputExprs v
  [cv, aux, gate, gate2]

theorem entryUnder_eq (name : String) (entries : List (Edn D × Edn D)) :
    entryUnder name entries = Edn.findKw name entries := by
  unfold entryUnder
  induction entries with
  | nil => rfl
  | cons entry entries ih =>
      obtain ⟨key, value⟩ := entry
      cases key with
      | keyword k =>
          have hkey : isKeyword name (.keyword k : Edn D) = true ↔ k = name := beq_iff_eq
          rw [Edn.findKw]
          by_cases hk : k = name
          · rw [if_pos hk, List.find?_cons_of_pos (by exact hkey.mpr hk), Option.map_some]
          · rw [if_neg hk, List.find?_cons_of_neg (by exact mt hkey.mp hk)]
            exact ih
      | _ => exact ih

omit [CNarrow D F] in
theorem secondsPerTick_eq (rate : F) : secondsPerTick rate = tickDt rate := rfl

/-- The outputs the parser looks up are the ones the value gives. -/
theorem outputRoots_eq (v : Edn D) : outputRoots v = outputList v := by
  cases v with
  | map entries => simp only [outputRoots, outputList, outputExprs, entryUnder_eq]
  | _ => rfl

theorem outputMeanings_eq (v : Edn D) :
    outputMeanings (F := F) v = (outputList v).map fun root => root.bind interp := by
  rw [outputMeanings, outputRoots_eq]

/-- The code of an output expression. -/
def codeOut : Option (Edn D) → Code F
  | some v => code v
  | none => Code.empty

theorem parses_out (v : Option (Edn D)) : Parses (parseOut (F := F) v) (codeOut v) := by
  cases v with
  | none => exact parses_empty
  | some v => exact parses_code v

theorem computes_out (v : Option (Edn D)) :
    Computes (codeOut (F := F) v) (v.bind interp) := by
  cases v with
  | none => exact computes_empty
  | some v => exact computes_code v

theorem computes_outputs (v : Edn D) :
    ∀ x ∈ outputList v, Computes (codeOut (F := F) x) (x.bind interp) :=
  fun x _ => computes_out x

/-- The outputs have no defaults. -/
def outputSpecs : List (Option ℚ) := [none, none, none, none]

theorem outputSpecs_get {j : Nat} {dflt : Option ℚ} (h : outputSpecs[j]? = some dflt) :
    j < 4 ∧ dflt = none := by
  match j, h with
  | 0, h | 1, h | 2, h | 3, h => exact ⟨by omega, by simpa [outputSpecs] using h.symm⟩
  | j + 4, h => simp [outputSpecs] at h

/-- The indices and nodes of a graph value: its outputs are laid out like the
    operands of an operator. -/
def outputCode (v : Edn D) (σ : Cell F) : List Int × List (CgNode F) :=
  codeOperands ((outputList v).map codeOut) 0 outputSpecs 0 σ

/-- The control graph of a value with the states of a cell. -/
def codeGraph (v : Edn D) (params : String → Option F) (σ : Cell F) : ControlGraph F :=
  ⟨(outputCode v σ).2, params, (outputCode v σ).1.getD 0 (-1), (outputCode v σ).1.getD 1 (-1),
    (outputCode v σ).1.getD 2 (-1), (outputCode v σ).1.getD 3 (-1)⟩

theorem parseControlGraph_eq (v : Edn D) (params : String → Option F) :
    parseControlGraph v params = codeGraph v params Cell.zero := by
  have h : parseOperands ((outputList v).map (parseOut (F := F))) 0 outputSpecs [] = _ :=
    parses_operands (fun x _ => parses_out x) 0 outputSpecs []
  have hparse : parseControlGraph v params =
      ⟨(parseOperands ((outputList v).map parseOut) 0 outputSpecs []).2, params,
        (parseOperands ((outputList v).map parseOut) 0 outputSpecs []).1.getD 0 (-1),
        (parseOperands ((outputList v).map parseOut) 0 outputSpecs []).1.getD 1 (-1),
        (parseOperands ((outputList v).map parseOut) 0 outputSpecs []).1.getD 2 (-1),
        (parseOperands ((outputList v).map parseOut) 0 outputSpecs []).1.getD 3 (-1)⟩ := rfl
  rw [hparse, h]
  rfl

theorem outputCode_linked (v : Edn D) (σ : Cell F) : Linked 0 (outputCode v σ).2 :=
  codeOperands_linked (computes_outputs v) 0 outputSpecs 0 σ

theorem outputCode_refers (v : Edn D) (σ : Cell F) (j : Nat) :
    Refers (outputCode v σ).2.length ((outputCode v σ).1.getD j (-1)) := by
  rw [List.getD_eq_getElem?_getD]
  cases hidx : (outputCode v σ).1[j]? with
  | none => exact Or.inl rfl
  | some idx =>
      have h := codeOperands_refers (computes_outputs v) 0 outputSpecs 0 σ idx
        (List.mem_of_getElem? hidx)
      rwa [Nat.zero_add] at h

theorem outputCode_isSome (v : Edn D) (σ : Cell F) (j : Nat) (hj : j < 4) :
    0 ≤ (outputCode v σ).1.getD j (-1) ↔
      (operand (outputMeanings (D := D) (F := F) v) j none).isSome := by
  have hspec : outputSpecs[j]? = some none := by
    match j, hj with
    | 0, _ | 1, _ | 2, _ | 3, _ => rfl
  have h := codeOperands_isSome (computes_outputs v) 0 outputSpecs 0 σ j none hspec
  rwa [Nat.zero_add, ← outputMeanings_eq] at h

/-! ## Ticks -/

omit [CNarrow D F] in
theorem outValue_eq_readIndex {vals : List F} {idx : Int} (h : Refers vals.length idx) :
    outValue vals idx = readIndex vals idx := by
  rcases h with rfl | ⟨h0, hlt⟩
  · rfl
  · rw [outValue, readIndex, if_pos h0, if_pos ⟨h0, hlt⟩]

omit [CNarrow D F] in
theorem outGate_eq_readIndex {vals : List F} {idx : Int} (h : Refers vals.length idx) :
    outGate vals idx = (decide (0 ≤ idx) && lt (lit (1 / 2)) (readIndex vals idx)) := by
  rcases h with rfl | ⟨h0, hlt⟩
  · rfl
  · rw [outGate, readIndex, if_pos h0, if_pos ⟨h0, hlt⟩, decide_eq_true h0, Bool.true_and]

omit [CNarrow D F] in
theorem length_resize (values : List F) (n : Nat) : (resize values n).length = n := by
  simp only [resize, List.length_append, List.length_take, List.length_replicate]
  omega

/-- The pass of a tick over the code of the reference's cell: the nodes become the
    code of the next cell, and each output index reads its expression's value. -/
theorem forwardPass_outputCode (v : Edn D) (r : RefGraph F)
    (lastOutput : String → Option (ModulatorOutput F)) (beat : D) (rate : F) (values : List F) :
    ∃ ys, forwardPass ⟨r.params, lastOutput, beat, tickDt rate⟩ (outputCode v r.cell).2
        (resize values (outputCode v r.cell).2.length) =
          ((outputCode v (r.tick v lastOutput beat rate).2.cell).2, ys) ∧
      (∀ j, Refers ys.length ((outputCode v r.cell).1.getD j (-1))) ∧
      ∀ j, j < 4 → readIndex ys ((outputCode v r.cell).1.getD j (-1)) =
        (Meaning.orZero (operand (outputMeanings v) j none)
          ⟨r.params, lastOutput, beat, tickDt rate⟩ (r.cell.sub j)).1 := by
  set env : TickEnv D F := ⟨r.params, lastOutput, beat, tickDt rate⟩ with henv
  set τ : Cell F := (r.tick v lastOutput beat rate).2.cell with hτdef
  have hτ : ∀ j dflt, outputSpecs[j]? = some dflt → τ.sub (0 + j) =
      (Meaning.orZero (operand (outputMeanings v) (0 + j) dflt) env (r.cell.sub (0 + j))).2 := by
    intro j dflt hj
    obtain ⟨hlt, rfl⟩ := outputSpecs_get hj
    funext p
    rw [Nat.zero_add, hτdef]
    simp only [Cell.sub, RefGraph.tick, if_pos hlt, henv, secondsPerTick_eq]
  rw [outputMeanings_eq] at hτ ⊢
  obtain ⟨ys, hlen, heval, hread⟩ :=
    codeOperands_pass (computes_outputs v) env r.cell τ 0 outputSpecs [] hτ
  refine ⟨ys, ?_, ?_, ?_⟩
  · -- the buffer's old values are never read
    rw [forwardPass_eq_evalCode env (length_resize _ _) (outputCode_linked v r.cell)]
    exact heval
  · intro j
    rw [show ys.length = (outputCode v r.cell).2.length from hlen]
    exact outputCode_refers v r.cell j
  · intro j hj
    have hj' := hread j
    match j, hj with
    | 0, _ | 1, _ | 2, _ | 3, _ => exact hj'

/-- The modulator holds the code of the reference's cell; what is left in its
    buffer does not matter. -/
def HoldsCode (v : Edn D) (m : GraphModulator F) (r : RefGraph F) : Prop :=
  m.graph = codeGraph v r.params r.cell

theorem HoldsCode.tick {v : Edn D} {m : GraphModulator F} {r : RefGraph F} (h : HoldsCode v m r)
    (lastOutput : String → Option (ModulatorOutput F)) (beat : D) (rate : F) :
    (m.tick lastOutput beat rate).1.graphOutputs = (r.tick v lastOutput beat rate).1 ∧
    HoldsCode v (m.tick lastOutput beat rate).2 (r.tick v lastOutput beat rate).2 := by
  obtain ⟨graph, values⟩ := m
  obtain rfl : graph = codeGraph v r.params r.cell := h
  obtain ⟨ys, hpass, hrefers, hvalue⟩ :=
    forwardPass_outputCode v r lastOutput beat rate values
  set τ : Cell F := (r.tick v lastOutput beat rate).2.cell
  have hgate : ∀ j, j < 4 → outGate ys ((outputCode v r.cell).1.getD j (-1)) =
      gateOf (operand (outputMeanings v) j none)
        (Meaning.orZero (operand (outputMeanings v) j none)
          ⟨r.params, lastOutput, beat, tickDt rate⟩ (r.cell.sub j)).1 := by
    intro j hj
    rw [outGate_eq_readIndex (hrefers j), hvalue j hj, gateOf]
    congr 1
    rw [Bool.eq_iff_iff, decide_eq_true_iff]
    exact outputCode_isSome v r.cell j hj
  have htick : GraphModulator.tick lastOutput beat rate
      ⟨codeGraph v r.params r.cell, values⟩ =
      ({ ModulatorOutput.zero with
          cv := outValue ys ((outputCode v r.cell).1.getD 0 (-1))
          aux := outValue ys ((outputCode v r.cell).1.getD 1 (-1))
          gate := outGate ys ((outputCode v r.cell).1.getD 2 (-1))
          gate2 := outGate ys ((outputCode v r.cell).1.getD 3 (-1)) },
        ⟨{ codeGraph v r.params r.cell with nodes := (outputCode v τ).2 }, ys⟩) := by
    unfold GraphModulator.tick
    simp only [codeGraph, hpass]
  rw [htick]
  refine ⟨?_, ?_⟩
  · simp only [ModulatorOutput.graphOutputs, hgate 2 (by omega), hgate 3 (by omega)]
    rw [outValue_eq_readIndex (hrefers 0), outValue_eq_readIndex (hrefers 1),
      hvalue 0 (by omega), hvalue 1 (by omega)]
    rfl
  · -- only the states differ between the codes of the two cells
    have hindex : (outputCode v r.cell).1 = (outputCode v τ).1 :=
      (codeOperands_layout (computes_outputs v) 0 outputSpecs 0 r.cell τ).1
    show ControlGraph.mk _ _ _ _ _ _ = codeGraph v r.params τ
    simp only [codeGraph, hindex]

theorem HoldsCode.update {v : Edn D} {m : GraphModulator F} {r : RefGraph F}
    (h : HoldsCode v m r) (key : String) (value : F) :
    HoldsCode v (m.update key value)
      { r with params := Function.update r.params key (some value) } := by
  show ControlGraph.mk _ _ _ _ _ _ = _
  rw [show m.graph = codeGraph v r.params r.cell from h]
  rfl

/-! ## Runs -/

theorem HoldsCode.run {v : Edn D} {m : GraphModulator F} {r : RefGraph F} (h : HoldsCode v m r)
    (calls : List (GraphCall D F)) :
    (m.run calls).map ModulatorOutput.graphOutputs = r.run v calls := by
  induction calls generalizing m r with
  | nil => rfl
  | cons call calls ih =>
      cases call with
      | tick lastOutput beat rate =>
          obtain ⟨hout, hnext⟩ := h.tick lastOutput beat rate
          rw [GraphModulator.run, RefGraph.run, List.map_cons, hout, ih hnext]
      | update key value => exact ih (h.update key value)

/-- The modulator after a sequence of calls. -/
def GraphModulator.after (m : GraphModulator F) : List (GraphCall D F) → GraphModulator F
  | [] => m
  | .tick lastOutput beat rate :: calls =>
      GraphModulator.after (m.tick lastOutput beat rate).2 calls
  | .update key value :: calls => GraphModulator.after (m.update key value) calls

theorem HoldsCode.after {v : Edn D} {m : GraphModulator F} {r : RefGraph F} (h : HoldsCode v m r)
    (calls : List (GraphCall D F)) : ∃ r', HoldsCode v (m.after calls) r' := by
  induction calls generalizing m r with
  | nil => exact ⟨r, h⟩
  | cons call calls ih =>
      cases call with
      | tick lastOutput beat rate => exact ih (h.tick lastOutput beat rate).2
      | update key value => exact ih (h.update key value)

theorem holdsCode_make (v : Edn D) (params : String → Option F) :
    HoldsCode v (GraphModulator.make (parseControlGraph v params)) ⟨params, Cell.zero⟩ :=
  parseControlGraph_eq v params

/-- A graph modulator computes the reference interpreter's outputs on every tick
    of every run, and at any time its nodes read only earlier nodes and its
    outputs only nodes of the graph. -/
theorem graph_modulator_refines_interp (v : Edn D) (params : String → Option F)
    (calls : List (GraphCall D F)) :
    let m := GraphModulator.make (parseControlGraph v params)
    let g := (m.after calls).graph
    (m.run calls).map ModulatorOutput.graphOutputs = RefGraph.run v ⟨params, Cell.zero⟩ calls ∧
    Linked 0 g.nodes ∧
    ∀ idx ∈ [g.outCv, g.outAux, g.outGate, g.outGate2], Refers g.nodes.length idx := by
  intro m g
  have hmake := holdsCode_make v params
  obtain ⟨r, hr⟩ := hmake.after calls
  have hg : g = codeGraph v r.params r.cell := hr
  refine ⟨hmake.run calls, ?_, ?_⟩
  · rw [hg]
    exact outputCode_linked v r.cell
  · rw [hg]
    intro idx hidx
    simp only [List.mem_cons, List.not_mem_nil, or_false] at hidx
    rcases hidx with rfl | rfl | rfl | rfl
    · exact outputCode_refers v r.cell 0
    · exact outputCode_refers v r.cell 1
    · exact outputCode_refers v r.cell 2
    · exact outputCode_refers v r.cell 3

end Correct

end NomosRt.Modulator
