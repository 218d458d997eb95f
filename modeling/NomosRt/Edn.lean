/-
  NomosRt.Edn

  EDN values, as the message handlers and the graph parser see them: the
  alternatives they test for, and `find_kw`.
-/

import NomosRt.Lib.Words

namespace NomosRt

open NomosRt.Lib

/-- A parsed EDN value over the doubles `D`. -/
inductive Edn (D : Type*) where
  | nil
  | bool (b : Bool)
  | int (n : Int)
  | double (x : D)
  | string (s : List Byte)
  | keyword (name : String)
  | symbol (name : String)
  | list (items : List (Edn D))
  | vector (items : List (Edn D))
  | set (items : List (Edn D))
  | map (entries : List (Edn D × Edn D))
  | tagged (tag : String) (val : Edn D)

namespace Edn

variable {D : Type*}

/-- `find_kw`: the value under a keyword key. -/
def findKw (name : String) : List (Edn D × Edn D) → Option (Edn D)
  | [] => none
  | (.keyword k, v) :: entries => if k = name then some v else findKw name entries
  | _ :: entries => findKw name entries

/-! ## Induction through vectors

Code that descends only into vectors is proved about with one case for vectors,
with the claim for every item, and one for everything else. -/

section Induction

variable {P : Edn D → Prop}

mutual

theorem vectorRec_value (hvec : ∀ items, (∀ v ∈ items, P v) → P (.vector items))
    (hother : ∀ v, (∀ items, v ≠ .vector items) → P v) : ∀ v : Edn D, P v
  | .vector items => hvec items (vectorRec_items hvec hother items)
  | .nil => hother _ (by simp)
  | .bool _ => hother _ (by simp)
  | .int _ => hother _ (by simp)
  | .double _ => hother _ (by simp)
  | .string _ => hother _ (by simp)
  | .keyword _ => hother _ (by simp)
  | .symbol _ => hother _ (by simp)
  | .list _ => hother _ (by simp)
  | .set _ => hother _ (by simp)
  | .map _ => hother _ (by simp)
  | .tagged _ _ => hother _ (by simp)

theorem vectorRec_items (hvec : ∀ items, (∀ v ∈ items, P v) → P (.vector items))
    (hother : ∀ v, (∀ items, v ≠ .vector items) → P v) : ∀ vs : List (Edn D), ∀ v ∈ vs, P v
  | [] => List.forall_mem_nil _
  | v :: vs => List.forall_mem_cons.mpr
      ⟨vectorRec_value hvec hother v, vectorRec_items hvec hother vs⟩

end

end Induction

end Edn

end NomosRt
