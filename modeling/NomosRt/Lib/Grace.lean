/-
  NomosRt.Lib.Grace

  Read-side sections and deferred callbacks.

  A reader enters and leaves sections; a callback that is queued waits for the
  sections open at that moment and for no later ones.  Nothing else is assumed of
  when a callback runs.

  `Covers g r b` says that a queued callback for `b` still waits for `r`.  The rule
  a reclamation scheme uses: while `r` covers `b` the callback for `b` does not run
  (`not_covers_of_run`), every reader inside a section covers what is queued now
  (`covers_call`), and only the reader's own leaving ends it (`Covers.leave`,
  `Covers.run`).
-/

import Mathlib.Data.List.Nodup
import Mathlib.Data.List.Perm.Basic
import NomosRt.Lib.Machine

namespace NomosRt.Lib

/-- A queued callback: what it is for, and the readers it waits for. -/
structure Deferred (R β : Type*) where
  item : β
  waits : List R

/-- The readers inside a section, and the queued callbacks. -/
structure Grace (R β : Type*) where
  sections : List R
  pending : List (Deferred R β)

namespace Grace

variable {R β : Type*}

/-- No sections and no callbacks. -/
def empty : Grace R β := ⟨[], []⟩

/-- A reader enters a section. -/
def enter (g : Grace R β) (r : R) : Grace R β := { g with sections := r :: g.sections }

/-- A reader leaves its section: no callback waits for it any more. -/
def leave [DecidableEq R] (g : Grace R β) (r : R) : Grace R β :=
  ⟨g.sections.filter (· ≠ r),
    g.pending.map fun d => { d with waits := d.waits.filter (· ≠ r) }⟩

/-- Queue a callback. -/
def call (g : Grace R β) (b : β) : Grace R β :=
  { g with pending := g.pending ++ [⟨b, g.sections⟩] }

/-- Run callback `k`, if it waits for nobody. -/
def run (g : Grace R β) (k : Nat) : Option (β × Grace R β) :=
  match g.pending[k]? with
  | some ⟨b, []⟩ => some (b, { g with pending := g.pending.eraseIdx k })
  | _ => none

/-- What callbacks are queued for. -/
def items (g : Grace R β) : List β := g.pending.map Deferred.item

/-- A queued callback for `b` waits for `r`. -/
def Covers (g : Grace R β) (r : R) (b : β) : Prop := ∃ d ∈ g.pending, d.item = b ∧ r ∈ d.waits

@[simp] theorem items_enter (g : Grace R β) (r : R) : (g.enter r).items = g.items := rfl

@[simp] theorem items_leave [DecidableEq R] (g : Grace R β) (r : R) :
    (g.leave r).items = g.items := by
  simp only [items, leave, List.map_map]
  rfl

@[simp] theorem items_call (g : Grace R β) (b : β) : (g.call b).items = g.items ++ [b] := by
  simp [items, call]

/-- A reader that is in no section, and that nobody waits for, has nothing to leave. -/
theorem leave_eq_self [DecidableEq R] {g : Grace R β} {r : R} (hsection : r ∉ g.sections)
    (hwaits : ∀ d ∈ g.pending, r ∉ d.waits) : g.leave r = g := by
  have hfilter : ∀ {l : List R}, r ∉ l → l.filter (· ≠ r) = l := by
    intro l hl
    rw [List.filter_eq_self]
    intro x hx
    have hxr : x ≠ r := fun heq => hl (heq ▸ hx)
    simpa using hxr
  have hpending : g.pending.map (fun d => { d with waits := d.waits.filter (· ≠ r) }) =
      g.pending := by
    conv_rhs => rw [← List.map_id g.pending]
    refine List.map_congr_left fun d hd => ?_
    rw [hfilter (hwaits d hd), id_eq]
  rw [leave, hfilter hsection, hpending]

/-- A callback that runs was queued. -/
theorem run_eq_some {g g' : Grace R β} {k : Nat} {b : β} (h : g.run k = some (b, g')) :
    g.pending[k]? = some ⟨b, []⟩ ∧ g' = { g with pending := g.pending.eraseIdx k } := by
  unfold run at h
  split at h
  · next b' hk =>
    simp only [Option.some.injEq, Prod.mk.injEq] at h
    rw [← h.1, ← h.2]
    exact ⟨hk, rfl⟩
  · exact absurd h (by simp)

/-- A callback that runs leaves the queue. -/
theorem items_run {g g' : Grace R β} {k : Nat} {b : β} (h : g.run k = some (b, g')) :
    g.items.Perm (b :: g'.items) := by
  obtain ⟨hk, rfl⟩ := run_eq_some h
  have hlt := (List.getElem?_eq_some_iff.mp hk).1
  have hget := (List.getElem?_eq_some_iff.mp hk).2
  have hperm := List.getElem_cons_eraseIdx_perm hlt
  rw [hget] at hperm
  exact (hperm.map Deferred.item).symm

@[simp] theorem sections_run {g g' : Grace R β} {k : Nat} {b : β} (h : g.run k = some (b, g')) :
    g'.sections = g.sections := by
  rw [(run_eq_some h).2]

/-- Everybody inside a section covers what is queued now. -/
theorem covers_call {g : Grace R β} {r : R} (h : r ∈ g.sections) (b : β) :
    (g.call b).Covers r b :=
  ⟨⟨b, g.sections⟩, by simp [call], rfl, h⟩

theorem Covers.enter {g : Grace R β} {r : R} {b : β} (h : g.Covers r b) (r' : R) :
    (g.enter r').Covers r b := h

theorem Covers.call {g : Grace R β} {r : R} {b : β} (h : g.Covers r b) (b' : β) :
    (g.call b').Covers r b := by
  obtain ⟨d, hd, hitem, hwaits⟩ := h
  exact ⟨d, List.mem_append_left _ hd, hitem, hwaits⟩

/-- Another reader's leaving does not end it. -/
theorem Covers.leave [DecidableEq R] {g : Grace R β} {r r' : R} {b : β} (h : g.Covers r b)
    (hne : r ≠ r') : (g.leave r').Covers r b := by
  obtain ⟨d, hd, hitem, hwaits⟩ := h
  refine ⟨{ d with waits := d.waits.filter (· ≠ r') }, List.mem_map.mpr ⟨d, hd, rfl⟩, hitem, ?_⟩
  simpa using ⟨hwaits, hne⟩

/-- Nor does another callback. -/
theorem Covers.run {g g' : Grace R β} {k : Nat} {r : R} {b b' : β} (h : g.Covers r b)
    (hrun : g.run k = some (b', g')) : g'.Covers r b := by
  obtain ⟨d, hd, hitem, hwaits⟩ := h
  obtain ⟨hk, rfl⟩ := run_eq_some hrun
  refine ⟨d, ?_, hitem, hwaits⟩
  obtain ⟨i, hi, hget⟩ := List.mem_iff_getElem.mp hd
  refine List.mem_eraseIdx_iff_getElem?.mpr ⟨i, ?_, by rw [List.getElem?_eq_getElem hi, hget]⟩
  -- the callback that ran waits for nobody
  rintro rfl
  rw [List.getElem?_eq_getElem hi, hget, Option.some.injEq] at hk
  rw [hk] at hwaits
  exact absurd hwaits (by simp)

/-- A callback whose item is queued once runs only when nobody covers it. -/
theorem not_covers_of_run {g g' : Grace R β} {k : Nat} {b : β} (hnodup : g.items.Nodup)
    (hrun : g.run k = some (b, g')) (r : R) : ¬ g.Covers r b := by
  rintro h
  obtain ⟨d, hd, hitem, -⟩ := h.run hrun
  have hperm := items_run hrun
  have hnotin := (List.nodup_cons.mp (hperm.nodup_iff.mp hnodup)).1
  exact hnotin (List.mem_map.mpr ⟨d, hd, hitem⟩)

/-! ## As a machine -/

/-- The steps; `run k b` runs callback `k`, which is for `b`. -/
inductive Act (R β : Type*) where
  | enter (r : R)
  | leave (r : R)
  | call (b : β)
  | run (k : Nat) (b : β)
  deriving DecidableEq

variable [DecidableEq R] [DecidableEq β]

/-- One step. -/
def act (g : Grace R β) : Act R β → Option (Grace R β)
  | .enter r => some (g.enter r)
  | .leave r => some (g.leave r)
  | .call b => some (g.call b)
  | .run k b =>
      match g.run k with
      | some (b', g') => if b' = b then some g' else none
      | none => none

theorem run_of_act {g g' : Grace R β} {k : Nat} {b : β} (h : g.act (.run k b) = some g') :
    g.run k = some (b, g') := by
  simp only [act] at h
  split at h
  · next b' g'' hrun =>
      rw [Option.ite_none_right_eq_some, Option.some.injEq] at h
      rw [hrun, h.1, h.2]
  · cases h

/-- Readers and callbacks, from nothing. -/
def machine (R β : Type*) [DecidableEq R] [DecidableEq β] : Machine (Grace R β) (Act R β) :=
  ⟨empty, act⟩

end Grace

end NomosRt.Lib
