/-
  NomosRt.Rcu.Managed

  `rcu_managed<T>` (include/nomos/rt/rcu.hpp) under any number of readers and
  writers.

  Values are numbered in the order they are given to the manager, so a value's
  identity outlives its address.  liburcu is `Lib.Grace`: a callback passed to
  `call_rcu` waits for the sections open at the call, `synchronize_rcu` for those
  open when it is called.  The manager must outlive its guards, so no section and
  no store begins once its destructor has begun.
-/

import Mathlib.Logic.Function.Basic
import NomosRt.Lib.Grace
import NomosRt.Lib.Ledger
import NomosRt.Lib.Machine

namespace NomosRt.Rcu

open NomosRt.Lib

/-! ## Steps -/

/-- Where a reader is: outside a guard, in the guard's constructor between `read_lock`
    and the load, or inside the guard with the pointer it loaded. -/
inductive ReaderPc where
  | outside
  | locked
  | holding (p : Option Nat)
  deriving DecidableEq, Repr

/-- The manager's life: `destroying` is inside `synchronize_rcu`, which still waits for
    some sections. -/
inductive Phase (R : Type*) where
  | alive
  | destroying (waits : List R)
  | dead
  deriving DecidableEq

/-- The manager, its users and liburcu.  `writers` holds the pointer a `store` has
    displaced and not yet passed to `call_rcu`; `displaced`, `handed` and `deleted` record
    the pointers in the order it happened to them. -/
structure RcuState (R W : Type*) where
  ptr : Option Nat
  readers : R → ReaderPc
  writers : W → Option Nat
  grace : Grace R Nat
  phase : Phase R
  next : Nat
  displaced : List Nat
  handed : List Nat
  deleted : List Nat

/-- The steps of readers, writers, the callback thread and the destructor. -/
inductive RcuAct (R W : Type*) where
  | readLock (r : R)
  | load (r : R)
  | use (r : R)
  | readUnlock (r : R)
  | exchange (w : W) (null : Bool)
  | callRcu (w : W)
  | retireCb (k : Nat)
  | destroy
  | reap

section Steps

variable {R W : Type*} [DecidableEq R] [DecidableEq W]

/-- A section ends: `synchronize_rcu` does not wait for it any more. -/
def Phase.leave (ph : Phase R) (r : R) : Phase R :=
  match ph with
  | .destroying waits => .destroying (waits.filter (· ≠ r))
  | ph => ph

/-- One step. -/
def rcuStep (s : RcuState R W) : RcuAct R W → Option (RcuState R W)
  | .readLock r =>
      if s.phase = .alive ∧ s.readers r = .outside then
        some { s with readers := Function.update s.readers r .locked, grace := s.grace.enter r }
      else none
  -- the load is inside the section, so what it finds was installed after the section began
  | .load r =>
      if s.readers r = .locked then
        some { s with readers := Function.update s.readers r (.holding s.ptr) }
      else none
  | .use r =>
      match s.readers r with
      | .holding _ => some s
      | _ => none
  | .readUnlock r =>
      match s.readers r with
      | .holding _ =>
          some { s with
            readers := Function.update s.readers r .outside
            grace := s.grace.leave r
            phase := s.phase.leave r }
      | _ => none
  | .exchange w null =>
      if s.phase = .alive ∧ s.writers w = none then
        -- a null `outgoing` leaves nothing to retire: `store` returns
        some { s with
          ptr := if null then none else some s.next
          next := if null then s.next else s.next + 1
          writers := Function.update s.writers w s.ptr
          displaced := s.displaced ++ s.ptr.toList }
      else none
  -- the callback waits for the sections that are open now
  | .callRcu w =>
      match s.writers w with
      | some p =>
          some { s with
            writers := Function.update s.writers w none
            grace := s.grace.call p
            handed := s.handed ++ [p] }
      | none => none
  | .retireCb k =>
      (s.grace.run k).map fun r => { s with grace := r.2, deleted := s.deleted ++ [r.1] }
  -- `synchronize_rcu` waits for the sections that are open now
  | .destroy =>
      if s.phase = .alive then some { s with phase := .destroying s.grace.sections } else none
  | .reap =>
      match s.phase with
      | .destroying [] =>
          some { s with phase := .dead, deleted := s.deleted ++ s.ptr.toList }
      | _ => none

/-- A new manager, with an initial value or without. -/
def rcuMachine (R W : Type*) [DecidableEq R] [DecidableEq W] (initial : Bool) :
    Machine (RcuState R W) (RcuAct R W) :=
  ⟨⟨if initial then some 0 else none, fun _ => .outside, fun _ => none, .empty, .alive,
    if initial then 1 else 0, [], [], []⟩, rcuStep⟩

end Steps

/-! ## Where a value is -/

/-- The places of a value: not given yet, installed, in the hands of a `store`, queued for
    deletion, deleted by its callback, deleted by the destructor. -/
inductive Place (W : Type*) where
  | unborn
  | installed
  | displacedBy (w : W)
  | queued
  | freed
  | reaped

namespace Place

variable {W : Type*}

/-- Taken out of the manager by a `store`. -/
def IsDisplaced (x : Place W) : Prop := (∃ w, x = .displacedBy w) ∨ x = .queued ∨ x = .freed

/-- Passed to `call_rcu`. -/
def IsHanded (x : Place W) : Prop := x = .queued ∨ x = .freed

/-- Deleted, by a callback or by the destructor. -/
def IsDeleted (x : Place W) : Prop := x = .freed ∨ x = .reaped

end Place

section Places

variable {W : Type*} {place : Nat → Place W} {ptr : Option Nat} {writers : W → Option Nat}
  {items displaced handed deleted : List Nat} {next : Nat}

/-- Every value is at one place, and the members and the records agree with it. -/
structure Located (place : Nat → Place W) (ptr : Option Nat) (writers : W → Option Nat)
    (items : List Nat) (next : Nat) (displaced handed deleted : List Nat) : Prop where
  unborn : ∀ p, next ≤ p → place p = .unborn
  ptr : Lists ptr.toList (· = .installed) place
  writers : ∀ w, Lists (writers w).toList (· = .displacedBy w) place
  items : Lists items (· = .queued) place
  displaced : Lists displaced Place.IsDisplaced place
  handed : Lists handed Place.IsHanded place
  deleted : Lists deleted Place.IsDeleted place

theorem Located.place_ptr {p : Nat}
    (h : Located place (some p) writers items next displaced handed deleted) :
    place p = .installed :=
  (h.ptr.mem_iff p).mp (List.mem_singleton_self p)

theorem Located.place_writer {w : W} {p : Nat}
    (h : Located place ptr writers items next displaced handed deleted) (hw : writers w = some p) :
    place p = .displacedBy w :=
  ((h.writers w).mem_iff p).mp (by rw [hw]; exact List.mem_singleton_self p)

/-- A value that has a place is not one of those still to come. -/
theorem Located.lt_next {p : Nat}
    (h : Located place ptr writers items next displaced handed deleted)
    (hp : place p ≠ .unborn) : p < next := by
  by_contra hge
  exact hp (h.unborn p (Nat.le_of_not_lt hge))

/-- Moving a value that is there leaves the others still to come. -/
theorem Located.unborn_update {p : Nat} {x : Place W}
    (h : Located place ptr writers items next displaced handed deleted)
    (hp : place p ≠ .unborn) (q : Nat) (hq : next ≤ q) :
    Function.update place p x q = .unborn := by
  have hlt := h.lt_next hp
  rw [Function.update_of_ne (by omega)]
  exact h.unborn q hq

/-- A new value is installed where none was. -/
theorem Located.install (h : Located place none writers items next displaced handed deleted) :
    Located (Function.update place next .installed) (some next) writers items (next + 1) displaced
      handed deleted := by
  have hold := h.unborn next (Nat.le_refl next)
  refine ⟨fun p hp => ?_, h.ptr.gain (by simp [hold]) rfl, fun w => (h.writers w).keep ?_,
    h.items.keep ?_, h.displaced.keep ?_, h.handed.keep ?_, h.deleted.keep ?_⟩
  · rw [Function.update_of_ne (by omega)]
    exact h.unborn p (by omega)
  all_goals simp [hold, Place.IsDisplaced, Place.IsHanded, Place.IsDeleted]

variable [DecidableEq W]

/-- The installed value passes into the hands of a `store`. -/
theorem Located.displace {p : Nat} {w : W}
    (h : Located place (some p) writers items next displaced handed deleted)
    (hw : writers w = none) :
    Located (Function.update place p (.displacedBy w)) none (Function.update writers w (some p))
      items next (displaced ++ [p]) handed deleted := by
  have hold := h.place_ptr
  refine ⟨h.unborn_update (by simp [hold]), h.ptr.lose (List.Perm.refl _) (by simp), fun w' => ?_,
    h.items.keep ?_, h.displaced.gain ?_ ?_, h.handed.keep ?_, h.deleted.keep ?_⟩
  · by_cases hw' : w' = w
    · have hmine := h.writers w
      rw [hw] at hmine
      rw [hw', Function.update_self]
      exact hmine.gain (by simp [hold]) rfl
    · rw [Function.update_of_ne hw']
      refine (h.writers w').keep ?_
      simpa [hold] using fun heq => hw' heq.symm
  all_goals simp [hold, Place.IsDisplaced, Place.IsHanded, Place.IsDeleted]

/-- A `store` passes it to `call_rcu`. -/
theorem Located.hand {p : Nat} {w : W}
    (h : Located place ptr writers items next displaced handed deleted)
    (hw : writers w = some p) :
    Located (Function.update place p .queued) ptr (Function.update writers w none) (items ++ [p])
      next displaced (handed ++ [p]) deleted := by
  have hold := h.place_writer hw
  refine ⟨h.unborn_update (by simp [hold]), h.ptr.keep ?_, fun w' => ?_, h.items.gain ?_ rfl,
    h.displaced.keep ?_, h.handed.gain ?_ ?_, h.deleted.keep ?_⟩
  · simp [hold]
  · by_cases hw' : w' = w
    · have hmine := h.writers w
      rw [hw] at hmine
      rw [hw', Function.update_self]
      exact hmine.lose (List.Perm.refl _) (by simp)
    · rw [Function.update_of_ne hw']
      refine (h.writers w').keep ?_
      simpa [hold] using fun heq => hw' heq.symm
  all_goals simp [hold, Place.IsDisplaced, Place.IsHanded, Place.IsDeleted]

omit [DecidableEq W] in
/-- Its callback deletes it. -/
theorem Located.free {p : Nat} {items' : List Nat}
    (h : Located place ptr writers items next displaced handed deleted)
    (hperm : items.Perm (p :: items')) :
    Located (Function.update place p .freed) ptr writers items' next displaced handed
      (deleted ++ [p]) := by
  have hold : place p = .queued := (h.items.mem_iff p).mp (by rw [hperm.mem_iff]; simp)
  refine ⟨h.unborn_update (by simp [hold]), h.ptr.keep ?_, fun w => (h.writers w).keep ?_,
    h.items.lose hperm (by simp), h.displaced.keep ?_, h.handed.keep ?_, h.deleted.gain ?_ ?_⟩
  all_goals simp [hold, Place.IsDisplaced, Place.IsHanded, Place.IsDeleted]

omit [DecidableEq W] in
/-- The destructor deletes the installed value. -/
theorem Located.reap {p : Nat}
    (h : Located place (some p) writers items next displaced handed deleted) :
    Located (Function.update place p .reaped) none writers items next displaced handed
      (deleted ++ [p]) := by
  have hold := h.place_ptr
  refine ⟨h.unborn_update (by simp [hold]), h.ptr.lose (List.Perm.refl _) (by simp),
    fun w => (h.writers w).keep ?_, h.items.keep ?_, h.displaced.keep ?_, h.handed.keep ?_,
    h.deleted.gain ?_ ?_⟩
  all_goals simp [hold, Place.IsDisplaced, Place.IsHanded, Place.IsDeleted]

/-! ## What keeps a held value -/

/-- What keeps `p` for the reader `r`: it is installed, or its `store` has not passed it on,
    or its callback waits for `r`. -/
def Kept {R : Type*} (place : Nat → Place W) (g : Grace R Nat) (r : R) (p : Nat) : Prop :=
  place p = .installed ∨ (∃ w, place p = .displacedBy w) ∨ (place p = .queued ∧ g.Covers r p)

variable {R : Type*} {g g' : Grace R Nat} {r : R} {p : Nat}

omit [DecidableEq W] in
/-- A kept value is not deleted. -/
theorem Kept.not_deleted (h : Kept place g r p) : ¬ (place p).IsDeleted := by
  rcases h with hp | ⟨w, hp⟩ | ⟨hp, -⟩ <;> simp [hp, Place.IsDeleted]

omit [DecidableEq W] in
/-- Another callback's state does not matter. -/
theorem Kept.mono (h : Kept place g r p) (hcov : g.Covers r p → g'.Covers r p) :
    Kept place g' r p := by
  rcases h with hp | hp | ⟨hp, hc⟩
  · exact .inl hp
  · exact .inr (.inl hp)
  · exact .inr (.inr ⟨hp, hcov hc⟩)

omit [DecidableEq W] in
/-- Nor does the move of another value. -/
theorem Kept.update {q : Nat} {x : Place W} (h : Kept place g r p) (hne : p ≠ q) :
    Kept (Function.update place q x) g r p := by
  unfold Kept
  rw [Function.update_of_ne hne]
  exact h

/-- `exchange` moves the old value into the hands of its `store`, and installs the new one. -/
theorem Located.exchange {w : W} (null : Bool)
    (h : Located place ptr writers items next displaced handed deleted)
    (hw : writers w = none) :
    ∃ place', Located place' (if null then none else some next) (Function.update writers w ptr)
        items (if null then next else next + 1) (displaced ++ ptr.toList) handed deleted ∧
      ∀ r p, Kept place g r p → Kept place' g r p := by
  -- first the old value leaves
  obtain ⟨mid, hmid, hkeep⟩ : ∃ mid,
      Located mid none (Function.update writers w ptr) items next (displaced ++ ptr.toList) handed
        deleted ∧ ∀ r p, Kept place g r p → Kept mid g r p := by
    rcases ptr with _ | p₀
    · refine ⟨place, ?_, fun r p hp => hp⟩
      rw [Function.update_eq_self_iff.mpr hw.symm]
      simpa using h
    · refine ⟨_, h.displace hw, fun r p hp => ?_⟩
      by_cases hpp : p = p₀
      · refine .inr (.inl ⟨w, ?_⟩)
        rw [hpp, Function.update_self]
      · exact hp.update hpp
  -- then the new one comes
  rcases null with _ | _
  · refine ⟨_, hmid.install, fun r p hp => ?_⟩
    by_cases hpn : p = next
    · refine .inl ?_
      rw [hpn, Function.update_self]
    · exact (hkeep r p hp).update hpn
  · exact ⟨mid, hmid, hkeep⟩

end Places

/-! ## The invariant -/

section Invariant

variable {R W : Type*}

/-- The value the manager owns: none once the destructor has deleted it. -/
def Phase.owned (ph : Phase R) (ptr : Option Nat) : Option Nat :=
  match ph with
  | .dead => none
  | _ => ptr

/-- Every value has one place; every section is a reader's; every held value is kept; and
    the destructor waits for every reader. -/
structure RcuInv (s : RcuState R W) (place : Nat → Place W) : Prop where
  located : Located place (s.phase.owned s.ptr) s.writers s.grace.items s.next s.displaced s.handed
    s.deleted
  sections : ∀ r, r ∈ s.grace.sections ↔ s.readers r ≠ .outside
  held : ∀ r p, s.readers r = .holding (some p) → Kept place s.grace r p
  waits : ∀ ws, s.phase = .destroying ws → ∀ r, s.readers r ≠ .outside → r ∈ ws
  dead : s.phase = .dead → ∀ r, s.readers r = .outside

theorem Phase.owned_of_ne {ph : Phase R} (h : ph ≠ .dead) (ptr : Option Nat) :
    ph.owned ptr = ptr := by
  unfold Phase.owned
  split
  · exact absurd rfl h
  · rfl

variable {s : RcuState R W} {place : Nat → Place W}

/-- A reader inside a section keeps the manager from being dead. -/
theorem RcuInv.alive_of_inside (h : RcuInv s place) {r : R} (hr : s.readers r ≠ .outside) :
    s.phase ≠ .dead :=
  fun hd => hr (h.dead hd r)

/-- A callback runs when nobody covers its value, so nobody holds it. -/
theorem inv_retireCb {k p : Nat} {g : Grace R Nat} (h : RcuInv s place)
    (hrun : s.grace.run k = some (p, g)) :
    RcuInv { s with grace := g, deleted := s.deleted ++ [p] } (Function.update place p .freed) := by
  have hperm := Grace.items_run hrun
  have hqueued : place p = .queued :=
    (h.located.items.mem_iff p).mp (hperm.mem_iff.mpr (List.mem_cons_self ..))
  refine ⟨h.located.free hperm, fun r => ?_, fun r q hr => ?_, h.waits, h.dead⟩
  · change r ∈ g.sections ↔ _
    rw [Grace.sections_run hrun]
    exact h.sections r
  · have hkept := h.held r q hr
    have hqp : q ≠ p := by
      rintro rfl
      rcases hkept with hq | ⟨w, hq⟩ | ⟨-, hc⟩
      · exact absurd (hqueued.symm.trans hq) (by simp)
      · exact absurd (hqueued.symm.trans hq) (by simp)
      · exact Grace.not_covers_of_run h.located.items.nodup hrun r hc
    exact (hkept.mono fun hc => hc.run hrun).update hqp

theorem inv_destroy (h : RcuInv s place) (halive : s.phase = .alive) :
    RcuInv { s with phase := .destroying s.grace.sections } place := by
  have hloc := h.located
  rw [Phase.owned_of_ne (by simp [halive])] at hloc
  refine ⟨hloc, h.sections, h.held, fun ws hws r hr => ?_, fun hd => absurd hd (by simp)⟩
  rw [← Phase.destroying.inj hws]
  exact (h.sections r).mpr hr

/-- `synchronize_rcu` has returned, so no reader is inside. -/
theorem inv_reap (h : RcuInv s place) (hph : s.phase = .destroying []) :
    ∃ place', RcuInv { s with phase := .dead, deleted := s.deleted ++ s.ptr.toList } place' := by
  have hout : ∀ r, s.readers r = .outside := by
    intro r
    by_contra hr
    exact absurd (h.waits [] hph r hr) (by simp)
  have hloc := h.located
  rw [Phase.owned_of_ne (by simp [hph])] at hloc
  obtain ⟨place', hloc'⟩ : ∃ place', Located place' none s.writers s.grace.items s.next s.displaced
      s.handed (s.deleted ++ s.ptr.toList) := by
    rcases hp : s.ptr with _ | p
    · rw [hp] at hloc
      exact ⟨place, by simpa using hloc⟩
    · rw [hp] at hloc
      exact ⟨_, hloc.reap⟩
  refine ⟨place', hloc', h.sections, fun r p hr => ?_, fun ws hws => absurd hws (by simp),
    fun _ => hout⟩
  exact absurd ((hout r).symm.trans hr) (by simp)

section Readers

variable [DecidableEq R]

theorem inv_readLock {r : R} (h : RcuInv s place) (halive : s.phase = .alive) :
    RcuInv { s with readers := Function.update s.readers r .locked, grace := s.grace.enter r }
      place := by
  refine ⟨h.located, fun q => ?_, fun q p hq => ?_, fun ws hws => ?_, fun hd => ?_⟩
  · change q ∈ r :: s.grace.sections ↔ Function.update s.readers r .locked q ≠ .outside
    by_cases hqr : q = r
    · simp [hqr]
    · rw [Function.update_of_ne hqr, List.mem_cons, h.sections q]
      simp [hqr]
  · change Function.update s.readers r .locked q = .holding (some p) at hq
    have hqr : q ≠ r := fun heq => by simp [heq] at hq
    rw [Function.update_of_ne hqr] at hq
    exact (h.held q p hq).mono fun hc => hc.enter r
  · exact absurd (halive.symm.trans hws) (by simp)
  · exact absurd (halive.symm.trans hd) (by simp)

/-- A load inside the section takes the installed value. -/
theorem inv_load {r : R} (h : RcuInv s place) (hr : s.readers r = .locked) :
    RcuInv { s with readers := Function.update s.readers r (.holding s.ptr) } place := by
  have hinside : s.readers r ≠ .outside := by simp [hr]
  have hlive := h.alive_of_inside hinside
  refine ⟨h.located, fun q => ?_, fun q p hq => ?_, fun ws hws q hq => ?_,
    fun hd => absurd hd hlive⟩
  · change q ∈ s.grace.sections ↔ Function.update s.readers r (.holding s.ptr) q ≠ .outside
    by_cases hqr : q = r
    · rw [hqr, h.sections r, Function.update_self]
      exact iff_of_true hinside (by simp)
    · rw [Function.update_of_ne hqr]
      exact h.sections q
  · change Function.update s.readers r (.holding s.ptr) q = .holding (some p) at hq
    by_cases hqr : q = r
    · rw [hqr, Function.update_self, ReaderPc.holding.injEq] at hq
      have hloc := h.located
      rw [Phase.owned_of_ne hlive, hq] at hloc
      exact .inl hloc.place_ptr
    · rw [Function.update_of_ne hqr] at hq
      exact h.held q p hq
  · change Function.update s.readers r (.holding s.ptr) q ≠ .outside at hq
    by_cases hqr : q = r
    · exact hqr ▸ h.waits ws hws r hinside
    · rw [Function.update_of_ne hqr] at hq
      exact h.waits ws hws q hq

theorem Phase.owned_leave (ph : Phase R) (r : R) (ptr : Option Nat) :
    (ph.leave r).owned ptr = ph.owned ptr := by
  rcases ph with _ | ws | _ <;> rfl

theorem Phase.leave_eq_dead_iff (ph : Phase R) (r : R) : ph.leave r = .dead ↔ ph = .dead := by
  rcases ph with _ | ws | _ <;> simp [Phase.leave]

theorem inv_readUnlock {r : R} (h : RcuInv s place) :
    RcuInv { s with
      readers := Function.update s.readers r .outside
      grace := s.grace.leave r
      phase := s.phase.leave r } place := by
  -- a reader still inside is another one, and was inside before
  have hother : ∀ q, Function.update s.readers r .outside q ≠ .outside →
      q ≠ r ∧ s.readers q ≠ .outside := by
    intro q hq
    have hqr : q ≠ r := fun heq => by simp [heq] at hq
    rw [Function.update_of_ne hqr] at hq
    exact ⟨hqr, hq⟩
  refine ⟨?_, fun q => ?_, fun q p hq => ?_, fun ws hws q hq => ?_, fun hd q => ?_⟩
  · change Located place ((s.phase.leave r).owned s.ptr) _ _ _ _ _ _
    rw [Phase.owned_leave, Grace.items_leave]
    exact h.located
  · change q ∈ s.grace.sections.filter (· ≠ r) ↔ Function.update s.readers r .outside q ≠ .outside
    rw [List.mem_filter, h.sections q]
    constructor
    · rintro ⟨hq, hqr⟩
      rw [Function.update_of_ne (by simpa using hqr)]
      exact hq
    · intro hq
      obtain ⟨hqr, hq'⟩ := hother q hq
      exact ⟨hq', by simpa using hqr⟩
  · change Function.update s.readers r .outside q = .holding (some p) at hq
    obtain ⟨hqr, -⟩ := hother q (by simp [hq])
    rw [Function.update_of_ne hqr] at hq
    exact (h.held q p hq).mono fun hc => hc.leave hqr
  · obtain ⟨hqr, hq'⟩ := hother q hq
    change s.phase.leave r = .destroying ws at hws
    rcases hph : s.phase with _ | ws' | _
    · simp [hph, Phase.leave] at hws
    · rw [hph] at hws
      simp only [Phase.leave, Phase.destroying.injEq] at hws
      rw [← hws, List.mem_filter]
      exact ⟨h.waits ws' hph q hq', by simpa using hqr⟩
    · simp [hph, Phase.leave] at hws
  · by_contra hq
    exact h.alive_of_inside (hother q hq).2 ((Phase.leave_eq_dead_iff _ _).mp hd)

end Readers

section Writers

variable [DecidableEq W]

theorem inv_exchange {w : W} (null : Bool) (h : RcuInv s place) (halive : s.phase = .alive)
    (hw : s.writers w = none) :
    ∃ place', RcuInv { s with
      ptr := if null then none else some s.next
      next := if null then s.next else s.next + 1
      writers := Function.update s.writers w s.ptr
      displaced := s.displaced ++ s.ptr.toList } place' := by
  have hlive : s.phase ≠ .dead := by simp [halive]
  have hloc := h.located
  rw [Phase.owned_of_ne hlive] at hloc
  obtain ⟨place', hloc', hkeep⟩ := hloc.exchange (g := s.grace) null hw
  refine ⟨place', ?_, h.sections, fun r p hr => hkeep r p (h.held r p hr), h.waits, h.dead⟩
  rw [Phase.owned_of_ne hlive]
  exact hloc'

/-- Whoever holds the value handed over is inside a section, so the callback waits for it. -/
theorem inv_callRcu {w : W} {p : Nat} (h : RcuInv s place) (hw : s.writers w = some p) :
    RcuInv { s with
      writers := Function.update s.writers w none
      grace := s.grace.call p
      handed := s.handed ++ [p] } (Function.update place p .queued) := by
  refine ⟨?_, h.sections, fun r q hr => ?_, h.waits, h.dead⟩
  · have hloc := h.located.hand hw
    rw [← Grace.items_call] at hloc
    exact hloc
  · by_cases hqp : q = p
    · have hin : r ∈ s.grace.sections :=
        (h.sections r).mpr fun hout => by simp [hout] at hr
      rw [hqp]
      exact .inr (.inr ⟨Function.update_self _ _ _, Grace.covers_call hin p⟩)
    · exact ((h.held r q hr).mono fun hc => hc.call p).update hqp

end Writers

variable [DecidableEq R] [DecidableEq W]

theorem rcuInv_start (initial : Bool) : ∃ place, RcuInv (rcuMachine R W initial).start place := by
  have hfresh : Located (fun _ => .unborn) none (fun _ : W => none) [] 0 [] [] [] :=
    ⟨fun _ _ => rfl, .nil (by simp), fun _ => .nil (by simp), .nil (by simp),
      .nil (by simp [Place.IsDisplaced]), .nil (by simp [Place.IsHanded]),
      .nil (by simp [Place.IsDeleted])⟩
  obtain ⟨place, hloc⟩ : ∃ place, Located place (if initial then some 0 else none)
      (fun _ : W => none) [] (if initial then 1 else 0) [] [] [] := by
    rcases initial with _ | _
    · exact ⟨_, hfresh⟩
    · exact ⟨_, hfresh.install⟩
  refine ⟨place, hloc, fun r => ?_, fun r p hr => ?_, fun ws hws => ?_, fun hd => ?_⟩
  · exact iff_of_false List.not_mem_nil fun hr => hr rfl
  · exact absurd hr (by simp [rcuMachine])
  · exact absurd hws (by simp [rcuMachine])
  · exact absurd hd (by simp [rcuMachine])

theorem rcuInv_step {s s' : RcuState R W} {a : RcuAct R W} (h : ∃ place, RcuInv s place)
    (hstep : rcuStep s a = some s') : ∃ place, RcuInv s' place := by
  obtain ⟨place, h⟩ := h
  -- only `exchange`, `callRcu`, `retireCb` and `reap` move a value
  cases a with
  | readLock r =>
      simp only [rcuStep, Option.ite_none_right_eq_some, Option.some.injEq] at hstep
      obtain ⟨⟨halive, -⟩, rfl⟩ := hstep
      exact ⟨place, inv_readLock h halive⟩
  | load r =>
      simp only [rcuStep, Option.ite_none_right_eq_some, Option.some.injEq] at hstep
      obtain ⟨hr, rfl⟩ := hstep
      exact ⟨place, inv_load h hr⟩
  | use r =>
      simp only [rcuStep] at hstep
      split at hstep
      · rw [← Option.some.inj hstep]
        exact ⟨place, h⟩
      · exact absurd hstep (by simp)
  | readUnlock r =>
      simp only [rcuStep] at hstep
      split at hstep
      · rw [← Option.some.inj hstep]
        exact ⟨place, inv_readUnlock h⟩
      · exact absurd hstep (by simp)
  | exchange w null =>
      simp only [rcuStep, Option.ite_none_right_eq_some, Option.some.injEq] at hstep
      obtain ⟨⟨halive, hw⟩, rfl⟩ := hstep
      exact inv_exchange null h halive hw
  | callRcu w =>
      simp only [rcuStep] at hstep
      split at hstep
      · next p hw =>
        rw [← Option.some.inj hstep]
        exact ⟨_, inv_callRcu h hw⟩
      · exact absurd hstep (by simp)
  | retireCb k =>
      obtain ⟨⟨p, g⟩, hrun, rfl⟩ := Option.map_eq_some_iff.mp hstep
      exact ⟨_, inv_retireCb h hrun⟩
  | destroy =>
      simp only [rcuStep, Option.ite_none_right_eq_some, Option.some.injEq] at hstep
      obtain ⟨halive, rfl⟩ := hstep
      exact ⟨place, inv_destroy h halive⟩
  | reap =>
      simp only [rcuStep] at hstep
      split at hstep
      · next hph =>
        rw [← Option.some.inj hstep]
        exact inv_reap h hph
      · exact absurd hstep (by simp)

theorem rcuInv_of_reached {initial : Bool} {as : List (RcuAct R W)} {s : RcuState R W}
    (h : (rcuMachine R W initial).Reached Machine.free as s) : ∃ place, RcuInv s place :=
  h.invariant (I := fun s => ∃ place, RcuInv s place) (rcuInv_start initial)
    fun _ _ _ hinv _ hstep => rcuInv_step hinv hstep

end Invariant

/-! ## Reclamation -/

section Reclamation

variable {R W : Type*}

/-- Nothing a reader holds is deleted, a displaced value is passed to `call_rcu` exactly
    once and deleted at most once, and the installed value is not deleted while the manager
    lives. -/
structure Reclaims (s : RcuState R W) : Prop where
  held : ∀ r p, s.readers r = .holding (some p) → p ∉ s.deleted
  displacedOnce : s.displaced.Nodup
  handedOnce : s.handed.Nodup
  /-- A displaced value has been passed on, or one `store` is about to pass it on. -/
  handed : ∀ p, p ∈ s.displaced ↔ p ∈ s.handed ∨ ∃ w, s.writers w = some p
  pending : ∀ w p, s.writers w = some p →
    p ∉ s.handed ∧ ∀ w', s.writers w' = some p → w' = w
  settled : (∀ w, s.writers w = none) → s.displaced.Perm s.handed
  deletedOnce : s.deleted.Nodup
  installed : s.phase ≠ .dead → ∀ p, s.ptr = some p → p ∉ s.deleted

theorem RcuInv.mem_displaced {s : RcuState R W} {place : Nat → Place W} (h : RcuInv s place)
    (p : Nat) : p ∈ s.displaced ↔ p ∈ s.handed ∨ ∃ w, s.writers w = some p := by
  have hwriter : (∃ w, s.writers w = some p) ↔ ∃ w, place p = .displacedBy w := by
    refine exists_congr fun w => ?_
    have hmem := (h.located.writers w).mem_iff p
    rw [Option.mem_toList] at hmem
    exact hmem
  rw [hwriter, h.located.displaced.mem_iff, h.located.handed.mem_iff]
  exact or_comm

theorem RcuInv.reclaims {s : RcuState R W} {place : Nat → Place W} (h : RcuInv s place) :
    Reclaims s := by
  have hloc := h.located
  refine ⟨fun r p hr hdel => ?_, hloc.displaced.nodup, hloc.handed.nodup, h.mem_displaced,
    fun w p hw => ⟨fun hhand => ?_, fun w' hw' => ?_⟩, fun hnone => ?_, hloc.deleted.nodup,
    fun hlive p hp hdel => ?_⟩
  · exact (h.held r p hr).not_deleted ((hloc.deleted.mem_iff p).mp hdel)
  · have hplace := (hloc.handed.mem_iff p).mp hhand
    rw [hloc.place_writer hw] at hplace
    simp [Place.IsHanded] at hplace
  · have hplace := hloc.place_writer hw'
    rw [hloc.place_writer hw, Place.displacedBy.injEq] at hplace
    exact hplace.symm
  · refine (List.perm_ext_iff_of_nodup hloc.displaced.nodup hloc.handed.nodup).mpr fun p => ?_
    rw [h.mem_displaced]
    simp [hnone]
  · rw [Phase.owned_of_ne hlive, hp] at hloc
    have hplace := (hloc.deleted.mem_iff p).mp hdel
    rw [hloc.place_ptr] at hplace
    simp [Place.IsDeleted] at hplace

/-- Every run of readers, writers, callbacks and the destructor. -/
theorem rcu_managed_reclaims [DecidableEq R] [DecidableEq W] (initial : Bool)
    (as : List (RcuAct R W)) (s : RcuState R W)
    (h : (rcuMachine R W initial).Reached Machine.free as s) : Reclaims s := by
  obtain ⟨place, hinv⟩ := rcuInv_of_reached h
  exact hinv.reclaims

/-- A reader keeps the first value over two stores; the second value's callback runs before
    the first one's. -/
def overlapSchedule : List (RcuAct Unit Bool) :=
  [.readLock (), .load (), .exchange true false, .exchange false false, .callRcu true,
   .use (), .readUnlock (), .callRcu false, .retireCb 1, .retireCb 0, .destroy, .reap]

theorem rcu_managed_overlapSchedule :
    ∃ s, (rcuMachine Unit Bool true).Reached Machine.free overlapSchedule s ∧
      s.displaced = [0, 1] ∧ s.deleted = [1, 0, 2] ∧ Reclaims s := by
  have hrun : ((rcuMachine Unit Bool true).run (rcuMachine Unit Bool true).start
      overlapSchedule).map (fun s => (s.displaced, s.deleted)) = some ([0, 1], [1, 0, 2]) := by
    decide
  obtain ⟨s, hs, hview⟩ := Option.map_eq_some_iff.mp hrun
  rw [Prod.mk.injEq] at hview
  have hreached := Machine.reached_of_run hs
  exact ⟨s, hreached, hview.1, hview.2, rcu_managed_reclaims true overlapSchedule s hreached⟩

end Reclamation

end NomosRt.Rcu
