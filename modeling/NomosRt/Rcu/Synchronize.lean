/-
  NomosRt.Rcu.Synchronize

  What a caller of `synchronize_rcu` may rely on.

  Whoever was inside a section at the call has left it when the call comes back
  (`synchronize_rcu_waits`), whatever other callers and later readers do meanwhile.
  And the call does come back once the sections are left: neither the two locks nor
  the readers that enter sections keep it (`synchronize_rcu_returns`).
-/

import Mathlib.Algebra.Order.BigOperators.Group.List
import Mathlib.Algebra.Order.Group.Nat
import NomosRt.Rcu.ReadSide

namespace NomosRt.Rcu

open NomosRt.Lib

section Safety

variable {T W : Type*} [DecidableEq T] [DecidableEq W] {s s' : UrcuState T W} {t : T} {w : W}

/-! ## Grace periods -/

theorem inv_reached {as : List (UrcuAct T W)}
    (h : (urcuMachine T W).Reached DepthInRange as s) : s.Inv :=
  h.invariant inv_urcuMachine fun _ _ _ hinv hG hs => inv_urcuStep hinv hG hs

omit [DecidableEq W] in
theorem owed_visit (s : UrcuState T W) (second : Bool) (t : T) :
    (s.visit second t).owed = s.owed := by
  unfold UrcuState.visit UrcuState.unlink
  split
  · split_ifs <;> rfl
  · split_ifs <;> rfl
  · rfl

/-- What a call waits for changes when a section ends, and not by the call's own steps. -/
theorem owed_syncNext (hs : s.syncNext w = some s') : s'.owed = s.owed := by
  unfold UrcuState.syncNext at hs
  split at hs
  · cases hs
  · simp only [Option.ite_none_right_eq_some, Option.some.injEq] at hs
    rw [← hs.2]
    rfl
  · simp only [Option.ite_none_right_eq_some, Option.some.injEq] at hs
    rw [← hs.2]
    rfl
  · cases hs
    exact owed_visit ..
  · split_ifs at hs <;> cases hs <;> rfl
  · simp only [Option.ite_none_right_eq_some, Option.some.injEq] at hs
    rw [← hs.2]
    rfl
  all_goals cases hs; rfl

/-- A section that stays open stays owed. -/
theorem mem_owed_step {a : UrcuAct T W} (h : s.Inv) (hs : urcuStep s a = some s')
    (ht : t ∈ s.owed w) (hopen : s'.ctr t &&& gpCtrNestMask ≠ 0) : t ∈ s'.owed w := by
  cases a with
  | register u =>
      simp only [urcuStep, Option.ite_none_right_eq_some, Option.some.injEq] at hs
      rw [← hs.2]
      exact ht
  | unregister u =>
      simp only [urcuStep, Option.ite_none_right_eq_some, Option.some.injEq] at hs
      obtain ⟨-, rfl⟩ := hs
      have hne : t ≠ u := by
        rintro rfl
        apply hopen
        simp
      simpa [UrcuState.leave] using ⟨ht, hne⟩
  | loadGp u =>
      simp only [urcuStep, Option.ite_none_right_eq_some, Option.some.injEq] at hs
      rw [← hs.2]
      exact ht
  | storeCtr u =>
      simp only [urcuStep] at hs
      split at hs <;> cases hs
      exact ht
  | nest u =>
      simp only [urcuStep, Option.ite_none_right_eq_some, Option.some.injEq] at hs
      rw [← hs.2]
      exact ht
  | unlock u =>
      simp only [urcuStep, Option.ite_none_right_eq_some, Option.some.injEq] at hs
      obtain ⟨-, rfl⟩ := hs
      dsimp only at hopen ⊢
      split_ifs with hlast
      · have hne : t ≠ u := by
          rintro rfl
          rw [Function.update_self] at hopen
          exact hopen hlast
        simpa [UrcuState.leave] using ⟨ht, hne⟩
      · exact ht
  | syncCall u =>
      simp only [urcuStep, Option.ite_none_right_eq_some, Option.some.injEq] at hs
      obtain ⟨-, rfl⟩ := hs
      by_cases hwu : w = u
      · -- the caller has come back and calls again
        have hself := h.calls.open_of_owed w t ht
        simpa [hwu] using hself
      · simpa [hwu] using ht
  | syncNext u =>
      rw [owed_syncNext hs]
      exact ht

/-- Between the call of `synchronize_rcu` and any later state, a thread that was inside a section
    has left it or is owed still. -/
theorem left_or_owed {as bs : List (UrcuAct T W)}
    (hcall : (urcuMachine T W).Reached DepthInRange as s)
    (hrun : (urcuMachine T W).Reached DepthInRange (as ++ .syncCall w :: bs) s')
    (ht : s.ctr t &&& gpCtrNestMask ≠ 0) :
    (∃ cs ds u, bs = cs ++ ds ∧
        (urcuMachine T W).Reached DepthInRange (as ++ .syncCall w :: cs) u ∧
        u.ctr t &&& gpCtrNestMask = 0) ∨
      t ∈ s'.owed w := by
  induction bs using List.reverseRecOn generalizing s' with
  | nil =>
      obtain ⟨s₀, hs₀, -, hstep⟩ := hrun.of_snoc
      obtain rfl := hs₀.unique hcall
      have hopen := ((inv_reached hcall).words.mem_sections t).mpr ht
      simp only [urcuMachine, urcuStep, Option.ite_none_right_eq_some, Option.some.injEq] at hstep
      obtain ⟨-, rfl⟩ := hstep
      exact .inr (by simpa using hopen)
  | append_singleton bs a ih =>
      have hsplit : as ++ .syncCall w :: (bs ++ [a]) = (as ++ .syncCall w :: bs) ++ [a] := by simp
      have hlast := hrun
      rw [hsplit] at hlast
      obtain ⟨s₀, hs₀, -, hstep⟩ := hlast.of_snoc
      rcases ih hs₀ with ⟨cs, ds, u, rfl, hu, hout⟩ | howed
      · exact .inl ⟨cs, ds ++ [a], u, by simp, hu, hout⟩
      · by_cases hclosed : s'.ctr t &&& gpCtrNestMask = 0
        · exact .inl ⟨bs ++ [a], [], s', by simp, hrun, hclosed⟩
        · exact .inr (mem_owed_step (inv_reached hs₀) hstep howed hclosed)

/-- Grace period: when `synchronize_rcu` has come back, every thread that was inside a section
    at the call has been outside all of its sections in between. -/
theorem synchronize_rcu_waits {as bs : List (UrcuAct T W)}
    (hcall : (urcuMachine T W).Reached DepthInRange as s)
    (hrun : (urcuMachine T W).Reached DepthInRange (as ++ .syncCall w :: bs) s')
    (hreturned : s'.sync w = .idle) (ht : s.ctr t &&& gpCtrNestMask ≠ 0) :
    ∃ cs ds u, bs = cs ++ ds ∧
      (urcuMachine T W).Reached DepthInRange (as ++ .syncCall w :: cs) u ∧
      u.ctr t &&& gpCtrNestMask = 0 := by
  rcases left_or_owed hcall hrun ht with hleft | howed
  · exact hleft
  · have haw := (inv_reached hrun).calls.awaited w t howed
    rw [hreturned] at haw
    exact haw.elim

end Safety

/-- A thread registers and enters a section. -/
def enterRun : List (UrcuAct Unit Unit) := [.register (), .loadGp (), .storeCtr ()]

/-- The steps of a call of `synchronize_rcu` that finds the reader in the first scan and again
    after the flip; then the reader leaves and the call comes back. -/
def returnRun : List (UrcuAct Unit Unit) :=
  List.replicate 7 (.syncNext ()) ++ [.unlock ()] ++ List.replicate 6 (.syncNext ())

theorem synchronize_rcu_waits_for_reader :
    ∃ cs ds u, returnRun = cs ++ ds ∧
      (urcuMachine Unit Unit).Reached DepthInRange (enterRun ++ .syncCall () :: cs) u ∧
      u.ctr () &&& gpCtrNestMask = 0 := by
  have hcall : ((urcuMachine Unit Unit).runIf DepthInRange (urcuMachine Unit Unit).start
      enterRun).map (fun s => s.ctr ()) = some (ctrOf false 1) := by decide
  have hreturn : ((urcuMachine Unit Unit).runIf DepthInRange (urcuMachine Unit Unit).start
      (enterRun ++ .syncCall () :: returnRun)).map (fun s => s.sync ()) = some .idle := by decide
  obtain ⟨s, hs, hctr⟩ := Option.map_eq_some_iff.mp hcall
  obtain ⟨s', hs', hidle⟩ := Option.map_eq_some_iff.mp hreturn
  refine synchronize_rcu_waits (Machine.reached_of_runIf hs) (Machine.reached_of_runIf hs') hidle ?_
  rw [hctr]
  decide

/-! ## Progress -/

section Progress

variable {T W : Type*} {s s' : UrcuState T W} {t : T} {w : W}

/-- No thread is inside a section. -/
def UrcuState.Closed (s : UrcuState T W) : Prop := ∀ t, s.ctr t &&& gpCtrNestMask = 0

/-- How many threads the lists hold. -/
def UrcuState.readers (s : UrcuState T W) : Nat :=
  s.registry.length + s.curSnapReaders.length + s.qsreaders.length

/-- A bound for the steps left to a call when no section is open.  A reader that was looked at
    while it was inside is looked at once more in the next scan. -/
def UrcuState.placeRank (s : UrcuState T W) : SyncPc T → Nat
  | .idle => 0
  | .unlocking => 1
  | .leaving => 2
  | .splicing => 3
  | .scanning true todo => 4 + todo.length + 4 * (s.curSnapReaders.length - todo.length)
  | .waiting true => 5 + 2 * s.curSnapReaders.length
  | .flipping => 5 + s.curSnapReaders.length
  | .scanning false todo =>
      6 + s.curSnapReaders.length + todo.length + 4 * (s.registry.length - todo.length)
  | .waiting false => 7 + s.curSnapReaders.length + 2 * s.registry.length
  | .gpLocked => 7 + s.curSnapReaders.length + s.registry.length
  | .called => 8 + s.readers

/-- The steps left to a call, those of the holder of `rcu_gp_lock` included. -/
def UrcuState.rank (s : UrcuState T W) (w : W) : Nat :=
  s.placeRank (s.sync w) +
    match s.sync w, s.gpLock with
    | .called, some holder => s.placeRank (s.sync holder)
    | _, _ => 0

/-- The registry's lock is free when the holder of `rcu_gp_lock` does not have it. -/
theorem UrcuState.Inv.registryLock_free (h : s.Inv) (hgp : (s.sync w).hasGp = true)
    (hregistry : (s.sync w).hasRegistry = false) : s.registryLock = none := by
  cases hlock : s.registryLock with
  | none => rfl
  | some w' =>
      have hin := (h.registryHeld w').mp hlock
      by_cases hw : w' = w
      · rw [hw, hregistry] at hin
        cases hin
      · have hout := h.others hgp hw
        cases hpc : s.sync w' <;> simp [hpc, SyncPc.hasGp, SyncPc.hasRegistry] at hin hout

variable [DecidableEq T] [DecidableEq W]

omit [DecidableEq W] in
/-- With no section open a reader that is looked at is done with. -/
theorem visit_of_closed (hclosed : s.Closed) (second : Bool) (t : T) :
    s.visit second t = { s.unlink second t with qsreaders := t :: s.qsreaders } := by
  have hstate : readerState (s.ctr t) s.gpCtr = .inactive := if_pos (hclosed t)
  rw [UrcuState.visit, hstate]

/-- What a step of the holder of `rcu_gp_lock` leaves as it was, and the rank it lowers. -/
structure HolderStep (s s' : UrcuState T W) (w : W) : Prop where
  ctr : s'.ctr = s.ctr
  others : ∀ w', w' ≠ w → s'.sync w' = s.sync w'
  readers : s'.readers = s.readers
  lock : s'.gpLock = s.gpLock ∨ s'.gpLock = none
  notCalled : s'.sync w ≠ .called
  rank : s'.placeRank (s'.sync w) < s.placeRank (s.sync w)

omit [DecidableEq W] in
theorem length_filter_ne {l : List T} (hnodup : l.Nodup) (ht : t ∈ l) :
    l.length = (l.filter (· ≠ t)).length + 1 :=
  (perm_cons_filter hnodup ht).length_eq

theorem holderStep_visit {second : Bool} {todo : List T} (h : s.Inv) (hclosed : s.Closed)
    (hpc : s.sync w = .scanning second (t :: todo)) :
    HolderStep s ((s.visit second t).moveTo w (.scanning second todo)) w := by
  have hplace := h.calls.place w
  rw [hpc] at hplace
  have ht : t ∈ s.inputReaders second := hplace.2 t (List.mem_cons_self ..)
  have hlength := length_filter_ne (h.nodup_inputReaders second) ht
  have hsub : (t :: todo).length ≤ (s.inputReaders second).length :=
    (List.subperm_of_subset hplace.1 hplace.2).length_le
  rw [List.length_cons] at hsub
  rw [visit_of_closed hclosed]
  cases second with
  | false =>
      have hlen : s.registry.length = (s.registry.filter (· ≠ t)).length + 1 := hlength
      have hle : todo.length + 1 ≤ s.registry.length := hsub
      refine ⟨rfl, fun w' hw => Function.update_of_ne hw _ _, ?_, .inl rfl, ?_, ?_⟩
      · change (s.registry.filter (· ≠ t)).length + s.curSnapReaders.length +
          (s.qsreaders.length + 1) = s.registry.length + s.curSnapReaders.length + s.qsreaders.length
        omega
      · simp [UrcuState.moveTo]
      · rw [hpc]
        simp only [UrcuState.moveTo, Function.update_self, UrcuState.placeRank, UrcuState.unlink,
          Bool.false_eq_true, if_false, List.length_cons]
        omega
  | true =>
      have hlen : s.curSnapReaders.length = (s.curSnapReaders.filter (· ≠ t)).length + 1 := hlength
      have hle : todo.length + 1 ≤ s.curSnapReaders.length := hsub
      refine ⟨rfl, fun w' hw => Function.update_of_ne hw _ _, ?_, .inl rfl, ?_, ?_⟩
      · change s.registry.length + (s.curSnapReaders.filter (· ≠ t)).length +
          (s.qsreaders.length + 1) = s.registry.length + s.curSnapReaders.length + s.qsreaders.length
        omega
      · simp [UrcuState.moveTo]
      · rw [hpc]
        simp only [UrcuState.moveTo, Function.update_self, UrcuState.placeRank, UrcuState.unlink,
          if_true, List.length_cons]
        omega

omit [DecidableEq T] in
/-- A step that leaves the lists as they were. -/
theorem holderStep_moveTo {pc : SyncPc T} {gpCtr : BitVec 64} {gpLock registryLock : Option W}
    (hlock : gpLock = s.gpLock ∨ gpLock = none) (hcalled : pc ≠ .called)
    (hrank : s.placeRank pc < s.placeRank (s.sync w)) :
    HolderStep s { s.moveTo w pc with
      gpCtr := gpCtr, gpLock := gpLock, registryLock := registryLock } w := by
  have hself : Function.update s.sync w pc w = pc := Function.update_self ..
  refine ⟨rfl, fun w' hw => Function.update_of_ne hw _ _, rfl, hlock, ?_, ?_⟩
  · exact fun heq => hcalled (hself.symm.trans heq)
  · change s.placeRank (Function.update s.sync w pc w) < _
    rw [hself]
    exact hrank

omit [DecidableEq T] in
theorem holderStep_splice (hpc : s.sync w = .splicing) :
    HolderStep s { s.moveTo w .leaving with
      registry := s.qsreaders ++ s.registry, qsreaders := [] } w := by
  refine ⟨rfl, fun w' hw => Function.update_of_ne hw _ _, ?_, .inl rfl, ?_, ?_⟩
  · simp only [UrcuState.readers, UrcuState.moveTo, List.length_append, List.length_nil]
    omega
  · simp [UrcuState.moveTo]
  · rw [hpc]
    simp [UrcuState.moveTo, UrcuState.placeRank]

/-- The holder of `rcu_gp_lock` is never stuck when no section is open. -/
theorem holder_proceeds (h : s.Inv) (hclosed : s.Closed) (hgp : (s.sync w).hasGp = true) :
    ∃ s', s.syncNext w = some s' ∧ HolderStep s s' w := by
  unfold UrcuState.syncNext
  split <;> rename_i hpc
  · rw [hpc] at hgp
    cases hgp
  · rw [hpc] at hgp
    cases hgp
  · rw [if_pos (h.registryLock_free hgp (by rw [hpc]; rfl))]
    refine ⟨_, rfl, holderStep_moveTo (.inl rfl) ?_ ?_⟩
    · split_ifs <;> simp
    · rw [hpc]
      split_ifs with hnil
      · simp only [UrcuState.placeRank]
        omega
      · simp only [UrcuState.placeRank]
        omega
  · exact ⟨_, rfl, holderStep_visit h hclosed hpc⟩
  · rename_i second
    by_cases hempty : s.inputReaders second = []
    · rw [if_pos hempty]
      refine ⟨_, rfl, holderStep_moveTo (.inl rfl) ?_ ?_⟩
      · cases second <;> simp
      · rw [hpc]
        cases second with
        | false =>
            have hnil : s.registry = [] := hempty
            simp [UrcuState.placeRank, hnil]
        | true =>
            have hnil : s.curSnapReaders = [] := hempty
            simp [UrcuState.placeRank, hnil]
    · rw [if_neg hempty]
      have hpos := List.length_pos_iff.mpr hempty
      refine ⟨_, rfl, holderStep_moveTo (.inl rfl) (by simp) ?_⟩
      rw [hpc]
      cases second with
      | false =>
          have hlt : 0 < s.registry.length := hpos
          simp only [UrcuState.placeRank, List.length_nil]
          omega
      | true =>
          have hlt : 0 < s.curSnapReaders.length := hpos
          simp only [UrcuState.placeRank, List.length_nil]
          omega
  · rename_i second
    rw [if_pos (h.registryLock_free hgp (by rw [hpc]; rfl))]
    refine ⟨_, rfl, holderStep_moveTo (.inl rfl) (by simp) ?_⟩
    rw [hpc]
    cases second <;> simp [UrcuState.placeRank, UrcuState.inputReaders] <;> omega
  · refine ⟨_, rfl, holderStep_moveTo (.inl rfl) (by simp) ?_⟩
    rw [hpc]
    simp [UrcuState.placeRank]
  · exact ⟨_, rfl, holderStep_splice hpc⟩
  · refine ⟨_, rfl, holderStep_moveTo (.inl rfl) (by simp) ?_⟩
    rw [hpc]
    simp [UrcuState.placeRank]
  · refine ⟨_, rfl, holderStep_moveTo (.inr rfl) (by simp) ?_⟩
    rw [hpc]
    simp [UrcuState.placeRank]

/-- A caller's step, or that of the holder it waits for, lowers the rank. -/
theorem rank_proceeds (h : s.Inv) (hclosed : s.Closed) (hw : s.sync w ≠ .idle) :
    ∃ w' s', s.syncNext w' = some s' ∧ s'.Closed ∧ s'.rank w < s.rank w := by
  by_cases hgp : (s.sync w).hasGp = true
  · obtain ⟨s', hs', hstep⟩ := holder_proceeds h hclosed hgp
    refine ⟨w, s', hs', fun t => hstep.ctr ▸ hclosed t, ?_⟩
    calc s'.rank w = s'.placeRank (s'.sync w) := by
          rw [UrcuState.rank]
          split
          · exact absurd ‹_› hstep.notCalled
          · rfl
      _ < s.placeRank (s.sync w) := hstep.rank
      _ ≤ s.rank w := Nat.le_add_right ..
  · have hcalled : s.sync w = .called :=
      (SyncPc.eq_of_not_hasGp (by simpa using hgp)).resolve_left hw
    cases hlock : s.gpLock with
    | none =>
        have hs' : s.syncNext w = some { s.moveTo w .gpLocked with gpLock := some w } := by
          rw [UrcuState.syncNext, hcalled]
          exact if_pos hlock
        refine ⟨w, _, hs', hclosed, ?_⟩
        simp only [UrcuState.rank, UrcuState.moveTo, Function.update_self, hcalled,
          UrcuState.placeRank, UrcuState.readers, hlock]
        omega
    | some holder =>
        have hholder := (h.gpHeld holder).mp hlock
        have hne : w ≠ holder := by
          rintro rfl
          exact hgp hholder
        obtain ⟨s', hs', hstep⟩ := holder_proceeds h hclosed hholder
        refine ⟨holder, s', hs', fun t => hstep.ctr ▸ hclosed t, ?_⟩
        have hrank := hstep.rank
        have hbase : s'.placeRank .called = s.placeRank .called := congrArg (8 + ·) hstep.readers
        rcases hstep.lock with hsame | hfree
        · simp only [UrcuState.rank, hstep.others w hne, hcalled, hsame, hlock]
          omega
        · simp only [UrcuState.rank, hstep.others w hne, hcalled, hfree, hlock]
          omega

/-- The depth of a thread's sections. -/
def UrcuState.depth (s : UrcuState T W) (t : T) : Nat := (s.ctr t &&& gpCtrNestMask).toNat

theorem toNat_ctrOf_and_nestMask (phase : Bool) (depth : BitVec 32) :
    (ctrOf phase depth &&& gpCtrNestMask).toNat = depth.toNat := by
  rw [ctrOf, gpCtrNestMask_eq, BitVec.and_append, BitVec.and_allOnes, BitVec.toNat_append]
  simp

omit [DecidableEq T] [DecidableEq W] in
theorem depth_unlock (h : s.Inv) (ht : s.ctr t &&& gpCtrNestMask ≠ 0) :
    ((s.ctr t - gpCount) &&& gpCtrNestMask).toNat < s.depth t := by
  obtain ⟨phase, depth, hctr⟩ := h.words.word t
  have hdepth : depth ≠ 0 := by rwa [hctr, ne_eq, ctrOf_and_nestMask] at ht
  have hpos : depth.toNat ≠ 0 := fun heq => hdepth (BitVec.eq_of_toNat_eq (by simpa using heq))
  have hlt := depth.isLt
  rw [UrcuState.depth, hctr, ctrOf_sub_count phase hdepth, toNat_ctrOf_and_nestMask,
    toNat_ctrOf_and_nestMask, BitVec.toNat_sub]
  simp
  omega

/-- The depths of all threads. -/
def UrcuState.depths (s : UrcuState T W) : Nat :=
  ((s.registry ++ s.curSnapReaders ++ s.qsreaders).map s.depth).sum

/-- A thread inside a section can leave it. -/
theorem depths_unlock (h : s.Inv) (hopen : ¬ s.Closed) :
    ∃ t s', urcuStep s (.unlock t) = some s' ∧ s'.depths < s.depths := by
  obtain ⟨t, ht⟩ : ∃ t, s.ctr t &&& gpCtrNestMask ≠ 0 := by
    by_contra hno
    exact hopen fun t => not_not.mp fun ht => hno ⟨t, ht⟩
  have hout : s.lock t = .out := by
    cases hlock : s.lock t with
    | out => rfl
    | loaded v => exact absurd (h.words.loaded t v hlock).2.1 ht
  have hreg := h.registered_of_open ((h.words.mem_sections t).mpr ht)
  have hs' : urcuStep s (.unlock t) = some
      { (if (s.ctr t - gpCount) &&& gpCtrNestMask = 0 then s.leave t else s) with
        ctr := Function.update s.ctr t (s.ctr t - gpCount) } := if_pos ⟨hout, ht⟩
  refine ⟨t, _, hs', ?_⟩
  have hsum : ((s.registry ++ s.curSnapReaders ++ s.qsreaders).map fun u =>
      (Function.update s.ctr t (s.ctr t - gpCount) u &&& gpCtrNestMask).toNat).sum < s.depths := by
    refine List.sum_lt_sum _ _ (fun u _ => ?_) ⟨t, (h.lists.mem_iff t).mp hreg, ?_⟩
    · by_cases hut : u = t
      · rw [hut, Function.update_self]
        exact (depth_unlock h ht).le
      · rw [Function.update_of_ne hut]
        exact le_rfl
    · rw [Function.update_self]
      exact depth_unlock h ht
  split_ifs <;> exact hsum

/-- The threads inside sections can leave them. -/
theorem canReach_closed (h : s.Inv) :
    (urcuMachine T W).CanReach (fun a => (∃ t, a = .unlock t) ∨ ∃ w, a = .syncNext w)
      (fun s' => s'.Inv ∧ s'.Closed) s := by
  refine Machine.canReach_of_rank (I := UrcuState.Inv) UrcuState.depths ?_ h
  intro s hinv hopen
  obtain ⟨t, s', hs', hlt⟩ := depths_unlock hinv fun hclosed => hopen ⟨hinv, hclosed⟩
  exact ⟨.unlock t, s', .inl ⟨t, rfl⟩, hs', inv_unlock hinv hs', hlt⟩

/-- From every reachable state, once the readers leave their sections and do nothing else, the
    callers' own steps let any call of `synchronize_rcu` come back. -/
theorem synchronize_rcu_returns {as : List (UrcuAct T W)}
    (h : (urcuMachine T W).Reached DepthInRange as s) (w : W) :
    (urcuMachine T W).CanReach (fun a => (∃ t, a = .unlock t) ∨ ∃ w, a = .syncNext w)
      (fun s' => s'.sync w = .idle) s := by
  refine (canReach_closed (inv_reached h)).trans fun s hs => ?_
  refine Machine.canReach_of_rank (I := fun s => s.Inv ∧ s.Closed) (fun s => s.rank w) ?_ hs
  rintro s ⟨hinv, hclosed⟩ hidle
  obtain ⟨w', s', hs', hclosed', hrank⟩ := rank_proceeds hinv hclosed hidle
  exact ⟨.syncNext w', s', .inr ⟨w', rfl⟩, hs', ⟨inv_syncNext hinv hs', hclosed'⟩, hrank⟩

end Progress

theorem synchronize_rcu_returns_after_reader : ∃ s,
    (urcuMachine Unit Unit).Reached DepthInRange (enterRun ++ [.syncCall ()]) s ∧
    s.ctr () = ctrOf false 1 ∧ s.sync () = .called ∧
    (urcuMachine Unit Unit).CanReach (fun a => (∃ t, a = .unlock t) ∨ ∃ w, a = .syncNext w)
      (fun s' => s'.sync () = .idle) s := by
  have hcall : ((urcuMachine Unit Unit).runIf DepthInRange (urcuMachine Unit Unit).start
      (enterRun ++ [.syncCall ()])).map (fun s => (s.ctr (), s.sync ())) =
        some (ctrOf false 1, .called) := by decide
  obtain ⟨s, hs, heq⟩ := Option.map_eq_some_iff.mp hcall
  obtain ⟨hctr, hpc⟩ := Prod.mk.inj heq
  have hreached := Machine.reached_of_runIf hs
  exact ⟨s, hreached, hctr, hpc, synchronize_rcu_returns hreached ()⟩

end NomosRt.Rcu
