/-
  NomosRt.Scheduler.Run

  Whole runs of the event scheduler: any sequence of staging pushes, ticks (with
  arbitrary, possibly non-monotone beats) and pops of the OSC queue by the sender
  thread.

  An event is identified by the position of its push in the sequence, so equal
  events stay apart.  `RunInv` says what the staging ring and the pending list
  hold after a prefix of the run; `event_scheduler_delivers_on_time` reads off
  what each tick fires.
-/

import NomosRt.Lib.StableSort
import NomosRt.Scheduler.Tick

namespace NomosRt.Scheduler

open NomosRt.Lib NomosRt.Spsc

/-- The calls made on a scheduler.  `oscPop` is the sender thread taking one event
    from `osc_out_`. -/
inductive SchedOp (B C O : Type*) where
  | push (ev : ScheduledEvent B C O)
  | tick (currentBeat : B)
  | oscPop

/-- What a call returned or did. -/
inductive SchedResult (B C O : Type*) where
  | pushed (accepted : Bool)
  | ticked (log : List (Delivery B C O))
  | popped (osc : Option O)

section Run

variable {B C O : Type*} [LinearOrder B]

/-- One call. -/
def schedStep (cs co : Capacity) (s : EventScheduler B C O) :
    SchedOp B C O → SchedResult B C O × EventScheduler B C O
  | .push ev =>
      let r := SpscQueue.push cs s.staging ev
      (.pushed r.1, { s with staging := r.2 })
  | .tick currentBeat =>
      let r := tick cs co s currentBeat
      (.ticked r.1, r.2)
  | .oscPop =>
      match s.oscOut with
      | some q =>
          let r := SpscQueue.pop co q
          (.popped r.1, { s with oscOut := some r.2 })
      | none => (.popped none, s)

/-- A fresh scheduler, with or without a queue set by `set_osc_out`. -/
def schedStart (B C O : Type*) [Inhabited B] [Inhabited C] [Inhabited O] (wired : Bool) :
    EventScheduler B C O :=
  ⟨.empty, [], if wired then some .empty else none⟩

/-- The state after a sequence of calls. -/
def schedExec (cs co : Capacity) (s : EventScheduler B C O) (ops : List (SchedOp B C O)) :
    EventScheduler B C O :=
  ops.foldl (fun s op => (schedStep cs co s op).2) s

variable [Inhabited B] [Inhabited C] [Inhabited O]

/-- The state before call `n`. -/
def stateAt (cs co : Capacity) (wired : Bool) (ops : List (SchedOp B C O)) (n : Nat) :
    EventScheduler B C O :=
  schedExec cs co (schedStart B C O wired) (ops.take n)

/-- The result of call `n`, if there is one. -/
def resultAt (cs co : Capacity) (wired : Bool) (ops : List (SchedOp B C O)) (n : Nat) :
    Option (SchedResult B C O) :=
  ops[n]?.map fun op => (schedStep cs co (stateAt cs co wired ops n) op).1

/-- Call `i` is a push of `ev` that returned true. -/
def Accepted (cs co : Capacity) (wired : Bool) (ops : List (SchedOp B C O)) (i : Nat)
    (ev : ScheduledEvent B C O) : Prop :=
  ops[i]? = some (.push ev) ∧ resultAt cs co wired ops i = some (.pushed true)

/-- Every tick strictly between calls `i` and `n` came before `ev`'s beat. -/
def NotDueBetween (ops : List (SchedOp B C O)) (i n : Nat) (ev : ScheduledEvent B C O) : Prop :=
  ∀ t now, i < t → t < n → ops[t]? = some (.tick now) → now < ev.beat

/-- Some tick lies strictly between calls `i` and `n`. -/
def TickBetween (ops : List (SchedOp B C O)) (i n : Nat) : Prop :=
  ∃ t now, i < t ∧ t < n ∧ ops[t]? = some (SchedOp.tick (B := B) (C := C) (O := O) now)

/-- Firing order: by beat, ties by position of the push. -/
def Before (a b : Nat × ScheduledEvent B C O) : Prop :=
  a.2.beat < b.2.beat ∨ (a.2.beat = b.2.beat ∧ a.1 < b.1)

end Run

/-! ## One tick on position-tagged lists -/

section TickTagged

variable {B C O : Type*} [LinearOrder B]

/-- The comparison of the stable sort, on tagged events. -/
def leBeat (a b : Nat × ScheduledEvent B C O) : Bool := decide (a.2.beat ≤ b.2.beat)

theorem leBeat_trans (a b c : Nat × ScheduledEvent B C O) (hab : leBeat a b = true)
    (hbc : leBeat b c = true) : leBeat a c = true := by
  simp only [leBeat, decide_eq_true_eq] at hab hbc ⊢
  exact le_trans hab hbc

theorem leBeat_total (a b : Nat × ScheduledEvent B C O) : (leBeat a b || leBeat b a) = true := by
  simpa [leBeat] using le_total a.2.beat b.2.beat

/-- A list whose tied events are in push order is put in firing order by the
    stable sort. -/
theorem pairwise_before_mergeSort {l : List (Nat × ScheduledEvent B C O)}
    (h : l.Pairwise fun a b => leBeat b a = true → a.1 < b.1) :
    (l.mergeSort leBeat).Pairwise Before := by
  have hle := List.pairwise_mergeSort leBeat_trans leBeat_total l
  have hties := pairwise_mergeSort_ties leBeat_trans leBeat_total h
  refine (hle.and hties).imp ?_
  rintro a b ⟨hab, hba⟩
  simp only [leBeat, decide_eq_true_eq] at hab hba
  rcases lt_or_eq_of_le hab with hlt | heq
  · exact Or.inl hlt
  · exact Or.inr ⟨heq, hba (le_of_eq heq.symm)⟩

/-- A list in firing order is cut by a beat into its due and its later events. -/
theorem Before.due_closed (now : B) {l : List (Nat × ScheduledEvent B C O)}
    (h : l.Pairwise Before) :
    l.Pairwise fun a b => decide (b.2.beat ≤ now) = true → decide (a.2.beat ≤ now) = true := by
  refine h.imp ?_
  rintro a b hab hb
  simp only [decide_eq_true_eq] at hb ⊢
  rcases hab with hlt | ⟨heq, -⟩
  · exact le_trans (le_of_lt hlt) hb
  · exact heq ▸ hb

/-- The early return on an empty list changes nothing. -/
theorem tick_eq (cs co : Capacity) (s : EventScheduler B C O) (now : B) :
    tick cs co s now =
      let drained := drain cs s.staging s.pending
      let fired := fireLoop co now (stableSortByBeat drained.2) s.oscOut
      (fired.1, ⟨drained.1, fired.2.1, fired.2.2⟩) := by
  unfold tick
  by_cases hnil : (drain cs s.staging s.pending).2 = []
  · simp [hnil, stableSortByBeat, fireLoop]
  · simp [hnil]

/-- One tick of a scheduler whose ring holds `stag` and whose list is `pend`: with
    `S` the two lists in firing order, it fires the due events of `S` and keeps the
    others. -/
theorem tick_tagged {cs co : Capacity} {s : EventScheduler B C O}
    {stag pend : List (Nat × ScheduledEvent B C O)} {os : List O}
    (hstag : SpscQueue.Holds cs s.staging (stag.map Prod.snd))
    (hpend : s.pending = pend.map Prod.snd) (hosc : OscHolds co s.oscOut os)
    (hties : (pend ++ stag).Pairwise fun a b => leBeat b a = true → a.1 < b.1) (now : B) :
    let S := (pend ++ stag).mergeSort leBeat
    let r := tick cs co s now
    r.1.map Delivery.ev = (S.filter fun a => decide (a.2.beat ≤ now)).map Prod.snd ∧
      r.2.pending = (S.filter fun a => !decide (a.2.beat ≤ now)).map Prod.snd ∧
      SpscQueue.Holds cs r.2.staging [] ∧
      (∀ d ∈ r.1, FateOk s.oscOut.isSome d) ∧
      r.2.oscOut.isSome = s.oscOut.isSome ∧
      OscHolds co r.2.oscOut (os ++ oscAccepted r.1) := by
  obtain ⟨hdrain, hempty⟩ := drain_spec hstag s.pending
  have hsort : stableSortByBeat (drain cs s.staging s.pending).2
      = ((pend ++ stag).mergeSort leBeat).map Prod.snd := by
    rw [hdrain, hpend, ← List.map_append]
    exact mergeSort_map_comp Prod.snd (pend ++ stag)
  obtain ⟨hlog, hrest, hfates, hsome, hosc'⟩ :=
    fireLoop_spec now (stableSortByBeat (drain cs s.staging s.pending).2) hosc
  -- the list is sorted, so the due events are a prefix and `takeWhile` is a filter
  have hclosed := Before.due_closed now (pairwise_before_mergeSort hties)
  rw [hsort] at hlog hrest
  rw [List.takeWhile_map] at hlog
  rw [List.dropWhile_map] at hrest
  simp only [tick_eq]
  rw [hsort]
  rw [hsort] at hfates hsome hosc'
  refine ⟨?_, ?_, hempty, hfates, hsome, hosc'⟩
  · rw [hlog, ← takeWhile_eq_filter hclosed]
    rfl
  · rw [hrest, ← dropWhile_eq_filter hclosed]
    rfl

end TickTagged

/-! ## The ring after a push

The ring's events are kept with the number of the call that pushed them. -/

section AfterPush

variable {E : Type*}

/-- The numbered events after call `n` has pushed `ev`. -/
def stagedAfter (c : Capacity) (stag : List (Nat × E)) (n : Nat) (ev : E) : List (Nat × E) :=
  if stag.length + 1 < c.val then stag ++ [(n, ev)] else stag

variable {c : Capacity} {stag : List (Nat × E)} {n : Nat} {ev : E}

theorem mem_stagedAfter {i : Nat} {ev' : E} :
    (i, ev') ∈ stagedAfter c stag n ev ↔
      (i, ev') ∈ stag ∨ i = n ∧ ev' = ev ∧ stag.length + 1 < c.val := by
  unfold stagedAfter
  split_ifs with hroom
  · simp [hroom]
  · simp [hroom]

/-- An order on the events is kept if the new one comes last. -/
theorem pairwise_stagedAfter {R : Nat × E → Nat × E → Prop} {front : List (Nat × E)}
    (hR : (front ++ stag).Pairwise R) (hlast : ∀ a ∈ front ++ stag, R a (n, ev)) :
    (front ++ stagedAfter c stag n ev).Pairwise R := by
  unfold stagedAfter
  split_ifs
  · rw [← List.append_assoc, List.pairwise_append]
    refine ⟨hR, List.pairwise_singleton _ _, ?_⟩
    intro a ha b hb
    rw [List.mem_singleton] at hb
    rw [hb]
    exact hlast a ha
  · exact hR

/-- `push` answers whether there was room, and the ring holds the events after it. -/
theorem push_numbered [Inhabited E] {q : SpscQueue E}
    (h : SpscQueue.Holds c q (stag.map Prod.snd)) (n : Nat) (ev : E) :
    (SpscQueue.push c q ev).1 = decide (stag.length + 1 < c.val) ∧
      SpscQueue.Holds c (SpscQueue.push c q ev).2 ((stagedAfter c stag n ev).map Prod.snd) := by
  obtain ⟨hans, hholds⟩ := SpscQueue.push_spec h ev
  rw [List.length_map] at hans hholds
  refine ⟨hans, ?_⟩
  unfold stagedAfter
  split_ifs with hroom
  · simpa [hroom] using hholds
  · simpa [hroom] using hholds

end AfterPush

/-! ## Whole runs -/

section Invariant

variable {B C O : Type*} [LinearOrder B] [Inhabited B] [Inhabited C] [Inhabited O]
variable {cs co : Capacity} {wired : Bool} {ops : List (SchedOp B C O)}

/-- After the first `n` calls the ring holds the accepted events that no tick has
    drained, in push order, and the pending list the drained events that no tick
    has reached, in firing order. -/
structure RunInv (cs co : Capacity) (wired : Bool) (ops : List (SchedOp B C O)) (n : Nat)
    (stag pend : List (Nat × ScheduledEvent B C O)) : Prop where
  staging : SpscQueue.Holds cs (stateAt cs co wired ops n).staging (stag.map Prod.snd)
  pending : (stateAt cs co wired ops n).pending = pend.map Prod.snd
  mem_stag : ∀ i ev, (i, ev) ∈ stag ↔
    Accepted cs co wired ops i ev ∧ i < n ∧ ¬ TickBetween ops i n
  stag_order : stag.Pairwise fun a b => a.1 < b.1
  mem_pend : ∀ i ev, (i, ev) ∈ pend ↔
    Accepted cs co wired ops i ev ∧ TickBetween ops i n ∧ NotDueBetween ops i n ev
  pend_order : pend.Pairwise Before
  osc_wired : (stateAt cs co wired ops n).oscOut.isSome = wired
  osc_holds : ∃ os, OscHolds co (stateAt cs co wired ops n).oscOut os

omit [LinearOrder B] [Inhabited B] [Inhabited C] [Inhabited O] in
theorem TickBetween.lt {i n : Nat} (h : TickBetween ops i n) : i < n := by
  obtain ⟨t, now, hit, htn, -⟩ := h
  omega

omit [LinearOrder B] [Inhabited B] [Inhabited C] [Inhabited O] in
/-- A call that is not a tick does not change which events have been drained. -/
theorem tickBetween_succ_of_not_tick {i n : Nat} (hn : ∀ now, ops[n]? ≠ some (.tick now)) :
    TickBetween ops i (n + 1) ↔ TickBetween ops i n := by
  constructor
  · rintro ⟨t, now, hit, htn, hop⟩
    have hne : t ≠ n := by
      rintro rfl
      exact hn now hop
    exact ⟨t, now, hit, by omega, hop⟩
  · rintro ⟨t, now, hit, htn, hop⟩
    exact ⟨t, now, hit, by omega, hop⟩

omit [Inhabited B] [Inhabited C] [Inhabited O] in
/-- Nor which events have come due. -/
theorem notDueBetween_succ_of_not_tick {i n : Nat} {ev : ScheduledEvent B C O}
    (hn : ∀ now, ops[n]? ≠ some (.tick now)) :
    NotDueBetween ops i (n + 1) ev ↔ NotDueBetween ops i n ev := by
  constructor
  · intro h t now hit htn hop
    exact h t now hit (by omega) hop
  · intro h t now hit htn hop
    have hne : t ≠ n := by
      rintro rfl
      exact hn now hop
    exact h t now hit (by omega) hop

omit [Inhabited B] [Inhabited C] [Inhabited O] in
/-- After a tick the events not yet due are those the tick did not reach. -/
theorem notDueBetween_succ_tick {i n : Nat} {ev : ScheduledEvent B C O} {now : B}
    (hn : ops[n]? = some (.tick now)) (hi : i < n) :
    NotDueBetween ops i (n + 1) ev ↔ NotDueBetween ops i n ev ∧ now < ev.beat := by
  constructor
  · intro h
    exact ⟨fun t now' hit htn hop => h t now' hit (by omega) hop, h n now hi (by omega) hn⟩
  · rintro ⟨h, hnow⟩ t now' hit htn hop
    by_cases hne : t = n
    · subst hne
      rw [hn] at hop
      cases hop
      exact hnow
    · exact h t now' hit (by omega) hop

theorem stateAt_succ (cs co : Capacity) (wired : Bool) {n : Nat} {op : SchedOp B C O}
    (hn : ops[n]? = some op) :
    stateAt cs co wired ops (n + 1) = (schedStep cs co (stateAt cs co wired ops n) op).2 := by
  unfold stateAt schedExec
  rw [List.take_add_one, hn, Option.toList_some, List.foldl_append]
  rfl

omit [LinearOrder B] in
/-- The OSC queue starts empty. -/
theorem schedStart_oscHolds (co : Capacity) (wired : Bool) :
    OscHolds co (schedStart B C O wired).oscOut [] := by
  cases wired with
  | false => rfl
  | true =>
      show SpscQueue.Holds co (SpscQueue.empty : SpscQueue O) []
      exact SpscQueue.holds_empty

omit [Inhabited B] [Inhabited C] [Inhabited O] in
/-- A pop by the sender thread touches only the contents of the OSC queue. -/
theorem schedStep_oscPop (cs : Capacity) {co : Capacity} (s : EventScheduler B C O)
    {os : List O} (h : OscHolds co s.oscOut os) :
    (schedStep cs co s .oscPop).2.staging = s.staging ∧
      (schedStep cs co s .oscPop).2.pending = s.pending ∧
      (schedStep cs co s .oscPop).2.oscOut.isSome = s.oscOut.isSome ∧
      ∃ os', OscHolds co (schedStep cs co s .oscPop).2.oscOut os' := by
  cases hout : s.oscOut with
  | none =>
      simp only [schedStep, hout]
      exact ⟨trivial, trivial, trivial, os, hout ▸ h⟩
  | some q =>
      simp only [schedStep, hout]
      refine ⟨trivial, trivial, rfl, ?_⟩
      rw [hout] at h
      have hpop := SpscQueue.pop_spec h
      cases os with
      | nil =>
          simp only at hpop
          refine ⟨[], ?_⟩
          show SpscQueue.Holds co (SpscQueue.pop co q).2 []
          rw [hpop]
          exact h
      | cons o os => exact ⟨os, hpop.2⟩

theorem runInv_zero : RunInv cs co wired ops 0 [] [] where
  staging := by
    show SpscQueue.Holds cs (SpscQueue.empty : SpscQueue (ScheduledEvent B C O)) []
    exact SpscQueue.holds_empty
  pending := rfl
  mem_stag := by simp
  stag_order := .nil
  mem_pend := by
    intro i ev
    constructor
    · intro h
      simp at h
    · rintro ⟨-, h, -⟩
      exact absurd h.lt (Nat.not_lt_zero i)
  pend_order := .nil
  osc_wired := by cases wired <;> rfl
  osc_holds := ⟨[], schedStart_oscHolds co wired⟩

variable {n : Nat} {stag pend : List (Nat × ScheduledEvent B C O)}

/-- In the concatenation that a tick sorts, tied events are in push order. -/
theorem RunInv.ties (h : RunInv cs co wired ops n stag pend) :
    (pend ++ stag).Pairwise fun a b => leBeat b a = true → a.1 < b.1 := by
  rw [List.pairwise_append]
  refine ⟨?_, ?_, ?_⟩
  · refine h.pend_order.imp ?_
    rintro a b (hlt | ⟨-, hidx⟩) hba
    · simp only [leBeat, decide_eq_true_eq] at hba
      exact absurd hlt (not_lt_of_ge hba)
    · exact hidx
  · refine h.stag_order.imp ?_
    intro a b hidx _
    exact hidx
  · -- a drained event was pushed before every event still in the ring
    rintro ⟨i, ev⟩ hi ⟨j, ev'⟩ hj -
    obtain ⟨-, ⟨t, now, hit, htn, hop⟩, -⟩ := (h.mem_pend i ev).mp hi
    obtain ⟨-, -, hnone⟩ := (h.mem_stag j ev').mp hj
    by_contra hge
    exact hnone ⟨t, now, by omega, htn, hop⟩

/-- The events a tick sorts are the accepted ones that have not come due. -/
theorem RunInv.mem_all (h : RunInv cs co wired ops n stag pend) (i : Nat)
    (ev : ScheduledEvent B C O) :
    (i, ev) ∈ (pend ++ stag).mergeSort leBeat ↔
      Accepted cs co wired ops i ev ∧ i < n ∧ NotDueBetween ops i n ev := by
  rw [List.mem_mergeSort, List.mem_append, h.mem_pend, h.mem_stag]
  constructor
  · rintro (⟨hacc, htick, hnot⟩ | ⟨hacc, hlt, hnone⟩)
    · exact ⟨hacc, htick.lt, hnot⟩
    · exact ⟨hacc, hlt, fun t now hit htn hop => absurd ⟨t, now, hit, htn, hop⟩ hnone⟩
  · rintro ⟨hacc, hlt, hnot⟩
    by_cases htick : TickBetween ops i n
    · exact Or.inl ⟨hacc, htick, hnot⟩
    · exact Or.inr ⟨hacc, hlt, htick⟩

/-- A push keeps the invariant, adding its event to the ring when it is accepted. -/
theorem RunInv.push (h : RunInv cs co wired ops n stag pend) {ev : ScheduledEvent B C O}
    (hn : ops[n]? = some (.push ev)) :
    ∃ stag', RunInv cs co wired ops (n + 1) stag' pend := by
  have hnt : ∀ now, ops[n]? ≠ some (.tick now) := by
    intro now hop
    rw [hn] at hop
    cases hop
  obtain ⟨hans, hholds⟩ := push_numbered h.staging n ev
  have hstate := stateAt_succ cs co wired hn
  have hself : ∀ ev', Accepted cs co wired ops n ev' ↔
      ev' = ev ∧ stag.length + 1 < cs.val := by
    intro ev'
    unfold Accepted resultAt
    rw [hn]
    simp only [Option.some.injEq, SchedOp.push.injEq, Option.map_some, schedStep,
      SchedResult.pushed.injEq, hans, decide_eq_true_eq]
    exact ⟨fun h => ⟨h.1.symm, h.2⟩, fun h => ⟨h.1.symm, h.2⟩⟩
  refine ⟨stagedAfter cs stag n ev, ?_⟩
  refine
    { staging := ?_, pending := ?_, mem_stag := ?_, stag_order := ?_, mem_pend := ?_,
      pend_order := h.pend_order, osc_wired := ?_, osc_holds := ?_ }
  · rw [hstate]
    exact hholds
  · rw [hstate]
    exact h.pending
  · intro i ev'
    rw [tickBetween_succ_of_not_tick hnt, mem_stagedAfter, h.mem_stag]
    -- the new event has index `n`, and no tick lies between
    by_cases hi : i = n
    · subst hi
      have hnone : ¬ TickBetween ops i i := fun ht => absurd ht.lt (Nat.lt_irrefl i)
      rw [hself]
      simp [hnone]
    · constructor
      · rintro (⟨hacc, hlt, hnone⟩ | ⟨heq, -⟩)
        · exact ⟨hacc, by omega, hnone⟩
        · exact absurd heq hi
      · rintro ⟨hacc, hlt, hnone⟩
        exact Or.inl ⟨hacc, by omega, hnone⟩
  · rw [← List.nil_append (stagedAfter cs stag n ev)]
    apply pairwise_stagedAfter h.stag_order
    rintro ⟨i, ev'⟩ hi
    exact ((h.mem_stag i ev').mp hi).2.1
  · intro i ev'
    rw [tickBetween_succ_of_not_tick hnt, notDueBetween_succ_of_not_tick hnt]
    exact h.mem_pend i ev'
  · rw [hstate]
    exact h.osc_wired
  · rw [hstate]
    exact h.osc_holds

/-- A tick empties the ring and keeps the events it did not reach. -/
theorem RunInv.tick (h : RunInv cs co wired ops n stag pend) {now : B}
    (hn : ops[n]? = some (.tick now)) :
    RunInv cs co wired ops (n + 1) []
      (((pend ++ stag).mergeSort leBeat).filter fun a => !decide (a.2.beat ≤ now)) := by
  obtain ⟨os, hos⟩ := h.osc_holds
  obtain ⟨-, hpending, hstaging, -, hwired, hosc⟩ :=
    tick_tagged h.staging h.pending hos h.ties now
  have hstate := stateAt_succ cs co wired hn
  refine
    { staging := ?_, pending := ?_, mem_stag := ?_, stag_order := .nil, mem_pend := ?_,
      pend_order := (pairwise_before_mergeSort h.ties).filter _, osc_wired := ?_,
      osc_holds := ?_ }
  · rw [hstate]
    exact hstaging
  · rw [hstate]
    exact hpending
  · intro i ev
    constructor
    · intro hm
      simp at hm
    · rintro ⟨hacc, hlt, hnone⟩
      -- nothing is left in the ring: what was pushed before this tick has it in between
      exfalso
      by_cases hi : i = n
      · subst hi
        rw [hacc.1] at hn
        cases hn
      · exact hnone ⟨n, now, by omega, by omega, hn⟩
  · intro i ev
    rw [List.mem_filter, h.mem_all]
    simp only [Bool.not_eq_true', decide_eq_false_iff_not, not_le]
    constructor
    · rintro ⟨⟨hacc, hlt, hnot⟩, hnow⟩
      exact ⟨hacc, ⟨n, now, hlt, by omega, hn⟩, (notDueBetween_succ_tick hn hlt).mpr ⟨hnot, hnow⟩⟩
    · rintro ⟨hacc, ⟨t, now', hit, htn, -⟩, hnot⟩
      have hlt : i < n := by omega
      obtain ⟨hnot', hnow⟩ := (notDueBetween_succ_tick hn hlt).mp hnot
      exact ⟨⟨hacc, hlt, hnot'⟩, hnow⟩
  · rw [hstate]
    exact hwired.trans h.osc_wired
  · rw [hstate]
    exact ⟨_, hosc⟩

/-- Taking an event from the OSC queue touches neither list. -/
theorem RunInv.oscPop (h : RunInv cs co wired ops n stag pend)
    (hn : ops[n]? = some .oscPop) : RunInv cs co wired ops (n + 1) stag pend := by
  have hnt : ∀ now, ops[n]? ≠ some (.tick now) := by
    intro now hop
    rw [hn] at hop
    cases hop
  have hstate := stateAt_succ cs co wired hn
  obtain ⟨os, hos⟩ := h.osc_holds
  obtain ⟨hstaging, hpending, hsome, hosc⟩ := schedStep_oscPop cs _ hos
  rw [← hstate] at hstaging hpending hsome hosc
  refine
    { staging := hstaging ▸ h.staging, pending := hpending ▸ h.pending, mem_stag := ?_,
      stag_order := h.stag_order, mem_pend := ?_, pend_order := h.pend_order,
      osc_wired := hsome.trans h.osc_wired, osc_holds := hosc }
  · intro i ev
    rw [tickBetween_succ_of_not_tick hnt, h.mem_stag]
    constructor
    · rintro ⟨hacc, hlt, hnone⟩
      exact ⟨hacc, by omega, hnone⟩
    · rintro ⟨hacc, hlt, hnone⟩
      refine ⟨hacc, ?_, hnone⟩
      -- call `n` is not a push
      have hne : i ≠ n := by
        rintro rfl
        rw [hacc.1] at hn
        cases hn
      omega
  · intro i ev
    rw [tickBetween_succ_of_not_tick hnt, notDueBetween_succ_of_not_tick hnt]
    exact h.mem_pend i ev

/-- The invariant holds after every prefix of a run. -/
theorem runInv_of_le (cs co : Capacity) (wired : Bool) (ops : List (SchedOp B C O)) (n : Nat)
    (hn : n ≤ ops.length) : ∃ stag pend, RunInv cs co wired ops n stag pend := by
  induction n with
  | zero => exact ⟨[], [], runInv_zero⟩
  | succ n ih =>
      obtain ⟨stag, pend, h⟩ := ih (by omega)
      obtain ⟨op, hop⟩ : ∃ op, ops[n]? = some op := ⟨_, List.getElem?_eq_getElem hn⟩
      cases op with
      | push ev =>
          obtain ⟨stag', h'⟩ := h.push hop
          exact ⟨stag', pend, h'⟩
      | tick now => exact ⟨_, _, h.tick hop⟩
      | oscPop => exact ⟨stag, pend, h.oscPop hop⟩

end Invariant

/-- What a call delivers of the events it finds, in order. -/
def dueEvents {B C O : Type*} [LinearOrder B] (op : Option (SchedOp B C O))
    (evs : List (Nat × ScheduledEvent B C O)) : List (Nat × ScheduledEvent B C O) :=
  match op with
  | some (.tick now) => (evs.mergeSort leBeat).filter fun a => decide (a.2.beat ≤ now)
  | _ => []

section Delivery

variable {B C O : Type*} [LinearOrder B] [Inhabited B] [Inhabited C] [Inhabited O]
variable {cs co : Capacity} {wired : Bool} {ops : List (SchedOp B C O)}

/-- A tick delivers the accepted events that come due with it. -/
theorem RunInv.mem_dueEvents {t : Nat} {stag pend : List (Nat × ScheduledEvent B C O)}
    (h : RunInv cs co wired ops t stag pend) {now : B} (ht : ops[t]? = some (.tick now)) (i : Nat)
    (ev : ScheduledEvent B C O) :
    (i, ev) ∈ dueEvents ops[t]? (pend ++ stag) ↔
      Accepted cs co wired ops i ev ∧ i < t ∧ ev.beat ≤ now ∧ NotDueBetween ops i t ev := by
  simp only [ht, dueEvents]
  rw [List.mem_filter, h.mem_all, decide_eq_true_eq]
  constructor
  · rintro ⟨⟨hacc, hit, hnot⟩, hdue⟩
    exact ⟨hacc, hit, hdue, hnot⟩
  · rintro ⟨hacc, hit, hdue, hnot⟩
    exact ⟨⟨hacc, hit, hnot⟩, hdue⟩

omit [Inhabited B] [Inhabited C] [Inhabited O] in
/-- An event comes due with one tick only. -/
theorem due_once {i t t' : Nat} {now now' : B} {ev : ScheduledEvent B C O}
    (ht : ops[t]? = some (.tick now)) (ht' : ops[t']? = some (.tick now'))
    (hit : i < t) (hit' : i < t') (hdue : ev.beat ≤ now) (hdue' : ev.beat ≤ now')
    (hnot : NotDueBetween ops i t ev) (hnot' : NotDueBetween ops i t' ev) : t = t' := by
  -- the earlier of two ticks would have been a tick before the later one
  rcases Nat.lt_trichotomy t t' with hlt | heq | hgt
  · exact absurd (hnot' t now hit hlt ht) (not_lt_of_ge hdue)
  · exact heq
  · exact absurd (hnot t' now' hit' hgt ht') (not_lt_of_ge hdue')

end Delivery

/-- The event scheduler delivers every accepted event exactly once, on time and in
    order.  `fired t` lists what tick `t` delivers and `waiting t` what it leaves
    pending, each event with the position of its push. -/
theorem event_scheduler_delivers_on_time {B C O : Type*} [LinearOrder B] [Inhabited B]
    [Inhabited C] [Inhabited O] (cs co : Capacity) (wired : Bool)
    (ops : List (SchedOp B C O)) :
    ∃ fired waiting : Nat → List (Nat × ScheduledEvent B C O),
      (∀ t now, ops[t]? = some (.tick now) →
        -- the first tick after an accepted push whose beat has reached the event fires it
        (∀ i ev, (i, ev) ∈ fired t ↔
          Accepted cs co wired ops i ev ∧ i < t ∧ ev.beat ≤ now ∧ NotDueBetween ops i t ev) ∧
        -- by beat, ties in push order
        (fired t).Pairwise Before ∧
        -- clap events to the callback and osc events to `osc_out_`, in that one order; an
        -- osc event is missing from the queue only if none is wired or its push failed
        (∃ log, resultAt cs co wired ops t = some (.ticked log) ∧
          log.map Delivery.ev = (fired t).map Prod.snd ∧
          (∀ d ∈ log, FateOk wired d) ∧
          ∃ os, OscHolds co (stateAt cs co wired ops t).oscOut os ∧
            OscHolds co (stateAt cs co wired ops (t + 1)).oscOut (os ++ oscAccepted log)) ∧
        -- what stays pending is what was drained and not delivered
        (stateAt cs co wired ops (t + 1)).pending = (waiting t).map Prod.snd ∧
        (waiting t).Pairwise Before ∧
        (∀ i ev, (i, ev) ∈ waiting t ↔
          Accepted cs co wired ops i ev ∧ i < t ∧ NotDueBetween ops i (t + 1) ev)) ∧
      -- no event is delivered by two ticks
      (∀ t now t' now', ops[t]? = some (.tick now) → ops[t']? = some (.tick now') →
        ∀ i ev, (i, ev) ∈ fired t → (i, ev) ∈ fired t' → t = t') := by
  have hinv : ∀ t : Nat, ∃ p : List (Nat × ScheduledEvent B C O) ×
      List (Nat × ScheduledEvent B C O),
      t ≤ ops.length → RunInv cs co wired ops t p.1 p.2 := by
    intro t
    by_cases ht : t ≤ ops.length
    · obtain ⟨stag, pend, h⟩ := runInv_of_le cs co wired ops t ht
      exact ⟨(stag, pend), fun _ => h⟩
    · exact ⟨([], []), fun h => absurd h ht⟩
  choose p hp using hinv
  refine ⟨fun t => dueEvents ops[t]? ((p t).2 ++ (p t).1), fun t => (p (t + 1)).2, ?_, ?_⟩
  · intro t now ht
    have hlt := (List.getElem?_eq_some_iff.mp ht).1
    have h := hp t (Nat.le_of_lt hlt)
    have h' := hp (t + 1) hlt
    obtain ⟨os, hos⟩ := h.osc_holds
    obtain ⟨hlog, hpending, -, hfates, -, hosc⟩ :=
      tick_tagged h.staging h.pending hos h.ties now
    have hstate := stateAt_succ cs co wired ht
    refine ⟨h.mem_dueEvents ht, ?_, ?_, h'.pending, h'.pend_order, ?_⟩
    · simp only [ht, dueEvents]
      exact (pairwise_before_mergeSort h.ties).filter _
    · simp only [ht, dueEvents]
      refine ⟨(tick cs co (stateAt cs co wired ops t) now).1, ?_, hlog, ?_, os, hos, ?_⟩
      · unfold resultAt
        rw [ht]
        rfl
      · intro d hd
        exact h.osc_wired ▸ hfates d hd
      · rw [hstate]
        exact hosc
    · intro i ev
      rw [h'.mem_pend]
      constructor
      · rintro ⟨hacc, ⟨t', now', hit, htt, -⟩, hnot⟩
        exact ⟨hacc, by omega, hnot⟩
      · rintro ⟨hacc, hit, hnot⟩
        exact ⟨hacc, ⟨t, now, hit, by omega, ht⟩, hnot⟩
  · intro t now t' now' ht ht' i ev hm hm'
    have hlt := (List.getElem?_eq_some_iff.mp ht).1
    have hlt' := (List.getElem?_eq_some_iff.mp ht').1
    obtain ⟨-, hit, hdue, hnot⟩ := ((hp t (Nat.le_of_lt hlt)).mem_dueEvents ht i ev).mp hm
    obtain ⟨-, hit', hdue', hnot'⟩ := ((hp t' (Nat.le_of_lt hlt')).mem_dueEvents ht' i ev).mp hm'
    exact due_once ht ht' hit hit' hdue hdue' hnot hnot'

end NomosRt.Scheduler
