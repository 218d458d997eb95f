/-
  NomosRt.Spsc.Fifo

  What the queue machine delivers.

  * With one producer every interleaving is a non-overlapping run
    (`noOverlap_of_loaded`), so the queue refines a bounded FIFO:
    `spsc_queue_refines_bounded_fifo`.
  * A call whose steps are not interleaved with another thread's is the
    sequential `push` or `pop` of `Spsc.Queue` (`run_push`, `run_pop`).
  * A consumer left alone pops everything that was accepted (`run_drain`).
-/

import Mathlib.Data.List.Infix
import NomosRt.Spsc.Steps

namespace NomosRt.Spsc

open NomosRt.Lib

variable {P T : Type*} [DecidableEq P] {c : Capacity} {s s' : QueueState P T}

/-! ## Consequences of the invariant -/

section Consequences

omit [DecidableEq P]

/-- The values returned are a prefix of the items accepted. -/
theorem Inv.popped_prefix (h : Inv c s) : s.popped <+: s.pushed := by
  rw [h.popped_eq]
  exact List.take_prefix _ _

theorem Inv.held_le (h : Inv c s) : s.held ≤ c.val - 1 := by
  have := h.bound
  unfold QueueState.held
  omega

/-- The slot a producer is about to write holds no undelivered item. -/
theorem Inv.room_vacant (h : Inv c s) {p : P} {item : T} {head next : Nat}
    (hpc : s.prod p = .room item head next) : s.live head = false := by
  have hp := h.prod p
  rw [hpc] at hp
  obtain ⟨hhead, -, hroom⟩ := hp
  by_contra hlive
  have hlive' : s.live (s.pushed.length % c.val) = true := by
    rw [← h.head_eq, ← hhead]
    simpa using hlive
  obtain ⟨-, p', item', head', next', hp'⟩ :=
    h.vacant s.pushed.length (Nat.le_refl _) (by omega) hlive'
  -- the writer of that slot would be a second producer past its test
  have hsame := h.alone p p' (by simp [hpc, PushPc.pastTest]) (by simp [hp', PushPc.pastTest])
  rw [hsame, hp'] at hpc
  cases hpc

/-- The slot the consumer is about to read holds the oldest undelivered item. -/
theorem Inv.nonempty_live (h : Inv c s) {tail : Nat} (hpc : s.cons = .nonempty tail) :
    s.live tail = true ∧ some (s.q.slots tail) = s.pushed[s.popped.length]? ∧
      s.popped.length < s.pushed.length := by
  have hc := h.cons
  simp only [ConsInv, hpc] at hc
  obtain ⟨htail, hlt⟩ := hc
  obtain ⟨hslot, hlive⟩ := h.full s.popped.length (Nat.le_refl _) hlt
  rw [htail, h.tail_eq]
  exact ⟨hlive, hslot, hlt⟩

end Consequences

/-- A failed `pop` found nothing accepted and undelivered. -/
theorem Inv.popLoadHead_idle (h : Inv c s) (hs : queueStep c s .popLoadHead = some s')
    (hidle : s'.cons = .idle) : s.popped.length = s.pushed.length := by
  simp only [queueStep] at hs
  split at hs
  · rename_i tail hpc
    have hc := h.cons
    simp only [ConsInv, hpc] at hc
    split at hs
    · rename_i heq
      have hmod : s.popped.length % c.val = s.pushed.length % c.val := by
        rw [← h.tail_eq, ← h.head_eq, ← hc, heq]
      have hb := h.bound
      exact mod_eq_of_window h.popped_le (by omega) hmod
    · cases hs
      cases hidle
  · cases hs

/-- A failed `push` that loaded the current head found the queue full. -/
theorem Inv.pushLoadTail_idle (h : Inv c s) {p : P}
    (hhead : ∀ item head, s.prod p = .loadedHead item head → head = s.q.head)
    (hs : queueStep c s (.pushLoadTail p) = some s') (hidle : s'.prod p = .idle) :
    s.held = c.val - 1 := by
  simp only [queueStep] at hs
  split at hs
  · rename_i item head hpc
    split at hs
    · rename_i hfull
      have hmod : s.popped.length % c.val = (s.pushed.length + 1) % c.val := by
        rw [← h.tail_eq, ← hfull, hhead item head hpc, h.head_eq, c.succ_and_mask]
      have hb := h.bound
      have hle := h.popped_le
      unfold QueueState.held
      -- one lap apart: the two counters agree only when they differ by the capacity
      rcases Nat.lt_or_ge (s.pushed.length + 1) (s.popped.length + c.val) with hlt | hge
      · have := mod_eq_of_window (Nat.le_succ_of_le hle) hlt hmod
        omega
      · omega
    · cases hs
      simp at hidle
  · cases hs

/-! ## One producer -/

/-- Every producer that has loaded the head loaded the current one. -/
def LoadedHead (s : QueueState P T) : Prop :=
  ∀ p item head, s.prod p = .loadedHead item head → head = s.q.head

omit [DecidableEq P] in
/-- A lone producer cannot overlap with itself. -/
theorem noOverlap_of_loaded [Subsingleton P] (h : LoadedHead s) (a : QueueAct P T) :
    NoOverlap c s a := by
  cases a with
  | pushLoadTail p =>
      simp only [NoOverlap]
      split
      · rename_i item head hpc
        intro _
        refine ⟨h p item head hpc, fun p' => ?_⟩
        rw [Subsingleton.elim p' p, hpc]
        rfl
      · trivial
  | _ => trivial

theorem loadedHead_step [Subsingleton P] (h : LoadedHead s) (a : QueueAct P T)
    (hs : queueStep c s a = some s') : LoadedHead s' := by
  have hself : ∀ p : P, ∀ pc : PushPc T, Function.update s.prod p pc = fun _ => pc := by
    intro p pc
    funext p'
    rw [Subsingleton.elim p' p, Function.update_self]
  intro p' item' head' hp'
  by_cases hpop : a.isPop = true
  · -- the consumer leaves the producers and the head alone
    obtain ⟨hprod, hhead, -⟩ := pop_frame hpop hs
    rw [hprod] at hp'
    rw [hhead]
    exact h p' item' head' hp'
  · cases a with
    | pushLoadHead p item =>
        simp only [queueStep] at hs
        split at hs
        · cases hs
          simp only [QueueState.setProd_prod, hself, PushPc.loadedHead.injEq] at hp'
          exact hp'.2.symm
        · cases hs
    | pushLoadTail p =>
        simp only [queueStep] at hs
        split at hs
        · split at hs <;> cases hs <;> simp [hself] at hp'
        · cases hs
    | pushWriteSlot p =>
        simp only [queueStep] at hs
        split at hs
        · cases hs
          simp [hself] at hp'
        · cases hs
    | pushStoreHead p =>
        simp only [queueStep] at hs
        split at hs
        · cases hs
          simp [hself] at hp'
        · cases hs
    | _ => exact absurd rfl hpop

/-- With one producer, every run keeps the invariant. -/
theorem inv_of_reached_single [Subsingleton P] [Inhabited T] {as : List (QueueAct P T)}
    (h : (queueMachine P T c).Reached Machine.free as s) : Inv c s ∧ LoadedHead s := by
  refine h.invariant (I := fun s => Inv c s ∧ LoadedHead s)
    ⟨inv_start, fun p item head hp => absurd hp (by simp [queueMachine])⟩ ?_
  rintro s a s' ⟨hI, hL⟩ - hs
  exact ⟨inv_step a hI (noOverlap_of_loaded hL a) hs, loadedHead_step hL a hs⟩

/-- `spsc_queue` refines a bounded FIFO under every interleaving of one producer
    and one consumer. -/
theorem spsc_queue_refines_bounded_fifo {T : Type*} [Inhabited T] (c : Capacity)
    (as : List (QueueAct Unit T)) (s : QueueState Unit T)
    (h : (queueMachine Unit T c).Reached Machine.free as s) :
    -- what `pop` returned, in order, is a prefix of what `push` accepted
    s.popped <+: s.pushed ∧
    -- never more than `Capacity - 1` elements
    s.held ≤ c.val - 1 ∧
    -- a slot is never written while it holds an element not yet popped
    (∀ item head next, s.prod () = .room item head next → s.live head = false) ∧
    -- a slot is never read before it is written
    (∀ tail, s.cons = .nonempty tail → s.live tail = true) ∧
    -- `push` returns false only if the queue was full when the tail was loaded
    (∀ s', queueStep c s (.pushLoadTail ()) = some s' → s'.prod () = .idle →
      s.held = c.val - 1) ∧
    -- `pop` returns nullopt only if the queue was empty when the head was loaded
    (∀ s', queueStep c s .popLoadHead = some s' → s'.cons = .idle → s.held = 0) := by
  obtain ⟨hI, hL⟩ := inv_of_reached_single h
  refine ⟨hI.popped_prefix, hI.held_le, ?_, ?_, ?_, ?_⟩
  · intro item head next hpc
    exact hI.room_vacant hpc
  · intro tail hpc
    exact (hI.nonempty_live hpc).1
  · intro s' hs hidle
    exact hI.pushLoadTail_idle (hL ()) hs hidle
  · intro s' hs hidle
    have := hI.popLoadHead_idle hs hidle
    unfold QueueState.held
    omega

/-- The smallest ring: one usable slot, so the second push wraps. -/
def capacityTwo : Capacity := ⟨2, by decide, by decide⟩

/-- Two items through the smallest ring, with the second push started while the
    first pop is under way. -/
def wrapSchedule : List (QueueAct Unit Nat) :=
  [.pushLoadHead () 7, .pushLoadTail (), .pushWriteSlot (), .pushStoreHead (),
   .popLoadTail, .pushLoadHead () 8, .popLoadHead, .popReadSlot, .popStoreTail,
   .pushLoadTail (), .pushWriteSlot (), .pushStoreHead (), .popLoadTail]

theorem spsc_queue_wrapSchedule :
    ∃ s, (queueMachine Unit Nat capacityTwo).Reached Machine.free wrapSchedule s ∧
      s.pushed = [7, 8] ∧ s.popped = [7] ∧ s.popped <+: s.pushed := by
  have hrun : ((queueMachine Unit Nat capacityTwo).run
      (queueMachine Unit Nat capacityTwo).start wrapSchedule).map
        (fun s => (s.pushed, s.popped)) = some ([7, 8], [7]) := by decide
  obtain ⟨s, hs, hlists⟩ := Option.map_eq_some_iff.mp hrun
  have hreached := Machine.reached_of_run hs
  have hfifo := spsc_queue_refines_bounded_fifo capacityTwo wrapSchedule s hreached
  simp only [Prod.mk.injEq] at hlists
  exact ⟨s, hreached, hlists.1, hlists.2, hfifo.1⟩

/-! ## Calls that run undisturbed -/

/-- The steps of one `push(item)` call by `p` on the queue `q`. -/
def pushCall (c : Capacity) (q : SpscQueue T) (p : P) (item : T) : List (QueueAct P T) :=
  if (SpscQueue.push c q item).1 then
    [.pushLoadHead p item, .pushLoadTail p, .pushWriteSlot p, .pushStoreHead p]
  else [.pushLoadHead p item, .pushLoadTail p]

/-- The steps of one successful `pop()` call. -/
def popCall : List (QueueAct P T) :=
  [.popLoadTail, .popLoadHead, .popReadSlot, .popStoreTail]

/-- An undisturbed `push` call is the sequential `push`. -/
theorem run_push [Inhabited T] {p : P} (hidle : s.prod p = .idle) (item : T) :
    ∃ s', (queueMachine P T c).run s (pushCall c s.q p item) = some s' ∧
      s'.q = (SpscQueue.push c s.q item).2 ∧ s'.prod = s.prod ∧
      s'.pushed = s.pushed ++ (if (SpscQueue.push c s.q item).1 then [item] else []) := by
  have hback : Function.update s.prod p .idle = s.prod := by
    rw [← hidle, Function.update_eq_self]
  by_cases hfull : (s.q.head + 1) &&& c.mask = s.q.tail
  · -- full: the call returns after loading the tail
    refine ⟨s.setProd p .idle, ?_, ?_, ?_, ?_⟩
    · simp [pushCall, SpscQueue.push, hfull, Machine.run, queueMachine, queueStep, hidle,
        QueueState.setProd]
    · simp [SpscQueue.push, hfull]
    · simpa using hback
    · simp [SpscQueue.push, hfull]
  · refine ⟨{ s with
        q := (SpscQueue.push c s.q item).2
        live := Function.update s.live s.q.head true
        pushed := s.pushed ++ [item] }, ?_, rfl, rfl, ?_⟩
    · simp [pushCall, SpscQueue.push, hfull, Machine.run, queueMachine, queueStep, hidle,
        QueueState.setProd, hback, SpscQueue.writeSlot]
    · simp [SpscQueue.push, hfull]

/-- An undisturbed `pop` call on a queue that holds something is the sequential
    `pop`, and returns the oldest undelivered item. -/
theorem run_pop [Inhabited T] (h : Inv c s) (hidle : s.cons = .idle)
    (hlt : s.popped.length < s.pushed.length) :
    ∃ s', (queueMachine P T c).run s popCall = some s' ∧
      s'.q = (SpscQueue.pop c s.q).2 ∧ Inv c s' ∧ s'.cons = .idle ∧ s'.pushed = s.pushed ∧
      some (s'.popped) = s.pushed[s.popped.length]?.map (s.popped ++ [·]) := by
  have hne : s.q.tail ≠ s.q.head := by
    have hb := h.bound
    rw [h.tail_eq, h.head_eq]
    exact mod_ne_of_window hlt (by omega)
  have hslot : some (s.q.slots s.q.tail) = s.pushed[s.popped.length]? := by
    rw [h.tail_eq]
    exact (h.full s.popped.length (Nat.le_refl _) hlt).1
  -- the four steps of the call one after the other, each with its invariant
  obtain ⟨s₁, hs₁⟩ : ∃ s₁, queueStep c s .popLoadTail = some s₁ ∧
      s₁ = { s with cons := .loadedTail s.q.tail } := by simp [queueStep, hidle]
  have h₁ := inv_popLoadTail h hs₁.1
  obtain ⟨s₂, hs₂⟩ : ∃ s₂, queueStep c s₁ .popLoadHead = some s₂ ∧
      s₂ = { s with cons := .nonempty s.q.tail } := by simp [queueStep, hs₁.2, hne]
  have h₂ := inv_popLoadHead h₁ hs₂.1
  obtain ⟨s₃, hs₃⟩ : ∃ s₃, queueStep c s₂ .popReadSlot = some s₃ ∧
      s₃ = { s with cons := .taken s.q.tail (s.q.slots s.q.tail) } := by
    simp [queueStep, hs₂.2]
  have h₃ := inv_popReadSlot h₂ hs₃.1
  obtain ⟨s₄, hs₄⟩ : ∃ s₄, queueStep c s₃ .popStoreTail = some s₄ ∧
      s₄ = { s with
        cons := .idle
        q := { s.q with tail := (s.q.tail + 1) &&& c.mask }
        live := Function.update s.live s.q.tail false
        popped := s.popped ++ [s.q.slots s.q.tail] } := by simp [queueStep, hs₃.2]
  have h₄ := inv_popStoreTail h₃ hs₄.1
  refine ⟨s₄, ?_, ?_, h₄, ?_, ?_, ?_⟩
  · simp [Machine.run, popCall, queueMachine, hs₁.1, hs₂.1, hs₃.1, hs₄.1]
  · simp [hs₄.2, SpscQueue.pop, hne]
  · simp [hs₄.2]
  · simp [hs₄.2]
  · simp [hs₄.2, ← hslot]

/-- A consumer left alone returns every accepted item. -/
theorem run_drain [Inhabited T] (h : Inv c s) (hidle : s.cons = .idle) :
    ∃ s', (queueMachine P T c).run s (List.replicate s.held popCall).flatten = some s' ∧
      s'.pushed = s.pushed ∧ s'.popped = s.pushed := by
  -- on the number of items held: each `pop` call returns one
  induction hn : s.held generalizing s with
  | zero =>
      refine ⟨s, rfl, rfl, ?_⟩
      have hle := h.popped_le
      have hall : s.popped.length = s.pushed.length := by
        unfold QueueState.held at hn
        omega
      rw [h.popped_eq, hall, List.take_length]
  | succ n ih =>
      have hlt : s.popped.length < s.pushed.length := by
        unfold QueueState.held at hn
        omega
      obtain ⟨s₁, hrun, -, hI, hcons, hpushed, hpopped⟩ := run_pop h hidle hlt
      have hheld : s₁.held = n := by
        rw [List.getElem?_eq_getElem hlt, Option.map_some, Option.some.injEq] at hpopped
        unfold QueueState.held at hn ⊢
        rw [hpushed, hpopped, List.length_append, List.length_singleton]
        omega
      obtain ⟨s', hrest, hpushed', hpopped'⟩ := ih hI hcons hheld
      refine ⟨s', ?_, hpushed'.trans hpushed, by rw [hpopped', hpushed]⟩
      rw [List.replicate_succ, List.flatten_cons]
      exact Machine.run_append_of hrun hrest

/-! ## Delivery -/

omit [DecidableEq P] in
theorem isPop_popCalls (n : Nat) :
    ∀ a ∈ (List.replicate n (popCall (P := P) (T := T))).flatten, a.isPop = true := by
  intro a ha
  rw [List.mem_flatten] at ha
  obtain ⟨call, hcall, ha⟩ := ha
  rw [List.eq_of_mem_replicate hcall] at ha
  simp only [popCall, List.mem_cons, List.not_mem_nil, or_false] at ha
  rcases ha with rfl | rfl | rfl | rfl <;> rfl

/-- The consumer's own steps bring its `pop` to an end. -/
def Finishes [Inhabited T] (c : Capacity) (s : QueueState P T) : Prop :=
  ∃ bs s', (∀ a ∈ bs, a.isPop = true) ∧ (queueMachine P T c).run s bs = some s' ∧
    Inv c s' ∧ s'.cons = .idle ∧ s'.pushed = s.pushed

theorem Finishes.of_idle [Inhabited T] (h : Inv c s) (hidle : s.cons = .idle) : Finishes c s :=
  ⟨[], s, by simp, rfl, h, hidle, rfl⟩

/-- One step closer to the end. -/
theorem Finishes.of_step [Inhabited T] {a : QueueAct P T} (ha : a.isPop = true)
    (hs : queueStep c s a = some s') (h : Finishes c s') : Finishes c s := by
  obtain ⟨-, -, hpushed⟩ := pop_frame ha hs
  obtain ⟨bs, t, hbs, hrun, hI, hidle, hp⟩ := h
  refine ⟨a :: bs, t, ?_, ?_, hI, hidle, hp.trans hpushed⟩
  · intro b hb
    rcases List.mem_cons.mp hb with rfl | hb
    · exact ha
    · exact hbs b hb
  · show ((queueStep c s a).bind fun s' => (queueMachine P T c).run s' bs) = some t
    rw [hs]
    exact hrun

theorem finishes_taken [Inhabited T] (h : Inv c s) {tail : Nat} {item : T}
    (hpc : s.cons = .taken tail item) : Finishes c s := by
  obtain ⟨s₁, hs, hidle⟩ : ∃ s₁, queueStep c s .popStoreTail = some s₁ ∧ s₁.cons = .idle := by
    simp [queueStep, hpc]
  exact .of_step rfl hs (.of_idle (inv_popStoreTail h hs) hidle)

theorem finishes_nonempty [Inhabited T] (h : Inv c s) {tail : Nat}
    (hpc : s.cons = .nonempty tail) : Finishes c s := by
  obtain ⟨s₁, hs, hcons⟩ : ∃ s₁, queueStep c s .popReadSlot = some s₁ ∧
      s₁.cons = .taken tail (s.q.slots tail) := by
    simp [queueStep, hpc]
  exact .of_step rfl hs (finishes_taken (inv_popReadSlot h hs) hcons)

theorem finishes_loadedTail [Inhabited T] (h : Inv c s) {tail : Nat}
    (hpc : s.cons = .loadedTail tail) : Finishes c s := by
  by_cases hempty : tail = s.q.head
  · obtain ⟨s₁, hs, hidle⟩ : ∃ s₁, queueStep c s .popLoadHead = some s₁ ∧ s₁.cons = .idle := by
      simp [queueStep, hpc, hempty]
    exact .of_step rfl hs (.of_idle (inv_popLoadHead h hs) hidle)
  · obtain ⟨s₁, hs, hcons⟩ : ∃ s₁, queueStep c s .popLoadHead = some s₁ ∧
        s₁.cons = .nonempty tail := by
      simp [queueStep, hpc, hempty]
    exact .of_step rfl hs (finishes_nonempty (inv_popLoadHead h hs) hcons)

/-- A `pop` under way comes to its end by the consumer's own steps. -/
theorem run_finish [Inhabited T] (h : Inv c s) : Finishes c s := by
  rcases hpc : s.cons with - | tail | tail | ⟨tail, item⟩
  · exact .of_idle h hpc
  · exact finishes_loadedTail h hpc
  · exact finishes_nonempty h hpc
  · exact finishes_taken h hpc

/-- Nothing accepted is lost, overwritten or duplicated: what was popped is the
    front of what was accepted, the rest is in the ring, and the consumer's own
    steps pop all of it. -/
structure QueueState.Delivers [Inhabited T] (c : Capacity) (s : QueueState P T) : Prop where
  in_order : s.popped <+: s.pushed
  intact : ∀ k, s.popped.length ≤ k → k < s.pushed.length →
    some (s.q.slots (k % c.val)) = s.pushed[k]?
  drains : ∃ bs s', (∀ a ∈ bs, a.isPop = true) ∧ (queueMachine P T c).run s bs = some s' ∧
    s'.pushed = s.pushed ∧ s'.popped = s.pushed

theorem Inv.delivers [Inhabited T] (h : Inv c s) : s.Delivers c := by
  refine ⟨h.popped_prefix, fun k hk hlt => (h.full k hk hlt).1, ?_⟩
  obtain ⟨bs, s₁, hbs, hrun, hI, hidle, hpushed⟩ := run_finish h
  obtain ⟨s₂, hrun₂, hpushed₂, hpopped₂⟩ := run_drain hI hidle
  refine ⟨bs ++ (List.replicate s₁.held popCall).flatten, s₂, ?_, ?_, ?_, ?_⟩
  · intro a ha
    rcases List.mem_append.mp ha with ha | ha
    · exact hbs a ha
    · exact isPop_popCalls _ a ha
  · exact Machine.run_append_of hrun hrun₂
  · rw [hpushed₂, hpushed]
  · rw [hpopped₂, hpushed]

end NomosRt.Spsc
