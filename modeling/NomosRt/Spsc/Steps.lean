/-
  NomosRt.Spsc.Steps

  `spsc_queue` at the granularity of its atomic accesses, sequentially
  consistent.

  `push` is load head, load tail, write slot, store head; `pop` is load tail,
  load head, read slot, store tail.  The machine has one consumer and a producer
  for each element of `P`: the intended use is `P = Unit`, and a larger `P` is
  what happens when several threads push into one queue.

  Three ghost components record a run: `pushed` is the list of items whose
  `push` returned true (appended when the head is stored), `popped` the list of
  values `pop` returned (appended when the tail is stored), and `live i` says
  that slot `i` holds an item written and not yet popped.

  `Inv` relates the indices to the lengths of the two lists: both indices are
  the lists' lengths modulo the capacity, the slots between them hold the
  undelivered items, and at most one producer is past its test for room.
-/

import Mathlib.Logic.Function.Basic
import NomosRt.Lib.Machine
import NomosRt.Spsc.Queue

namespace NomosRt.Spsc

open NomosRt.Lib

/-- Where a producer stands inside `push(item)`. -/
inductive PushPc (T : Type*) where
  | idle
  /-- `head_` loaded. -/
  | loadedHead (item : T) (head : Nat)
  /-- `tail_` loaded and found different from `next`. -/
  | room (item : T) (head next : Nat)
  /-- `slots_[head]` written. -/
  | written (item : T) (head next : Nat)

/-- Where the consumer stands inside `pop()`. -/
inductive PopPc (T : Type*) where
  | idle
  /-- `tail_` loaded. -/
  | loadedTail (tail : Nat)
  /-- `head_` loaded and found different from `tail`. -/
  | nonempty (tail : Nat)
  /-- `slots_[tail]` moved out. -/
  | taken (tail : Nat) (item : T)

/-- The producer has found room and has not yet stored the head. -/
def PushPc.pastTest {T : Type*} : PushPc T → Bool
  | .room .. => true
  | .written .. => true
  | _ => false

/-- The queue, the threads' positions, and the ghost record of the run. -/
structure QueueState (P T : Type*) where
  q : SpscQueue T
  prod : P → PushPc T
  cons : PopPc T
  live : Nat → Bool
  pushed : List T
  popped : List T

/-- The atomic steps.  A producer's first step names the item it pushes. -/
inductive QueueAct (P T : Type*) where
  | pushLoadHead (p : P) (item : T)
  | pushLoadTail (p : P)
  | pushWriteSlot (p : P)
  | pushStoreHead (p : P)
  | popLoadTail
  | popLoadHead
  | popReadSlot
  | popStoreTail

/-! ## The invariant -/

section Invariant

variable {P T : Type*}

/-- Elements accepted and not yet returned. -/
def QueueState.held (s : QueueState P T) : Nat := s.pushed.length - s.popped.length

/-- The consumer's position is consistent with the queue. -/
def ConsInv (s : QueueState P T) : Prop :=
  match s.cons with
  | .idle => True
  | .loadedTail tail => tail = s.q.tail
  | .nonempty tail => tail = s.q.tail ∧ s.popped.length < s.pushed.length
  | .taken tail item =>
      tail = s.q.tail ∧ s.popped.length < s.pushed.length ∧
        some item = s.pushed[s.popped.length]?

/-- A producer past its test works on the slot at the head, with room for it. -/
def ProdInv (c : Capacity) (s : QueueState P T) (pc : PushPc T) : Prop :=
  match pc with
  | .idle => True
  | .loadedHead _ _ => True
  | .room _ head next =>
      head = s.q.head ∧ next = (s.pushed.length + 1) % c.val ∧
        s.pushed.length + 2 ≤ s.popped.length + c.val
  | .written item head next =>
      head = s.q.head ∧ next = (s.pushed.length + 1) % c.val ∧
        s.pushed.length + 2 ≤ s.popped.length + c.val ∧
        s.q.slots head = item ∧ s.live head = true

/-- The invariant of the queue machine. -/
structure Inv (c : Capacity) (s : QueueState P T) : Prop where
  popped_eq : s.popped = s.pushed.take s.popped.length
  popped_le : s.popped.length ≤ s.pushed.length
  bound : s.pushed.length + 1 ≤ s.popped.length + c.val
  head_eq : s.q.head = s.pushed.length % c.val
  tail_eq : s.q.tail = s.popped.length % c.val
  full : ∀ k, s.popped.length ≤ k → k < s.pushed.length →
    some (s.q.slots (k % c.val)) = s.pushed[k]? ∧ s.live (k % c.val) = true
  vacant : ∀ k, s.pushed.length ≤ k → k < s.popped.length + c.val →
    s.live (k % c.val) = true → k = s.pushed.length ∧
      ∃ p item head next, s.prod p = .written item head next
  prod : ∀ p, ProdInv c s (s.prod p)
  alone : ∀ p p', (s.prod p).pastTest = true → (s.prod p').pastTest = true → p = p'
  cons : ConsInv s

/-- A push that finds room does so while no other producer is past its own test
    and while the head it loaded is still the head of the queue. -/
def NoOverlap (c : Capacity) (s : QueueState P T) : QueueAct P T → Prop
  | .pushLoadTail p =>
      match s.prod p with
      | .loadedHead _ head =>
          (head + 1) &&& c.mask ≠ s.q.tail →
            head = s.q.head ∧ ∀ p', (s.prod p').pastTest = false
      | _ => True
  | _ => True

variable {c : Capacity} {s : QueueState P T}

/-- Before its test a producer owes the queue nothing. -/
theorem prodInv_of_not_pastTest {pc : PushPc T} (h : pc.pastTest = false) : ProdInv c s pc := by
  cases pc with
  | idle => trivial
  | loadedHead item head => trivial
  | room item head next => cases h
  | written item head next => cases h

/-- While one producer is past its test, no other is. -/
theorem Inv.others_before (h : Inv c s) {p p' : P} (hpast : (s.prod p).pastTest = true)
    (hne : p' ≠ p) : (s.prod p').pastTest = false := by
  by_contra hp'
  apply hne
  exact h.alone p' p (by simpa using hp') hpast

/-- Moving the consumer to a consistent position keeps the invariant. -/
theorem Inv.setCons (h : Inv c s) (pc : PopPc T) (hpc : ConsInv { s with cons := pc }) :
    Inv c { s with cons := pc } :=
  { h with cons := hpc }

/-- The slot at the head is not the slot of any undelivered item. -/
theorem Inv.mod_ne_head (h : Inv c s)
    (hroom : s.pushed.length + 2 ≤ s.popped.length + c.val) {k : Nat}
    (hk : s.popped.length ≤ k) (hlt : k < s.pushed.length) : k % c.val ≠ s.q.head := by
  rw [h.head_eq]
  exact mod_ne_of_window hlt (by omega)

end Invariant

/-! ## The machine -/

section Machine

variable {P T : Type*} [DecidableEq P]

namespace QueueState

/-- Move producer `p` to `pc`. -/
def setProd (s : QueueState P T) (p : P) (pc : PushPc T) : QueueState P T :=
  { s with prod := Function.update s.prod p pc }

variable (s : QueueState P T) (p : P) (pc : PushPc T)

@[simp] theorem setProd_q : (s.setProd p pc).q = s.q := rfl
@[simp] theorem setProd_cons : (s.setProd p pc).cons = s.cons := rfl
@[simp] theorem setProd_live : (s.setProd p pc).live = s.live := rfl
@[simp] theorem setProd_pushed : (s.setProd p pc).pushed = s.pushed := rfl
@[simp] theorem setProd_popped : (s.setProd p pc).popped = s.popped := rfl
@[simp] theorem setProd_prod : (s.setProd p pc).prod = Function.update s.prod p pc := rfl

end QueueState

/-- One atomic step. -/
def queueStep (c : Capacity) (s : QueueState P T) : QueueAct P T → Option (QueueState P T)
  | .pushLoadHead p item =>
      match s.prod p with
      | .idle => some (s.setProd p (.loadedHead item s.q.head))
      | _ => none
  | .pushLoadTail p =>
      match s.prod p with
      | .loadedHead item head =>
          -- `if (next == tail_.load(...)) return false;`
          if (head + 1) &&& c.mask = s.q.tail then some (s.setProd p .idle)
          else some (s.setProd p (.room item head ((head + 1) &&& c.mask)))
      | _ => none
  | .pushWriteSlot p =>
      match s.prod p with
      | .room item head next =>
          some { s.setProd p (.written item head next) with
            q := s.q.writeSlot head item
            live := Function.update s.live head true }
      | _ => none
  | .pushStoreHead p =>
      match s.prod p with
      | .written item _ next =>
          some { s.setProd p .idle with
            q := { s.q with head := next }
            pushed := s.pushed ++ [item] }
      | _ => none
  | .popLoadTail =>
      match s.cons with
      | .idle => some { s with cons := .loadedTail s.q.tail }
      | _ => none
  | .popLoadHead =>
      match s.cons with
      | .loadedTail tail =>
          -- `if (tail == head_.load(...)) return std::nullopt;`
          if tail = s.q.head then some { s with cons := .idle }
          else some { s with cons := .nonempty tail }
      | _ => none
  | .popReadSlot =>
      match s.cons with
      | .nonempty tail => some { s with cons := .taken tail (s.q.slots tail) }
      | _ => none
  | .popStoreTail =>
      match s.cons with
      | .taken tail item =>
          some { s with
            cons := .idle
            q := { s.q with tail := (tail + 1) &&& c.mask }
            live := Function.update s.live tail false
            popped := s.popped ++ [item] }
      | _ => none

/-- The queue machine, started on an empty queue with every thread idle. -/
def queueMachine (P T : Type*) [DecidableEq P] [Inhabited T] (c : Capacity) :
    Machine (QueueState P T) (QueueAct P T) where
  start := ⟨.empty, fun _ => .idle, .idle, fun _ => false, [], []⟩
  step := queueStep c

/-- The consumer's steps. -/
def QueueAct.isPop : QueueAct P T → Bool
  | .popLoadTail | .popLoadHead | .popReadSlot | .popStoreTail => true
  | _ => false

/-- The consumer moves no producer, does not touch `head_` and accepts nothing. -/
theorem pop_frame {c : Capacity} {s s' : QueueState P T} {a : QueueAct P T}
    (ha : a.isPop = true) (hs : queueStep c s a = some s') :
    s'.prod = s.prod ∧ s'.q.head = s.q.head ∧ s'.pushed = s.pushed := by
  cases a with
  | popLoadTail =>
      simp only [queueStep] at hs
      split at hs <;> cases hs
      exact ⟨rfl, rfl, rfl⟩
  | popLoadHead =>
      simp only [queueStep] at hs
      split at hs
      · split at hs <;> cases hs <;> exact ⟨rfl, rfl, rfl⟩
      · cases hs
  | popReadSlot =>
      simp only [queueStep] at hs
      split at hs <;> cases hs
      exact ⟨rfl, rfl, rfl⟩
  | popStoreTail =>
      simp only [queueStep] at hs
      split at hs <;> cases hs
      exact ⟨rfl, rfl, rfl⟩
  | _ => cases ha

/-- A producer does not move the consumer and takes nothing out. -/
theorem push_frame {c : Capacity} {s s' : QueueState P T} {a : QueueAct P T}
    (ha : a.isPop = false) (hs : queueStep c s a = some s') :
    s'.cons = s.cons ∧ s'.popped = s.popped := by
  cases a with
  | pushLoadHead p item =>
      simp only [queueStep] at hs
      split at hs <;> cases hs
      exact ⟨rfl, rfl⟩
  | pushLoadTail p =>
      simp only [queueStep] at hs
      split at hs
      · split at hs <;> cases hs <;> exact ⟨rfl, rfl⟩
      · cases hs
  | pushWriteSlot p =>
      simp only [queueStep] at hs
      split at hs <;> cases hs
      exact ⟨rfl, rfl⟩
  | pushStoreHead p =>
      simp only [queueStep] at hs
      split at hs <;> cases hs
      exact ⟨rfl, rfl⟩
  | _ => cases ha

end Machine

/-! ## Preservation -/

section Preservation

variable {P T : Type*} [DecidableEq P]
variable {c : Capacity} {s s' : QueueState P T}

theorem inv_start [Inhabited T] : Inv c (queueMachine P T c).start where
  popped_eq := rfl
  popped_le := Nat.le_refl 0
  bound := by
    have := c.pos
    simp [queueMachine]
    omega
  head_eq := (Nat.zero_mod _).symm
  tail_eq := (Nat.zero_mod _).symm
  full := fun k _ hk => absurd hk (Nat.not_lt_zero k)
  vacant := fun k _ _ hlive => absurd hlive (by simp [queueMachine])
  prod := fun _ => trivial
  alone := fun p p' hp _ => absurd hp (by simp [queueMachine, PushPc.pastTest])
  cons := trivial

/-- Moving one producer that has not written its slot keeps the invariant. -/
theorem Inv.setProd (h : Inv c s) (p : P) (pc : PushPc T)
    (hold : ∀ item head next, s.prod p ≠ .written item head next)
    (hpc : ProdInv c s pc)
    (halone : pc.pastTest = true → ∀ p', (s.prod p').pastTest = false) :
    Inv c (s.setProd p pc) where
  popped_eq := h.popped_eq
  popped_le := h.popped_le
  bound := h.bound
  head_eq := h.head_eq
  tail_eq := h.tail_eq
  full := h.full
  vacant := by
    intro k hk hlt hlive
    obtain ⟨hkeq, p', item, head, next, hp'⟩ := h.vacant k hk hlt hlive
    -- the one live slot past the head is written by a producer, and `p` has written none
    have hne : p' ≠ p := by
      rintro rfl
      exact hold _ _ _ hp'
    exact ⟨hkeq, p', item, head, next, by simp [QueueState.setProd, hne, hp']⟩
  prod := by
    intro p'
    by_cases hp : p' = p
    · subst hp
      rw [QueueState.setProd_prod, Function.update_self]
      exact hpc
    · rw [QueueState.setProd_prod, Function.update_of_ne hp]
      exact h.prod p'
  alone := by
    intro p₁ p₂ h₁ h₂
    by_cases hp₁ : p₁ = p
    · by_cases hp₂ : p₂ = p
      · rw [hp₁, hp₂]
      · simp only [QueueState.setProd, hp₁, Function.update_self,
          Function.update_of_ne hp₂] at h₁ h₂
        exact absurd h₂ (by simp [halone h₁ p₂])
    · by_cases hp₂ : p₂ = p
      · simp only [QueueState.setProd, hp₂, Function.update_self,
          Function.update_of_ne hp₁] at h₁ h₂
        exact absurd h₁ (by simp [halone h₂ p₁])
      · simp only [QueueState.setProd, Function.update_of_ne hp₁,
          Function.update_of_ne hp₂] at h₁ h₂
        exact h.alone p₁ p₂ h₁ h₂
  cons := h.cons

theorem inv_pushLoadHead (h : Inv c s) {p : P} {item : T}
    (hs : queueStep c s (.pushLoadHead p item) = some s') : Inv c s' := by
  simp only [queueStep] at hs
  split at hs
  · rename_i hpc
    cases hs
    exact h.setProd p _ (by simp [hpc]) trivial (by simp [PushPc.pastTest])
  · cases hs

theorem inv_pushLoadTail (h : Inv c s) {p : P} (hG : NoOverlap c s (.pushLoadTail p))
    (hs : queueStep c s (.pushLoadTail p) = some s') : Inv c s' := by
  simp only [queueStep] at hs
  split at hs
  · rename_i item head hpc
    simp only [NoOverlap, hpc] at hG
    split at hs
    · cases hs
      exact h.setProd p _ (by simp [hpc]) trivial (by simp [PushPc.pastTest])
    · rename_i hroom
      cases hs
      obtain ⟨hhead, hothers⟩ := hG hroom
      refine h.setProd p _ (by simp [hpc]) ?_ (fun _ => hothers)
      have hnext : (head + 1) &&& c.mask = (s.pushed.length + 1) % c.val := by
        rw [hhead, h.head_eq, c.succ_and_mask]
      refine ⟨hhead, hnext, ?_⟩
      -- were only one slot left, `next` would be the tail
      rcases Nat.lt_or_ge (s.pushed.length + 1) (s.popped.length + c.val) with hlt | hge
      · omega
      · have hsum : s.pushed.length + 1 = s.popped.length + c.val := by
          have := h.bound
          omega
        exact absurd (by rw [hnext, h.tail_eq, hsum, Nat.add_mod_right]) hroom
  · cases hs

theorem inv_pushWriteSlot (h : Inv c s) {p : P}
    (hs : queueStep c s (.pushWriteSlot p) = some s') : Inv c s' := by
  simp only [queueStep] at hs
  split at hs
  · rename_i item head next hpc
    cases hs
    have hp := h.prod p
    rw [hpc] at hp
    obtain ⟨hhead, hnext, hroom⟩ := hp
    have hpast : (s.prod p).pastTest = true := by simp [hpc, PushPc.pastTest]
    refine
      { popped_eq := h.popped_eq, popped_le := h.popped_le, bound := h.bound,
        head_eq := h.head_eq, tail_eq := h.tail_eq, full := ?_, vacant := ?_,
        prod := ?_, alone := ?_, cons := h.cons }
    · -- the slot written is none of those that hold undelivered items
      intro k hk hlt
      have hne : k % c.val ≠ head := hhead ▸ h.mod_ne_head hroom hk hlt
      simpa [SpscQueue.writeSlot, QueueState.setProd, hne] using h.full k hk hlt
    · intro k hk hlt hlive
      refine ⟨?_, p, item, head, next, by simp [QueueState.setProd]⟩
      by_contra hne
      have hslot : k % c.val ≠ head := by
        rw [hhead, h.head_eq]
        exact (mod_ne_of_window (show s.pushed.length < k by
          have : s.pushed.length ≤ k := hk
          have : k ≠ s.pushed.length := hne
          omega) (by
          have : k < s.popped.length + c.val := hlt
          have := h.popped_le
          omega)).symm
      have hlive' : s.live (k % c.val) = true := by
        simpa [Function.update_of_ne hslot] using hlive
      exact hne (h.vacant k hk hlt hlive').1
    · intro p'
      by_cases hp' : p' = p
      · subst hp'
        simp only [QueueState.setProd, Function.update_self]
        exact ⟨hhead, hnext, hroom, by simp [SpscQueue.writeSlot], by simp⟩
      · simp only [QueueState.setProd, Function.update_of_ne hp']
        exact prodInv_of_not_pastTest (h.others_before hpast hp')
    · intro p₁ p₂ h₁ h₂
      have hback : ∀ p', ((Function.update s.prod p (.written item head next)) p').pastTest = true →
          (s.prod p').pastTest = true := by
        intro p' hp'
        by_cases heq : p' = p
        · simp [heq, hpc, PushPc.pastTest]
        · simpa [heq] using hp'
      exact h.alone p₁ p₂ (hback p₁ h₁) (hback p₂ h₂)
  · cases hs

theorem inv_pushStoreHead (h : Inv c s) {p : P}
    (hs : queueStep c s (.pushStoreHead p) = some s') : Inv c s' := by
  simp only [queueStep] at hs
  split at hs
  · rename_i item head next hpc
    cases hs
    have hp := h.prod p
    rw [hpc] at hp
    obtain ⟨hhead, hnext, hroom, hslot, hlive⟩ := hp
    have hpast : (s.prod p).pastTest = true := by simp [hpc, PushPc.pastTest]
    refine
      { popped_eq := ?_, popped_le := ?_, bound := ?_, head_eq := ?_,
        tail_eq := h.tail_eq, full := ?_, vacant := ?_, prod := ?_, alone := ?_, cons := ?_ }
    · simp only [QueueState.setProd_popped, List.take_append_of_le_length h.popped_le]
      exact h.popped_eq
    · simp only [QueueState.setProd_popped, List.length_append]
      exact Nat.le_add_right_of_le h.popped_le
    · simp only [QueueState.setProd_popped, List.length_append, List.length_singleton]
      omega
    · simpa using hnext
    · intro k hk hlt
      -- the item just accepted, or one that was there before
      by_cases hlast : k = s.pushed.length
      · subst hlast
        rw [← h.head_eq, ← hhead]
        simp [hslot, hlive]
      · have hlt' : k < s.pushed.length := by
          simp only [List.length_append, List.length_singleton] at hlt
          omega
        simpa [List.getElem?_append_left hlt'] using h.full k hk hlt'
    · intro k hk hlt hlive'
      simp only [List.length_append, List.length_singleton] at hk
      have := (h.vacant k (by omega) hlt hlive').1
      omega
    · intro p'
      by_cases hne : p' = p
      · subst hne
        simp [QueueState.setProd, ProdInv]
      · simp only [QueueState.setProd, Function.update_of_ne hne]
        exact prodInv_of_not_pastTest (h.others_before hpast hne)
    · intro p₁ p₂ h₁ _
      by_cases hne : p₁ = p
      · simp [QueueState.setProd, hne, PushPc.pastTest] at h₁
      · simp [QueueState.setProd, hne, h.others_before hpast hne] at h₁
    · -- the consumer's position only refers to the front of `pushed`
      have hc := h.cons
      unfold ConsInv at hc ⊢
      cases hcons : s.cons with
      | idle => simp [QueueState.setProd, hcons]
      | loadedTail _ => simpa [QueueState.setProd, hcons] using hc
      | nonempty _ =>
          simp only [hcons] at hc
          simp only [QueueState.setProd, hcons, List.length_append, List.length_singleton]
          exact ⟨hc.1, by omega⟩
      | taken _ _ =>
          simp only [hcons] at hc
          simp only [QueueState.setProd, hcons, List.length_append, List.length_singleton]
          exact ⟨hc.1, by omega, by rw [List.getElem?_append_left hc.2.1]; exact hc.2.2⟩
  · cases hs

theorem inv_popLoadTail (h : Inv c s)
    (hs : queueStep c s .popLoadTail = some s') : Inv c s' := by
  simp only [queueStep] at hs
  split at hs
  · cases hs
    exact h.setCons _ rfl
  · cases hs

theorem inv_popLoadHead (h : Inv c s)
    (hs : queueStep c s .popLoadHead = some s') : Inv c s' := by
  simp only [queueStep] at hs
  split at hs
  · rename_i tail hpc
    have hc := h.cons
    simp only [ConsInv, hpc] at hc
    split at hs
    · cases hs
      exact h.setCons _ trivial
    · rename_i hne
      cases hs
      refine h.setCons _ ⟨hc, ?_⟩
      -- equal counters would have made the two indices equal
      have hle := h.popped_le
      rcases Nat.lt_or_ge s.popped.length s.pushed.length with hlt | hge
      · exact hlt
      · have heq : s.popped.length = s.pushed.length := by omega
        exact absurd (by rw [hc, h.tail_eq, h.head_eq, heq]) hne
  · cases hs

theorem inv_popReadSlot (h : Inv c s)
    (hs : queueStep c s .popReadSlot = some s') : Inv c s' := by
  simp only [queueStep] at hs
  split at hs
  · rename_i tail hpc
    cases hs
    have hc := h.cons
    simp only [ConsInv, hpc] at hc
    refine h.setCons _ ⟨hc.1, hc.2, ?_⟩
    rw [hc.1, h.tail_eq]
    exact (h.full s.popped.length (Nat.le_refl _) hc.2).1
  · cases hs

theorem inv_popStoreTail (h : Inv c s)
    (hs : queueStep c s .popStoreTail = some s') : Inv c s' := by
  simp only [queueStep] at hs
  split at hs
  · rename_i tail item hpc
    cases hs
    have hc := h.cons
    simp only [ConsInv, hpc] at hc
    obtain ⟨htail, hlt, hitem⟩ := hc
    have hbound := h.bound
    refine
      { popped_eq := ?_, popped_le := ?_, bound := ?_, head_eq := h.head_eq,
        tail_eq := ?_, full := ?_, vacant := ?_, prod := ?_, alone := h.alone, cons := trivial }
    · -- the value read is the next of `pushed`
      simp only [List.length_append, List.length_singleton, List.take_add_one]
      rw [← h.popped_eq, ← hitem, Option.toList_some]
    · simp only [List.length_append, List.length_singleton]
      omega
    · simp only [List.length_append, List.length_singleton]
      omega
    · simp only [List.length_append, List.length_singleton]
      rw [htail, h.tail_eq, c.succ_and_mask]
    · intro k hk hklt
      simp only [List.length_append, List.length_singleton] at hk hklt
      have hne : k % c.val ≠ tail := by
        rw [htail, h.tail_eq]
        exact (mod_ne_of_window (by omega) (by omega)).symm
      simpa [Function.update_of_ne hne] using h.full k (by omega) hklt
    · intro k hk hklt hlive
      simp only [List.length_append, List.length_singleton] at hklt
      by_cases hnew : k = s.popped.length + c.val
      · -- the slot just released
        have : k % c.val = tail := by rw [hnew, Nat.add_mod_right, htail, h.tail_eq]
        simp [this] at hlive
      · have hk' : s.pushed.length ≤ k := hk
        have hne : k % c.val ≠ tail := by
          rw [htail, h.tail_eq]
          exact (mod_ne_of_window (by omega) (by omega)).symm
        exact h.vacant k hk (by omega) (by simpa [Function.update_of_ne hne] using hlive)
    · intro p
      have hp := h.prod p
      cases hpc' : s.prod p with
      | idle => simp [ProdInv]
      | loadedHead _ _ => simp [ProdInv]
      | room _ _ _ =>
          simp only [hpc', ProdInv, List.length_append, List.length_singleton] at hp ⊢
          exact ⟨hp.1, hp.2.1, by omega⟩
      | written item' head next =>
          simp only [hpc', ProdInv, List.length_append, List.length_singleton] at hp ⊢
          -- a slot being written is not the one just released
          have hne : head ≠ tail := by
            rw [hp.1, htail, h.head_eq, h.tail_eq]
            exact (mod_ne_of_window hlt (by omega)).symm
          exact ⟨hp.1, hp.2.1, by omega, hp.2.2.2.1, by simpa [hne] using hp.2.2.2.2⟩
  · cases hs

/-- Every step of a non-overlapping run keeps the invariant. -/
theorem inv_step (a : QueueAct P T) (h : Inv c s) (hG : NoOverlap c s a)
    (hs : queueStep c s a = some s') : Inv c s' := by
  cases a with
  | pushLoadHead p item => exact inv_pushLoadHead h hs
  | pushLoadTail p => exact inv_pushLoadTail h hG hs
  | pushWriteSlot p => exact inv_pushWriteSlot h hs
  | pushStoreHead p => exact inv_pushStoreHead h hs
  | popLoadTail => exact inv_popLoadTail h hs
  | popLoadHead => exact inv_popLoadHead h hs
  | popReadSlot => exact inv_popReadSlot h hs
  | popStoreTail => exact inv_popStoreTail h hs

end Preservation

end NomosRt.Spsc
