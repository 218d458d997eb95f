/-
  NomosRt.Spsc.Queue

  The ring buffer `spsc_queue<T, Capacity>` (include/nomos/rt/spsc_queue.hpp),
  one call at a time.

  `push` and `pop` are the source's, on the three members `head_`, `tail_` and
  `slots_`.  The slots start out value-initialised (`default`).  Moving out of a
  slot leaves the slot's value in place, as it does for the trivially copyable
  events that ride these queues.

  `Holds c q xs` is the abstraction: the queue `q` of capacity `c` holds the FIFO
  `xs`, oldest first.  `push_spec` and `pop_spec` are the only facts about the
  operations that the scheduler and the control thread use.
-/

import Mathlib.Data.List.Basic
import NomosRt.Lib.Ring

namespace NomosRt.Spsc

open NomosRt.Lib

/-- The members of a `spsc_queue`. -/
structure SpscQueue (T : Type*) where
  head : Nat
  tail : Nat
  slots : Nat → T

namespace SpscQueue

variable {T : Type*} (c : Capacity)

/-- A freshly constructed queue. -/
def empty [Inhabited T] : SpscQueue T := ⟨0, 0, fun _ => default⟩

/-- `slots_[i] = v`. -/
def writeSlot (q : SpscQueue T) (i : Nat) (v : T) : SpscQueue T :=
  { q with slots := Function.update q.slots i v }

/-- `spsc_queue::push`: false when the queue is full. -/
def push (q : SpscQueue T) (item : T) : Bool × SpscQueue T :=
  let next := (q.head + 1) &&& c.mask
  if next = q.tail then (false, q)
  else (true, { q.writeSlot q.head item with head := next })

/-- `spsc_queue::pop`: nothing when the queue is empty, else the slot's value. -/
def pop (q : SpscQueue T) : Option T × SpscQueue T :=
  if q.tail = q.head then (none, q)
  else (some (q.slots q.tail), { q with tail := (q.tail + 1) &&& c.mask })

variable {c}

/-- The queue holds `xs`, oldest first: some counter `base` of elements already
    popped places `xs` in the ring. -/
def Holds (c : Capacity) (q : SpscQueue T) (xs : List T) : Prop :=
  ∃ base, q.tail = base % c.val ∧ q.head = (base + xs.length) % c.val ∧
    xs.length < c.val ∧
    ∀ i (hi : i < xs.length), q.slots ((base + i) % c.val) = xs[i]

theorem holds_empty [Inhabited T] : Holds c (empty : SpscQueue T) [] := by
  refine ⟨0, by simp [empty], by simp [empty], by simpa using c.pos, ?_⟩
  intro i hi
  simp at hi

theorem Holds.length_lt {q : SpscQueue T} {xs : List T} (h : Holds c q xs) :
    xs.length < c.val := by
  obtain ⟨_, _, _, hlen, _⟩ := h
  exact hlen

/-- `push` refuses exactly when `Capacity - 1` elements are held, and otherwise
    appends. -/
theorem push_spec {q : SpscQueue T} {xs : List T} (h : Holds c q xs) (v : T) :
    (push c q v).1 = decide (xs.length + 1 < c.val) ∧
      Holds c (push c q v).2 (if xs.length + 1 < c.val then xs ++ [v] else xs) := by
  obtain ⟨base, htail, hhead, hlen, hslots⟩ := h
  have hnext : (q.head + 1) &&& c.mask = (base + xs.length + 1) % c.val := by
    rw [hhead, c.succ_and_mask]
  by_cases hfull : xs.length + 1 < c.val
  · have hne : (q.head + 1) &&& c.mask ≠ q.tail := by
      rw [hnext, htail]
      exact (mod_ne_of_window (by omega) (by omega)).symm
    simp only [push, hne, if_false, hfull, decide_true, if_true, true_and]
    refine ⟨base, htail, ?_, by simpa using hfull, ?_⟩
    · simpa [Nat.add_assoc] using hnext
    · intro i hi
      by_cases hlast : i = xs.length
      · subst hlast
        simp [writeSlot, hhead]
      · have hi' : i < xs.length := by simp at hi; omega
        have hslot : (base + i) % c.val ≠ q.head := by
          rw [hhead]
          exact mod_ne_of_window (by omega) (by omega)
        simp [writeSlot, Function.update_of_ne hslot, List.getElem_append_left hi', hslots i hi']
  -- full: one more element would bring the head round to the tail
  · have heq : (q.head + 1) &&& c.mask = q.tail := by
      have hsum : base + xs.length + 1 = base + c.val := by omega
      rw [hnext, htail, hsum, Nat.add_mod_right]
    simp only [push, heq, if_true, hfull, decide_false, if_false, true_and]
    exact ⟨base, htail, hhead, hlen, hslots⟩

/-- `pop` answers `none` exactly on the empty queue, and otherwise removes the
    oldest element. -/
theorem pop_spec {q : SpscQueue T} {xs : List T} (h : Holds c q xs) :
    match xs with
    | [] => pop c q = (none, q)
    | x :: rest => (pop c q).1 = some x ∧ Holds c (pop c q).2 rest := by
  obtain ⟨base, htail, hhead, hlen, hslots⟩ := h
  cases xs with
  | nil =>
      have heq : q.tail = q.head := by simpa [htail] using hhead.symm
      simp [pop, heq]
  | cons x rest =>
      have hne : q.tail ≠ q.head := by
        rw [htail, hhead]
        exact mod_ne_of_window (by simp) (by simpa using hlen)
      have hfront : q.slots q.tail = x := by
        rw [htail]
        exact hslots 0 (by simp)
      simp only [pop, hne, if_false, hfront, true_and]
      refine ⟨base + 1, ?_, ?_, by simp at hlen; omega, ?_⟩
      · rw [htail, c.succ_and_mask]
      · rw [hhead]
        simp [Nat.add_comm, Nat.add_left_comm]
      · intro i hi
        have hi' : i + 1 < (x :: rest).length := by simpa using hi
        have := hslots (i + 1) hi'
        simpa [Nat.add_assoc, Nat.add_comm 1 i] using this

end SpscQueue

end NomosRt.Spsc
