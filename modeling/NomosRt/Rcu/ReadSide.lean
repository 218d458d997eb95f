/-
  NomosRt.Rcu.ReadSide

  Read-side sections and grace periods of the vendored liburcu
  (third_party/liburcu: include/urcu/static/urcu-bp.h, src/urcu-bp.c).

  A thread's counter holds the depth of its sections in the low half of the word
  and, above it, the phase bit of the global counter at the time the outermost
  section began.  `synchronize_rcu` waits twice: until every thread is outside or
  has the current phase, and then, with the phase bit flipped, until every thread
  that had it is outside or has the new one.

  Accesses are sequentially consistent, as the barriers of the library are there to
  make them.  What a thread does under `rcu_registry_lock` alone is one step.
  `sections` and `owed` are not in the code: they list the sections that are open,
  and for each call of `synchronize_rcu` those of its beginning that are open still.
-/

import Mathlib.Data.BitVec
import Mathlib.Data.List.Nodup
import NomosRt.Lib.Machine
import NomosRt.Lib.Mutex

namespace NomosRt.Rcu

open NomosRt.Lib

/-! ## Counters -/

/-- `URCU_BP_GP_COUNT`. -/
def gpCount : BitVec 64 := 1

/-- `URCU_BP_GP_CTR_PHASE`; `sizeof(long)` is 8. -/
def gpCtrPhase : BitVec 64 := 1 <<< (8 <<< 2)

/-- `URCU_BP_GP_CTR_NEST_MASK`. -/
def gpCtrNestMask : BitVec 64 := gpCtrPhase - 1

/-- `enum urcu_bp_state`. -/
inductive ReaderState where
  | activeCurrent
  | activeOld
  | inactive
  deriving DecidableEq, Repr

/-- `urcu_bp_reader_state`. -/
def readerState (ctr gpCtr : BitVec 64) : ReaderState :=
  if ctr &&& gpCtrNestMask = 0 then .inactive
  else if (ctr ^^^ gpCtr) &&& gpCtrPhase = 0 then .activeCurrent
  else .activeOld

/-- The counter with a phase bit and a depth. -/
def ctrOf (phase : Bool) (depth : BitVec 32) : BitVec 64 :=
  (if phase then 1#32 else 0#32) ++ depth

theorem gpCtrNestMask_eq : gpCtrNestMask = 0#32 ++ BitVec.allOnes 32 := by decide

theorem gpCtrPhase_eq : gpCtrPhase = 1#32 ++ 0#32 := by decide

theorem append_eq_zero {a b : BitVec 32} : a ++ b = (0 : BitVec 64) ↔ a = 0 ∧ b = 0 := by
  constructor
  · intro h
    have hlow := congrArg (BitVec.extractLsb' 0 32) h
    have hhigh := congrArg (BitVec.extractLsb' 32 32) h
    rw [BitVec.extractLsb'_append_eq_right] at hlow
    rw [BitVec.extractLsb'_append_eq_left] at hhigh
    exact ⟨by simpa using hhigh, by simpa using hlow⟩
  · rintro ⟨rfl, rfl⟩
    decide

theorem ctrOf_and_nestMask (phase : Bool) (depth : BitVec 32) :
    ctrOf phase depth &&& gpCtrNestMask = 0 ↔ depth = 0 := by
  rw [ctrOf, gpCtrNestMask_eq, BitVec.and_append, BitVec.and_allOnes, append_eq_zero]
  exact and_iff_right (BitVec.and_zero)

/-- The phase test compares the phase bits alone. -/
theorem ctrOf_xor_and_phase (p q : Bool) (m n : BitVec 32) :
    (ctrOf p m ^^^ ctrOf q n) &&& gpCtrPhase = 0 ↔ p = q := by
  rw [ctrOf, ctrOf, gpCtrPhase_eq, BitVec.xor_append, BitVec.and_append, append_eq_zero]
  cases p <;> cases q <;> simp

theorem toNat_ctrOf (phase : Bool) (depth : BitVec 32) :
    (ctrOf phase depth).toNat = (if phase then 2 ^ 32 else 0) + depth.toNat := by
  have hlt := depth.isLt
  rw [ctrOf, BitVec.toNat_append]
  cases phase with
  | false => simp
  | true =>
      have hor := Nat.two_pow_add_eq_or_of_lt hlt 1
      rw [Nat.mul_one] at hor
      exact hor.symm

/-- One section more. -/
theorem ctrOf_add_count (phase : Bool) {depth : BitVec 32} (h : depth ≠ BitVec.allOnes 32) :
    ctrOf phase depth + gpCount = ctrOf phase (depth + 1) := by
  have hmax : depth.toNat ≠ 2 ^ 32 - 1 := fun heq => h (BitVec.eq_of_toNat_eq (by simpa using heq))
  have hlt := depth.isLt
  apply BitVec.eq_of_toNat_eq
  rw [BitVec.toNat_add, toNat_ctrOf, toNat_ctrOf, BitVec.toNat_add]
  cases phase <;> simp [gpCount] <;> omega

/-- One section less. -/
theorem ctrOf_sub_count (phase : Bool) {depth : BitVec 32} (h : depth ≠ 0) :
    ctrOf phase depth - gpCount = ctrOf phase (depth - 1) := by
  have hpos : depth.toNat ≠ 0 := fun heq => h (BitVec.eq_of_toNat_eq (by simpa using heq))
  have hlt := depth.isLt
  apply BitVec.eq_of_toNat_eq
  rw [BitVec.toNat_sub, toNat_ctrOf, toNat_ctrOf, BitVec.toNat_sub]
  cases phase <;> simp [gpCount] <;> omega

theorem ctrOf_xor_phase (phase : Bool) : ctrOf phase 1 ^^^ gpCtrPhase = ctrOf (!phase) 1 := by
  cases phase <;> decide

/-! ## Steps -/

/-- Where a thread is in `_urcu_bp_read_lock`: `loaded` is between the load of the global
    counter and the store of its own. -/
inductive LockPc where
  | out
  | loaded (gpCtr : BitVec 64)
  deriving DecidableEq, Repr

/-- Where a call of `urcu_bp_synchronize_rcu` is.  The flag says which of the two
    `wait_for_readers` it is in; `scanning` has the readers of the list that are still to be
    looked at, `waiting` has given up `rcu_registry_lock` between two scans. -/
inductive SyncPc (T : Type*) where
  | idle
  | called
  | gpLocked
  | scanning (second : Bool) (todo : List T)
  | waiting (second : Bool)
  | flipping
  | splicing
  | leaving
  | unlocking
  deriving DecidableEq

/-- The global counter, the threads' counters and their registry, the two locks and the calls
    of `synchronize_rcu` with their lists. -/
structure UrcuState (T W : Type*) where
  gpCtr : BitVec 64
  ctr : T → BitVec 64
  registered : T → Bool
  lock : T → LockPc
  registry : List T
  curSnapReaders : List T
  qsreaders : List T
  gpLock : Option W
  registryLock : Option W
  sync : W → SyncPc T
  sections : List T
  owed : W → List T

/-- The steps of readers and of callers of `synchronize_rcu`. -/
inductive UrcuAct (T W : Type*) where
  | register (t : T)
  | unregister (t : T)
  | loadGp (t : T)
  | storeCtr (t : T)
  | nest (t : T)
  | unlock (t : T)
  | syncCall (w : W)
  | syncNext (w : W)

section Steps

variable {T W : Type*} [DecidableEq T] [DecidableEq W]

/-- A section of `t` has ended: nobody waits for it any more. -/
def UrcuState.leave (s : UrcuState T W) (t : T) : UrcuState T W :=
  { s with sections := s.sections.filter (· ≠ t), owed := fun w => (s.owed w).filter (· ≠ t) }

/-- The list a `wait_for_readers` empties. -/
def UrcuState.inputReaders (s : UrcuState T W) (second : Bool) : List T :=
  if second then s.curSnapReaders else s.registry

/-- `cds_list_del`, from the list that is emptied. -/
def UrcuState.unlink (s : UrcuState T W) (second : Bool) (t : T) : UrcuState T W :=
  if second then { s with curSnapReaders := s.curSnapReaders.filter (· ≠ t) }
  else { s with registry := s.registry.filter (· ≠ t) }

/-- The body of the loop in `wait_for_readers`. -/
def UrcuState.visit (s : UrcuState T W) (second : Bool) (t : T) : UrcuState T W :=
  match readerState (s.ctr t) s.gpCtr with
  | .activeCurrent =>
      -- `cur_snap_readers` is NULL in the second wait
      if second then { s.unlink second t with qsreaders := t :: s.qsreaders }
      else { s.unlink second t with curSnapReaders := t :: s.curSnapReaders }
  | .inactive => { s.unlink second t with qsreaders := t :: s.qsreaders }
  | .activeOld => s

/-- The caller's place. -/
def UrcuState.moveTo (s : UrcuState T W) (w : W) (pc : SyncPc T) : UrcuState T W :=
  { s with sync := Function.update s.sync w pc }

/-- The next step of a call of `synchronize_rcu`; none where it waits for a lock. -/
def UrcuState.syncNext (s : UrcuState T W) (w : W) : Option (UrcuState T W) :=
  match s.sync w with
  | .idle => none
  | .called => if s.gpLock = none then some { s.moveTo w .gpLocked with gpLock := some w } else none
  | .gpLocked =>
      if s.registryLock = none then
        -- `if (cds_list_empty(&registry)) goto out;`
        some { s.moveTo w (if s.registry = [] then .leaving else .scanning false s.registry) with
          registryLock := some w }
      else none
  | .scanning second (t :: todo) => some ((s.visit second t).moveTo w (.scanning second todo))
  | .scanning second [] =>
      if s.inputReaders second = [] then some (s.moveTo w (if second then .splicing else .flipping))
      else some { s.moveTo w (.waiting second) with registryLock := none }
  | .waiting second =>
      if s.registryLock = none then
        some { s.moveTo w (.scanning second (s.inputReaders second)) with registryLock := some w }
      else none
  | .flipping =>
      some { s.moveTo w (.scanning true s.curSnapReaders) with gpCtr := s.gpCtr ^^^ gpCtrPhase }
  | .splicing =>
      some { s.moveTo w .leaving with registry := s.qsreaders ++ s.registry, qsreaders := [] }
  | .leaving => some { s.moveTo w .unlocking with registryLock := none }
  | .unlocking => some { s.moveTo w .idle with gpLock := none }

/-- One step. -/
def urcuStep (s : UrcuState T W) : UrcuAct T W → Option (UrcuState T W)
  | .register t =>
      if s.registered t = false ∧ s.registryLock = none then
        some { s with registered := Function.update s.registered t true, registry := t :: s.registry }
      else none
  -- a thread that exits inside a section is not in it any more
  | .unregister t =>
      if s.registered t = true ∧ s.lock t = .out ∧ s.registryLock = none then
        some { s.leave t with
          registered := Function.update s.registered t false
          ctr := Function.update s.ctr t 0
          registry := s.registry.filter (· ≠ t)
          curSnapReaders := s.curSnapReaders.filter (· ≠ t)
          qsreaders := s.qsreaders.filter (· ≠ t) }
      else none
  | .loadGp t =>
      if s.registered t = true ∧ s.lock t = .out ∧ s.ctr t &&& gpCtrNestMask = 0 then
        some { s with lock := Function.update s.lock t (.loaded s.gpCtr) }
      else none
  -- the section begins with the store: what is loaded in it is loaded later
  | .storeCtr t =>
      match s.lock t with
      | .loaded v =>
          some { s with
            ctr := Function.update s.ctr t v
            lock := Function.update s.lock t .out
            sections := t :: s.sections }
      | .out => none
  | .nest t =>
      if s.lock t = .out ∧ s.ctr t &&& gpCtrNestMask ≠ 0 then
        some { s with ctr := Function.update s.ctr t (s.ctr t + gpCount) }
      else none
  | .unlock t =>
      if s.lock t = .out ∧ s.ctr t &&& gpCtrNestMask ≠ 0 then
        let ctr := s.ctr t - gpCount
        some { (if ctr &&& gpCtrNestMask = 0 then s.leave t else s) with
          ctr := Function.update s.ctr t ctr }
      else none
  | .syncCall w =>
      if s.sync w = .idle then
        some { s.moveTo w .called with owed := Function.update s.owed w s.sections }
      else none
  | .syncNext w => s.syncNext w

/-- No thread registered, no section open. -/
def urcuMachine (T W : Type*) [DecidableEq T] [DecidableEq W] :
    Machine (UrcuState T W) (UrcuAct T W) :=
  ⟨⟨gpCount, fun _ => 0, fun _ => false, fun _ => .out, [], [], [], none, none, fun _ => .idle, [],
    fun _ => []⟩, urcuStep⟩

/-- What `urcu_assert_debug` asks of the caller of `_urcu_bp_read_lock`: the depth does not
    overflow. -/
def DepthInRange (s : UrcuState T W) : UrcuAct T W → Prop
  | .nest t => s.ctr t &&& gpCtrNestMask ≠ gpCtrNestMask
  | _ => True

instance (s : UrcuState T W) (a : UrcuAct T W) : Decidable (DepthInRange s a) :=
  match a with
  | .nest t => inferInstanceAs (Decidable (s.ctr t &&& gpCtrNestMask ≠ gpCtrNestMask))
  | .register _ | .unregister _ | .loadGp _ | .storeCtr _ | .unlock _ | .syncCall _
  | .syncNext _ => .isTrue trivial

end Steps

/-! ## The invariant -/

/-- The place holds `rcu_gp_lock`. -/
def SyncPc.hasGp {T : Type*} : SyncPc T → Bool
  | .idle | .called => false
  | _ => true

/-- The place holds `rcu_registry_lock`. -/
def SyncPc.hasRegistry {T : Type*} : SyncPc T → Bool
  | .scanning .. | .flipping | .splicing | .leaving => true
  | _ => false

/-- The place may have readers on the call's own lists. -/
def SyncPc.hasLists {T : Type*} : SyncPc T → Bool
  | .scanning .. | .waiting _ | .flipping | .splicing => true
  | _ => false

/-- The phase test of `urcu_bp_reader_state`. -/
def SamePhase (ctr gpCtr : BitVec 64) : Prop := (ctr ^^^ gpCtr) &&& gpCtrPhase = 0

/-- A registered thread is on one of the three lists. -/
structure ListsInv {T : Type*} (registered : T → Bool) (registry curSnap qs : List T) : Prop where
  nodup : (registry ++ curSnap ++ qs).Nodup
  mem_iff : ∀ t, registered t = true ↔ t ∈ registry ++ curSnap ++ qs

/-- The counters are counters, and a section is open where the depth is not zero. -/
structure WordsInv {T : Type*} (gpCtr : BitVec 64) (ctr : T → BitVec 64) (registered : T → Bool)
    (lock : T → LockPc) (sections : List T) : Prop where
  gp : ∃ phase, gpCtr = ctrOf phase 1
  word : ∀ t, ∃ phase depth, ctr t = ctrOf phase depth
  loaded : ∀ t v, lock t = .loaded v →
    registered t = true ∧ ctr t &&& gpCtrNestMask = 0 ∧ ∃ phase, v = ctrOf phase 1
  mem_sections : ∀ t, t ∈ sections ↔ ctr t &&& gpCtrNestMask ≠ 0
  unregistered : ∀ t, registered t = false → ctr t = 0

/-- What a place knows of a thread whose section the call has still to wait for. -/
def Awaited {T : Type*} (gpCtr : BitVec 64) (ctr : T → BitVec 64) (registry curSnap : List T)
    (pc : SyncPc T) (t : T) : Prop :=
  match pc with
  | .called | .gpLocked => True
  | .scanning false _ | .waiting false =>
      t ∈ registry ∨ t ∈ curSnap ∧ SamePhase (ctr t) gpCtr
  | .flipping => t ∈ curSnap ∧ SamePhase (ctr t) gpCtr
  | .scanning true _ | .waiting true => t ∈ curSnap ∧ ¬ SamePhase (ctr t) gpCtr
  | .idle | .splicing | .leaving | .unlocking => False

/-- What a place knows of the lists. -/
def PlaceLists {T : Type*} (registry curSnap : List T) : SyncPc T → Prop
  | .scanning second todo =>
      todo.Nodup ∧ ∀ t ∈ todo, t ∈ if second then curSnap else registry
  | .flipping => registry = []
  | .splicing => curSnap = []
  | _ => True

/-- The calls of `synchronize_rcu`, each with what it waits for. -/
structure CallsInv {T W : Type*} (gpCtr : BitVec 64) (ctr : T → BitVec 64)
    (registry curSnap qs : List T) (sync : W → SyncPc T) (sections : List T) (owed : W → List T) :
    Prop where
  open_of_owed : ∀ w, ∀ t ∈ owed w, t ∈ sections
  awaited : ∀ w, ∀ t ∈ owed w, Awaited gpCtr ctr registry curSnap (sync w) t
  place : ∀ w, PlaceLists registry curSnap (sync w)
  quiet : (∀ w, (sync w).hasLists = false) → curSnap = [] ∧ qs = []

/-- The invariant. -/
structure UrcuState.Inv {T W : Type*} (s : UrcuState T W) : Prop where
  lists : ListsInv s.registered s.registry s.curSnapReaders s.qsreaders
  words : WordsInv s.gpCtr s.ctr s.registered s.lock s.sections
  gpHeld : Held s.gpLock fun w => (s.sync w).hasGp = true
  registryHeld : Held s.registryLock fun w => (s.sync w).hasRegistry = true
  calls : CallsInv s.gpCtr s.ctr s.registry s.curSnapReaders s.qsreaders s.sync s.sections s.owed

theorem inv_urcuMachine {T W : Type*} [DecidableEq T] [DecidableEq W] :
    (urcuMachine T W).start.Inv where
  lists := ⟨List.nodup_nil, fun t => by simp [urcuMachine]⟩
  words := by
    have hgp : gpCount = ctrOf false 1 := by decide
    have hzero : (0 : BitVec 64) = ctrOf false 0 := by decide
    refine ⟨⟨false, hgp⟩, fun t => ⟨false, 0, hzero⟩, fun t v h => ?_, fun t => ?_, fun t _ => rfl⟩
    · cases h
    · simp [urcuMachine]
  gpHeld := fun w => by simp [urcuMachine, SyncPc.hasGp]
  registryHeld := fun w => by simp [urcuMachine, SyncPc.hasRegistry]
  calls := ⟨fun w t h => absurd h List.not_mem_nil, fun w t h => absurd h List.not_mem_nil,
    fun w => trivial, fun _ => ⟨rfl, rfl⟩⟩

/-! ## Readers -/

section Readers

variable {T W : Type*} {s s' : UrcuState T W} {t : T} {w : W}

theorem UrcuState.Inv.registered_of_open (h : s.Inv) (ht : t ∈ s.sections) :
    s.registered t = true := by
  rw [h.words.mem_sections] at ht
  by_contra hno
  rw [h.words.unregistered t (by simpa using hno)] at ht
  exact ht (by decide)

/-- Nobody holds a free `rcu_registry_lock`. -/
theorem UrcuState.Inv.not_hasRegistry (h : s.Inv) (hfree : s.registryLock = none) (w : W) :
    (s.sync w).hasRegistry = false := by
  by_contra hno
  have hheld := (h.registryHeld w).mpr (by simpa using hno)
  rw [hfree] at hheld
  cases hheld

/-- Only the places with `rcu_registry_lock` look at the lists. -/
theorem placeLists_of_not_hasRegistry {pc : SyncPc T} (hpc : pc.hasRegistry = false)
    (registry curSnap : List T) : PlaceLists registry curSnap pc := by
  cases pc <;> trivial

/-- What is known of a thread is about its place on the lists and its phase. -/
theorem Awaited.mono {gpCtr gpCtr' : BitVec 64} {ctr ctr' : T → BitVec 64}
    {registry registry' curSnap curSnap' : List T} {pc : SyncPc T}
    (h : Awaited gpCtr ctr registry curSnap pc t) (hreg : t ∈ registry → t ∈ registry')
    (hsnap : t ∈ curSnap → t ∈ curSnap')
    (hphase : SamePhase (ctr' t) gpCtr' ↔ SamePhase (ctr t) gpCtr) :
    Awaited gpCtr' ctr' registry' curSnap' pc t := by
  cases pc with
  | idle | splicing | leaving | unlocking => exact h
  | called | gpLocked => trivial
  | flipping => exact ⟨hsnap h.1, hphase.mpr h.2⟩
  | scanning second _ | waiting second =>
      cases second with
      | false => exact h.imp hreg fun hs => ⟨hsnap hs.1, hphase.mpr hs.2⟩
      | true => exact ⟨hsnap h.1, fun hs => h.2 (hphase.mp hs)⟩

variable [DecidableEq T] [DecidableEq W]

section Components

variable {gpCtr v : BitVec 64} {ctr : T → BitVec 64} {registered : T → Bool} {lock : T → LockPc}
  {registry curSnap qs sections : List T}

theorem ListsInv.register (h : ListsInv registered registry curSnap qs)
    (hnew : registered t = false) :
    ListsInv (Function.update registered t true) (t :: registry) curSnap qs := by
  refine ⟨List.nodup_cons.mpr ⟨?_, h.nodup⟩, fun u => ?_⟩
  · change t ∉ registry ++ curSnap ++ qs
    rw [← h.mem_iff, hnew]
    exact Bool.false_ne_true
  · change _ ↔ u ∈ t :: (registry ++ curSnap ++ qs)
    rw [List.mem_cons, ← h.mem_iff]
    by_cases hu : u = t
    · simp [hu]
    · rw [Function.update_of_ne hu, or_iff_right hu]

theorem ListsInv.unregister (h : ListsInv registered registry curSnap qs) :
    ListsInv (Function.update registered t false) (registry.filter (· ≠ t))
      (curSnap.filter (· ≠ t)) (qs.filter (· ≠ t)) := by
  have heq : registry.filter (· ≠ t) ++ curSnap.filter (· ≠ t) ++ qs.filter (· ≠ t) =
      (registry ++ curSnap ++ qs).filter (· ≠ t) := by
    rw [List.filter_append, List.filter_append]
  refine ⟨heq ▸ h.nodup.filter _, fun u => ?_⟩
  rw [heq, List.mem_filter, decide_eq_true_iff, ← h.mem_iff]
  by_cases hu : u = t
  · simp [hu]
  · rw [Function.update_of_ne hu, and_iff_left hu]

theorem WordsInv.register (h : WordsInv gpCtr ctr registered lock sections) (t : T) :
    WordsInv gpCtr ctr (Function.update registered t true) lock sections := by
  refine { h with loaded := fun u v hu => ?_, unregistered := fun u hu => ?_ }
  · obtain ⟨hreg, hrest⟩ := h.loaded u v hu
    refine ⟨?_, hrest⟩
    by_cases hut : u = t
    · rw [hut, Function.update_self]
    · rw [Function.update_of_ne hut]
      exact hreg
  · by_cases hut : u = t
    · rw [hut, Function.update_self] at hu
      cases hu
    · rw [Function.update_of_ne hut] at hu
      exact h.unregistered u hu

/-- A thread that is not inside `_urcu_bp_read_lock` sets its counter, and its section is open
    or not by what it sets. -/
theorem WordsInv.store (h : WordsInv gpCtr ctr registered lock sections) {phase : Bool}
    {depth : BitVec 32} (hreg : registered t = true) (hout : lock t = .out) {sections' : List T}
    (hself : t ∈ sections' ↔ depth ≠ 0) (hother : ∀ u, u ≠ t → (u ∈ sections' ↔ u ∈ sections)) :
    WordsInv gpCtr (Function.update ctr t (ctrOf phase depth)) registered lock sections' := by
  refine ⟨h.gp, fun u => ?_, fun u v hu => ?_, fun u => ?_, fun u hu => ?_⟩
  all_goals by_cases hut : u = t
  · exact ⟨phase, depth, by rw [hut, Function.update_self]⟩
  · rw [Function.update_of_ne hut]
    exact h.word u
  · rw [hut, hout] at hu
    cases hu
  · rw [Function.update_of_ne hut]
    exact h.loaded u v hu
  · rw [hut, Function.update_self, hself, ne_eq, ne_eq, ctrOf_and_nestMask]
  · rw [hother u hut, Function.update_of_ne hut]
    exact h.mem_sections u
  · rw [hut, hreg] at hu
    cases hu
  · rw [Function.update_of_ne hut]
    exact h.unregistered u hu

theorem WordsInv.unregister (h : WordsInv gpCtr ctr registered lock sections)
    (hout : lock t = .out) :
    WordsInv gpCtr (Function.update ctr t 0) (Function.update registered t false) lock
      (sections.filter (· ≠ t)) := by
  have hzero : (0 : BitVec 64) = ctrOf false 0 := by decide
  refine ⟨h.gp, fun u => ?_, fun u v hu => ?_, fun u => ?_, fun u hu => ?_⟩
  all_goals by_cases hut : u = t
  · exact ⟨false, 0, by rw [hut, Function.update_self]; exact hzero⟩
  · rw [Function.update_of_ne hut]
    exact h.word u
  · rw [hut, hout] at hu
    cases hu
  · rw [Function.update_of_ne hut, Function.update_of_ne hut]
    exact h.loaded u v hu
  · simp [hut]
  · rw [List.mem_filter, decide_eq_true_iff, and_iff_left hut, Function.update_of_ne hut]
    exact h.mem_sections u
  · rw [hut, Function.update_self]
  · rw [Function.update_of_ne hut] at hu ⊢
    exact h.unregistered u hu

end Components

omit [DecidableEq W] in
/-- A thread's section ends and no thread's list place changes but its own. -/
theorem CallsInv.leave {gpCtr : BitVec 64} {ctr ctr' : T → BitVec 64}
    {registry registry' curSnap curSnap' qs qs' : List T} {sync : W → SyncPc T}
    {sections : List T} {owed : W → List T}
    (h : CallsInv gpCtr ctr registry curSnap qs sync sections owed)
    (hctr : ∀ u, u ≠ t → ctr' u = ctr u)
    (hreg : ∀ u, u ≠ t → u ∈ registry → u ∈ registry')
    (hsnap : ∀ u, u ≠ t → u ∈ curSnap → u ∈ curSnap')
    (hplace : ∀ w, PlaceLists registry' curSnap' (sync w))
    (hquiet : curSnap = [] ∧ qs = [] → curSnap' = [] ∧ qs' = []) :
    CallsInv gpCtr ctr' registry' curSnap' qs' sync (sections.filter (· ≠ t))
      fun w => (owed w).filter (· ≠ t) := by
  refine ⟨fun w u hu => ?_, fun w u hu => ?_, hplace, fun hno => hquiet (h.quiet hno)⟩
  · rw [List.mem_filter, decide_eq_true_iff] at hu ⊢
    exact ⟨h.open_of_owed w u hu.1, hu.2⟩
  · rw [List.mem_filter, decide_eq_true_iff] at hu
    refine (h.awaited w u hu.1).mono (hreg u hu.2) (hsnap u hu.2) ?_
    rw [hctr u hu.2]

omit [DecidableEq W] in
/-- A counter changes, and not the phase of an open section. -/
theorem CallsInv.setCtr {gpCtr v : BitVec 64} {ctr : T → BitVec 64}
    {registry curSnap qs : List T} {sync : W → SyncPc T} {sections sections' : List T}
    {owed : W → List T} (h : CallsInv gpCtr ctr registry curSnap qs sync sections owed)
    (hsub : ∀ u, u ∈ sections → u ∈ sections')
    (hphase : t ∈ sections → (SamePhase v gpCtr ↔ SamePhase (ctr t) gpCtr)) :
    CallsInv gpCtr (Function.update ctr t v) registry curSnap qs sync sections' owed := by
  refine { h with open_of_owed := fun w u hu => ?_, awaited := fun w u hu => ?_ }
  · exact hsub u (h.open_of_owed w u hu)
  · refine (h.awaited w u hu).mono id id ?_
    by_cases hut : u = t
    · rw [hut, Function.update_self]
      exact hphase (hut ▸ h.open_of_owed w u hu)
    · rw [Function.update_of_ne hut]

theorem inv_register (h : s.Inv) (hs : urcuStep s (.register t) = some s') : s'.Inv := by
  simp only [urcuStep, Option.ite_none_right_eq_some, Option.some.injEq] at hs
  obtain ⟨⟨hnew, hfree⟩, rfl⟩ := hs
  refine ⟨h.lists.register hnew, h.words.register t, h.gpHeld, h.registryHeld, ?_⟩
  refine { h.calls with awaited := fun w u hu => ?_, place := fun w => ?_ }
  · exact (h.calls.awaited w u hu).mono (List.mem_cons_of_mem _) id Iff.rfl
  · exact placeLists_of_not_hasRegistry (h.not_hasRegistry hfree w) _ _

theorem inv_unregister (h : s.Inv) (hs : urcuStep s (.unregister t) = some s') : s'.Inv := by
  simp only [urcuStep, Option.ite_none_right_eq_some, Option.some.injEq] at hs
  obtain ⟨⟨hreg, hout, hfree⟩, rfl⟩ := hs
  have hstay : ∀ l : List T, ∀ u, u ≠ t → u ∈ l → u ∈ l.filter (· ≠ t) := by
    intro l u hne hu
    rw [List.mem_filter, decide_eq_true_iff]
    exact ⟨hu, hne⟩
  refine ⟨h.lists.unregister, h.words.unregister hout, h.gpHeld, h.registryHeld, ?_⟩
  refine h.calls.leave (fun u hu => Function.update_of_ne hu _ _) (hstay _) (hstay _)
    (fun w => ?_) ?_
  · exact placeLists_of_not_hasRegistry (h.not_hasRegistry hfree w) _ _
  · rintro ⟨hsnap, hqs⟩
    rw [hsnap, hqs]
    exact ⟨rfl, rfl⟩

theorem inv_loadGp (h : s.Inv) (hs : urcuStep s (.loadGp t) = some s') : s'.Inv := by
  simp only [urcuStep, Option.ite_none_right_eq_some, Option.some.injEq] at hs
  obtain ⟨⟨hreg, -, hnest⟩, rfl⟩ := hs
  refine ⟨h.lists, ?_, h.gpHeld, h.registryHeld, h.calls⟩
  refine { h.words with loaded := fun u v hu => ?_ }
  change Function.update s.lock t (.loaded s.gpCtr) u = .loaded v at hu
  by_cases hut : u = t
  · rw [hut, Function.update_self, LockPc.loaded.injEq] at hu
    rw [hut, ← hu]
    exact ⟨hreg, hnest, h.words.gp⟩
  · rw [Function.update_of_ne hut] at hu
    exact h.words.loaded u v hu

theorem inv_storeCtr (h : s.Inv) (hs : urcuStep s (.storeCtr t) = some s') : s'.Inv := by
  simp only [urcuStep] at hs
  split at hs
  · next v hv =>
      cases hs
      obtain ⟨hreg, hnest, phase, rfl⟩ := h.words.loaded t v hv
      have hclosed : t ∉ s.sections := fun ht => (h.words.mem_sections t).mp ht hnest
      have hwords : WordsInv s.gpCtr s.ctr s.registered (Function.update s.lock t .out)
          s.sections := by
        refine { h.words with loaded := fun u v hu => ?_ }
        by_cases hut : u = t
        · rw [hut, Function.update_self] at hu
          cases hu
        · rw [Function.update_of_ne hut] at hu
          exact h.words.loaded u v hu
      refine ⟨h.lists, ?_, h.gpHeld, h.registryHeld, ?_⟩
      · refine hwords.store hreg (Function.update_self ..) ?_ fun u hu => ?_
        · exact iff_of_true (List.mem_cons_self ..) (by decide)
        · rw [List.mem_cons, or_iff_right hu]
      · exact h.calls.setCtr (fun u => List.mem_cons_of_mem _) fun ht => absurd ht hclosed
  · cases hs

omit [DecidableEq W] in
/-- The depth of an open section changes and stays above zero. -/
theorem UrcuState.Inv.setDepth (h : s.Inv) {phase : Bool} {depth depth' : BitVec 32}
    (hreg : s.registered t = true) (hout : s.lock t = .out) (hctr : s.ctr t = ctrOf phase depth)
    (hopen : t ∈ s.sections) (hdepth : depth' ≠ 0) :
    { s with ctr := Function.update s.ctr t (ctrOf phase depth') : UrcuState T W }.Inv := by
  refine ⟨h.lists, ?_, h.gpHeld, h.registryHeld, ?_⟩
  · exact h.words.store hreg hout (iff_of_true hopen hdepth) fun u _ => Iff.rfl
  · refine h.calls.setCtr (fun u => id) fun _ => ?_
    obtain ⟨p, hp⟩ := h.words.gp
    rw [hctr, hp, SamePhase, SamePhase, ctrOf_xor_and_phase, ctrOf_xor_and_phase]

theorem inv_nest (h : s.Inv) (hG : DepthInRange s (.nest t))
    (hs : urcuStep s (.nest t) = some s') : s'.Inv := by
  simp only [urcuStep, Option.ite_none_right_eq_some, Option.some.injEq] at hs
  obtain ⟨⟨hout, hnest⟩, rfl⟩ := hs
  have hopen := (h.words.mem_sections t).mpr hnest
  obtain ⟨phase, depth, hctr⟩ := h.words.word t
  have hmax : depth ≠ BitVec.allOnes 32 := by
    rintro rfl
    rw [DepthInRange, hctr] at hG
    apply hG
    cases phase <;> decide
  rw [hctr, ctrOf_add_count phase hmax]
  refine h.setDepth (h.registered_of_open hopen) hout hctr hopen fun hzero => hmax ?_
  have hlast : depth = 0 - 1 := by rw [← hzero, BitVec.add_sub_cancel]
  rw [hlast]
  decide

theorem inv_unlock (h : s.Inv) (hs : urcuStep s (.unlock t) = some s') : s'.Inv := by
  simp only [urcuStep, Option.ite_none_right_eq_some, Option.some.injEq] at hs
  obtain ⟨⟨hout, hnest⟩, rfl⟩ := hs
  have hopen := (h.words.mem_sections t).mpr hnest
  have hreg := h.registered_of_open hopen
  obtain ⟨phase, depth, hctr⟩ := h.words.word t
  have hdepth : depth ≠ 0 := by rwa [hctr, ne_eq, ctrOf_and_nestMask] at hnest
  rw [hctr, ctrOf_sub_count phase hdepth]
  split_ifs with hlast
  · -- the outermost section ends
    rw [ctrOf_and_nestMask] at hlast
    refine ⟨h.lists, ?_, h.gpHeld, h.registryHeld, ?_⟩
    · refine h.words.store hreg hout ?_ fun u hu => ?_
      · exact iff_of_false (by simp [UrcuState.leave]) (not_not.mpr hlast)
      · simp [UrcuState.leave, hu]
    · exact h.calls.leave (fun u hu => Function.update_of_ne hu _ _) (fun u _ => id) (fun u _ => id)
        h.calls.place id
  · rw [ctrOf_and_nestMask] at hlast
    exact h.setDepth hreg hout hctr hopen hlast

end Readers

/-! ## Callers of `synchronize_rcu` -/

section Callers

variable {T W : Type*} {s s' : UrcuState T W} {t : T} {w : W}

theorem SyncPc.hasLists_of_not_hasGp {pc : SyncPc T} (h : pc.hasGp = false) :
    pc.hasLists = false := by
  cases pc <;> first | rfl | cases h

theorem SyncPc.eq_of_not_hasGp {pc : SyncPc T} (h : pc.hasGp = false) : pc = .idle ∨ pc = .called := by
  cases pc <;> first | exact .inl rfl | exact .inr rfl | cases h

/-- The three lists are rearranged. -/
theorem ListsInv.perm {registered : T → Bool} {registry registry' curSnap curSnap' qs qs' : List T}
    (h : ListsInv registered registry curSnap qs)
    (hperm : (registry ++ curSnap ++ qs).Perm (registry' ++ curSnap' ++ qs')) :
    ListsInv registered registry' curSnap' qs' :=
  ⟨hperm.nodup_iff.mp h.nodup, fun t => (h.mem_iff t).trans hperm.mem_iff⟩

/-- The open sections of a state in which no call has readers on its lists are those of
    registered threads. -/
theorem UrcuState.Inv.mem_registry (h : s.Inv) (hquiet : ∀ w, (s.sync w).hasLists = false)
    (ht : t ∈ s.sections) : t ∈ s.registry := by
  obtain ⟨hsnap, hqs⟩ := h.calls.quiet hquiet
  have hmem := (h.lists.mem_iff t).mp (h.registered_of_open ht)
  rwa [hsnap, hqs, List.append_nil, List.append_nil] at hmem

/-- Who holds `rcu_gp_lock` is alone with it. -/
theorem UrcuState.Inv.others (h : s.Inv) (hw : (s.sync w).hasGp = true) {w' : W} (hne : w' ≠ w) :
    (s.sync w').hasGp = false := by
  by_contra hno
  exact hne (h.gpHeld.eq_of_inside ((h.gpHeld w).mpr hw) (by simpa using hno))

/-- The others have nothing on their lists. -/
theorem UrcuState.Inv.quiet (h : s.Inv) (hgp : (s.sync w).hasGp = true)
    (hlists : (s.sync w).hasLists = false) (w' : W) : (s.sync w').hasLists = false := by
  by_cases hw : w' = w
  · rw [hw]
    exact hlists
  · exact SyncPc.hasLists_of_not_hasGp (h.others hgp hw)

theorem UrcuState.Inv.nodup_inputReaders (h : s.Inv) (second : Bool) :
    (s.inputReaders second).Nodup := by
  have hnodup := List.nodup_append.mp (List.nodup_append.mp h.lists.nodup).1
  cases second
  · exact hnodup.1
  · exact hnodup.2.1

theorem awaited_waiting {gpCtr : BitVec 64} {ctr : T → BitVec 64} {registry curSnap todo : List T}
    {second : Bool} : Awaited gpCtr ctr registry curSnap (.waiting second) t ↔
      Awaited gpCtr ctr registry curSnap (.scanning second todo) t := by
  cases second <;> exact Iff.rfl

variable [DecidableEq W]

theorem pc_of_ne {sync : W → SyncPc T} {pc : SyncPc T} (f : SyncPc T → Bool) (w' : W)
    (hne : w' ≠ w) : f (Function.update sync w pc w') = true ↔ f (sync w') = true := by
  rw [Function.update_of_ne hne]

/-- The call that holds `rcu_gp_lock`, or takes it, moves on: the others read neither the lists nor
    the phase. -/
theorem CallsInv.moveTo {gpCtr gpCtr' : BitVec 64} {ctr : T → BitVec 64}
    {registry registry' curSnap curSnap' qs qs' : List T} {sync : W → SyncPc T}
    {sections : List T} {owed : W → List T} {pc : SyncPc T}
    (h : CallsInv gpCtr ctr registry curSnap qs sync sections owed)
    (hothers : ∀ w', w' ≠ w → (sync w').hasGp = false)
    (hawaited : ∀ t ∈ owed w, Awaited gpCtr' ctr registry' curSnap' pc t)
    (hplace : PlaceLists registry' curSnap' pc)
    (hquiet : pc.hasLists = false → curSnap' = [] ∧ qs' = []) :
    CallsInv gpCtr' ctr registry' curSnap' qs' (Function.update sync w pc) sections owed := by
  refine ⟨h.open_of_owed, fun w' t ht => ?_, fun w' => ?_, fun hno => hquiet ?_⟩
  · by_cases hw : w' = w
    · subst hw
      rw [Function.update_self]
      exact hawaited t ht
    · rw [Function.update_of_ne hw]
      have haw := h.awaited w' t ht
      rcases SyncPc.eq_of_not_hasGp (hothers w' hw) with hpc | hpc
      · rw [hpc] at haw
        exact haw.elim
      · rw [hpc]
        trivial
  · by_cases hw : w' = w
    · rw [hw, Function.update_self]
      exact hplace
    · rw [Function.update_of_ne hw]
      rcases SyncPc.eq_of_not_hasGp (hothers w' hw) with hpc | hpc <;> rw [hpc] <;> trivial
  · have hself := hno w
    rwa [Function.update_self] at hself

variable [DecidableEq T]

omit [DecidableEq W] in
theorem perm_cons_filter {l : List T} (hnodup : l.Nodup) (ht : t ∈ l) :
    l.Perm (t :: l.filter (· ≠ t)) := by
  refine (List.perm_ext_iff_of_nodup hnodup ?_).mpr fun u => ?_
  · exact List.nodup_cons.mpr ⟨by simp, hnodup.filter _⟩
  · by_cases hu : u = t
    · simp [hu, ht]
    · simp [hu]

omit [DecidableEq W] in
/-- `cds_list_move` out of the list that is emptied. -/
theorem UrcuState.Inv.unlink (h : s.Inv) {second : Bool} (ht : t ∈ s.inputReaders second) :
    ((s.registry ++ s.curSnapReaders) ++ s.qsreaders).Perm
      (t :: (((s.unlink second t).registry ++ (s.unlink second t).curSnapReaders) ++
        s.qsreaders)) := by
  have hnodup := (List.nodup_append.mp h.lists.nodup).1
  cases second with
  | false =>
      have hperm := perm_cons_filter (List.nodup_append.mp hnodup).1 ht
      exact (hperm.append_right s.curSnapReaders).append_right s.qsreaders
  | true =>
      have hperm := perm_cons_filter (List.nodup_append.mp hnodup).2.1 ht
      exact ((hperm.append_left s.registry).trans List.perm_middle).append_right s.qsreaders

theorem readerState_inactive {ctr gpCtr : BitVec 64} (h : readerState ctr gpCtr = .inactive) :
    ctr &&& gpCtrNestMask = 0 := by
  unfold readerState at h
  split_ifs at h with hnest
  exact hnest

theorem readerState_activeCurrent {ctr gpCtr : BitVec 64}
    (h : readerState ctr gpCtr = .activeCurrent) : SamePhase ctr gpCtr := by
  unfold readerState at h
  split_ifs at h with hnest hphase
  exact hphase

omit [DecidableEq T] in
/-- The call holds both locks and stays where it holds them. -/
theorem UrcuState.Inv.scan (h : s.Inv) (hgp : (s.sync w).hasGp = true)
    (hregistry : (s.sync w).hasRegistry = true) {gpCtr : BitVec 64} {registry curSnap qs : List T}
    {pc : SyncPc T} (hgp' : pc.hasGp = true) (hregistry' : pc.hasRegistry = true)
    (hwords : ∃ phase, gpCtr = ctrOf phase 1)
    (hlists : ListsInv s.registered registry curSnap qs)
    (hawaited : ∀ t ∈ s.owed w, Awaited gpCtr s.ctr registry curSnap pc t)
    (hplace : PlaceLists registry curSnap pc)
    (hquiet : pc.hasLists = false → curSnap = [] ∧ qs = []) :
    { s.moveTo w pc with
      gpCtr := gpCtr
      registry := registry
      curSnapReaders := curSnap
      qsreaders := qs : UrcuState T W }.Inv := by
  refine ⟨hlists, { h.words with gp := hwords }, ?_, ?_, ?_⟩
  · refine h.gpHeld.keep (pc_of_ne SyncPc.hasGp) ?_
    simp [UrcuState.moveTo, hgp, hgp']
  · refine h.registryHeld.keep (pc_of_ne SyncPc.hasRegistry) ?_
    simp [UrcuState.moveTo, hregistry, hregistry']
  · exact h.calls.moveTo (fun w' hne => h.others hgp hne) hawaited hplace hquiet

theorem inv_visit {second : Bool} {todo : List T} (h : s.Inv)
    (hpc : s.sync w = .scanning second (t :: todo)) :
    ((s.visit second t).moveTo w (.scanning second todo)).Inv := by
  have hplace := h.calls.place w
  rw [hpc] at hplace
  obtain ⟨hnodup, hinput⟩ := hplace
  rw [List.nodup_cons] at hnodup
  have ht : t ∈ s.inputReaders second := hinput t (List.mem_cons_self ..)
  have hperm := h.unlink ht
  have hgp : (s.sync w).hasGp = true := by rw [hpc]; rfl
  have hregistry : (s.sync w).hasRegistry = true := by rw [hpc]; rfl
  have hawaited : ∀ u ∈ s.owed w, Awaited s.gpCtr s.ctr s.registry s.curSnapReaders
      (.scanning second todo) u := by
    intro u hu
    have haw := h.calls.awaited w u hu
    rw [hpc] at haw
    cases second <;> exact haw
  have hrest : ∀ u ∈ todo, u ≠ t := fun u hu heq => hnodup.1 (heq ▸ hu)
  have hstay : ∀ l : List T, ∀ u, u ≠ t → u ∈ l → u ∈ l.filter (· ≠ t) := by
    intro l u hne hu
    rw [List.mem_filter, decide_eq_true_iff]
    exact ⟨hu, hne⟩
  have htoQs (hnot : ∀ u ∈ s.owed w, u ≠ t) : ({ s.unlink second t with
      qsreaders := t :: s.qsreaders }.moveTo w (.scanning second todo)).Inv := by
    have hlists := h.lists.perm (hperm.trans List.perm_middle.symm)
    have hquiet : (SyncPc.scanning second todo).hasLists ≠ false := Bool.false_ne_true.symm
    cases second with
    | false =>
        refine h.scan hgp hregistry rfl rfl h.words.gp hlists (fun u hu => ?_) ⟨hnodup.2, ?_⟩
          fun hno => absurd hno hquiet
        · exact (hawaited u hu).mono (hstay _ u (hnot u hu)) id Iff.rfl
        · exact fun u hu => hstay _ u (hrest u hu) (hinput u (List.mem_cons_of_mem _ hu))
    | true =>
        refine h.scan hgp hregistry rfl rfl h.words.gp hlists (fun u hu => ?_) ⟨hnodup.2, ?_⟩
          fun hno => absurd hno hquiet
        · exact (hawaited u hu).mono id (hstay _ u (hnot u hu)) Iff.rfl
        · exact fun u hu => hstay _ u (hrest u hu) (hinput u (List.mem_cons_of_mem _ hu))
  unfold UrcuState.visit
  cases hstate : readerState (s.ctr t) s.gpCtr with
  | activeOld =>
      refine h.scan hgp hregistry rfl rfl h.words.gp h.lists hawaited ⟨hnodup.2, ?_⟩
        fun hno => absurd hno Bool.false_ne_true.symm
      exact fun u hu => hinput u (List.mem_cons_of_mem _ hu)
  | inactive =>
      -- a thread that is in no section is nobody's to wait for
      refine htoQs ?_
      rintro u hu rfl
      exact (h.words.mem_sections u).mp (h.calls.open_of_owed w u hu) (readerState_inactive hstate)
  | activeCurrent =>
      have hsame := readerState_activeCurrent hstate
      cases second with
      | true =>
          -- the phase of an awaited section is the one before the flip
          refine htoQs ?_
          rintro u hu rfl
          exact (hawaited u hu).2 hsame
      | false =>
          refine h.scan hgp hregistry rfl rfl h.words.gp ?_ (fun u hu => ?_) ⟨hnodup.2, ?_⟩
            fun hno => absurd hno Bool.false_ne_true.symm
          · exact h.lists.perm (hperm.trans (List.perm_middle.symm.append_right _))
          · by_cases hut : u = t
            · exact .inr ⟨hut ▸ List.mem_cons_self .., hut ▸ hsame⟩
            · exact (hawaited u hu).mono (hstay _ u hut) (List.mem_cons_of_mem _) Iff.rfl
          · exact fun u hu => hstay _ u (hrest u hu) (hinput u (List.mem_cons_of_mem _ hu))

omit [DecidableEq T] in
/-- A call begins with the sections that are open. -/
theorem CallsInv.call {gpCtr : BitVec 64} {ctr : T → BitVec 64} {registry curSnap qs : List T}
    {sync : W → SyncPc T} {sections : List T} {owed : W → List T}
    (h : CallsInv gpCtr ctr registry curSnap qs sync sections owed) (hidle : sync w = .idle) :
    CallsInv gpCtr ctr registry curSnap qs (Function.update sync w .called) sections
      (Function.update owed w sections) := by
  refine ⟨fun w' t ht => ?_, fun w' t ht => ?_, fun w' => ?_, fun hno => h.quiet fun w' => ?_⟩
  all_goals by_cases hw : w' = w
  · rwa [hw, Function.update_self] at ht
  · rw [Function.update_of_ne hw] at ht
    exact h.open_of_owed w' t ht
  · rw [hw, Function.update_self]
    trivial
  · rw [Function.update_of_ne hw] at ht ⊢
    exact h.awaited w' t ht
  · rw [hw, Function.update_self]
    trivial
  · rw [Function.update_of_ne hw]
    exact h.place w'
  · rw [hw, hidle]
    rfl
  · have hself := hno w'
    rwa [Function.update_of_ne hw] at hself

theorem inv_syncCall (h : s.Inv) (hs : urcuStep s (.syncCall w) = some s') : s'.Inv := by
  simp only [urcuStep, Option.ite_none_right_eq_some, Option.some.injEq] at hs
  obtain ⟨hidle, rfl⟩ := hs
  refine ⟨h.lists, h.words, ?_, ?_, h.calls.call hidle⟩
  · refine h.gpHeld.keep (pc_of_ne SyncPc.hasGp) ?_
    simp [UrcuState.moveTo, hidle, SyncPc.hasGp]
  · refine h.registryHeld.keep (pc_of_ne SyncPc.hasRegistry) ?_
    simp [UrcuState.moveTo, hidle, SyncPc.hasRegistry]

omit [DecidableEq T] in
theorem inv_lockGp (h : s.Inv) (hpc : s.sync w = .called) (hfree : s.gpLock = none) :
    { s.moveTo w .gpLocked with gpLock := some w }.Inv := by
  have hnone : ∀ w', (s.sync w').hasGp = false := by
    intro w'
    by_contra hno
    have hheld := (h.gpHeld w').mpr (by simpa using hno)
    rw [hfree] at hheld
    cases hheld
  refine ⟨h.lists, h.words, ?_, ?_, ?_⟩
  · refine h.gpHeld.acquire hfree (pc_of_ne SyncPc.hasGp) ?_
    simp [UrcuState.moveTo, SyncPc.hasGp]
  · refine h.registryHeld.keep (pc_of_ne SyncPc.hasRegistry) ?_
    simp [UrcuState.moveTo, hpc, SyncPc.hasRegistry]
  · refine h.calls.moveTo (fun w' _ => hnone w') (fun _ _ => trivial) trivial fun _ => ?_
    exact h.calls.quiet fun w' => SyncPc.hasLists_of_not_hasGp (hnone w')

omit [DecidableEq T] in
/-- The call holds `rcu_gp_lock` and takes the registry's. -/
theorem UrcuState.Inv.takeRegistry (h : s.Inv) (hgp : (s.sync w).hasGp = true)
    (hfree : s.registryLock = none) {pc : SyncPc T} (hgp' : pc.hasGp = true)
    (hregistry' : pc.hasRegistry = true)
    (hawaited : ∀ t ∈ s.owed w, Awaited s.gpCtr s.ctr s.registry s.curSnapReaders pc t)
    (hplace : PlaceLists s.registry s.curSnapReaders pc)
    (hquiet : pc.hasLists = false → s.curSnapReaders = [] ∧ s.qsreaders = []) :
    { s.moveTo w pc with registryLock := some w }.Inv := by
  refine ⟨h.lists, h.words, ?_, ?_, ?_⟩
  · refine h.gpHeld.keep (pc_of_ne SyncPc.hasGp) ?_
    simp [UrcuState.moveTo, hgp, hgp']
  · refine h.registryHeld.acquire hfree (pc_of_ne SyncPc.hasRegistry) ?_
    simp [UrcuState.moveTo, hregistry']
  · exact h.calls.moveTo (fun w' hne => h.others hgp hne) hawaited hplace hquiet

omit [DecidableEq T] in
/-- The call holds both locks and gives the registry's up. -/
theorem UrcuState.Inv.giveRegistry (h : s.Inv) (hgp : (s.sync w).hasGp = true)
    (hregistry : (s.sync w).hasRegistry = true) {pc : SyncPc T} (hgp' : pc.hasGp = true)
    (hregistry' : pc.hasRegistry = false)
    (hawaited : ∀ t ∈ s.owed w, Awaited s.gpCtr s.ctr s.registry s.curSnapReaders pc t)
    (hquiet : pc.hasLists = false → s.curSnapReaders = [] ∧ s.qsreaders = []) :
    { s.moveTo w pc with registryLock := none }.Inv := by
  refine ⟨h.lists, h.words, ?_, ?_, ?_⟩
  · refine h.gpHeld.keep (pc_of_ne SyncPc.hasGp) ?_
    simp [UrcuState.moveTo, hgp, hgp']
  · refine h.registryHeld.release hregistry (pc_of_ne SyncPc.hasRegistry) ?_
    simp [UrcuState.moveTo, hregistry']
  · exact h.calls.moveTo (fun w' hne => h.others hgp hne) hawaited
      (placeLists_of_not_hasRegistry hregistry' _ _) hquiet

omit [DecidableEq T] in
theorem inv_lockRegistry (h : s.Inv) (hpc : s.sync w = .gpLocked) (hfree : s.registryLock = none) :
    { s.moveTo w (if s.registry = [] then .leaving else .scanning false s.registry) with
      registryLock := some w }.Inv := by
  have hgp : (s.sync w).hasGp = true := by rw [hpc]; rfl
  have hquiet : ∀ w', (s.sync w').hasLists = false := h.quiet hgp (by rw [hpc]; rfl)
  have hreg : ∀ t ∈ s.owed w, t ∈ s.registry := fun t ht =>
    h.mem_registry hquiet (h.calls.open_of_owed w t ht)
  split_ifs with hnil
  · refine h.takeRegistry hgp hfree rfl rfl (fun t ht => ?_) trivial fun _ => h.calls.quiet hquiet
    exact absurd hnil (List.ne_nil_of_mem (hreg t ht))
  · refine h.takeRegistry hgp hfree rfl rfl (fun t ht => .inl (hreg t ht)) ⟨?_, fun t ht => ht⟩
      fun _ => h.calls.quiet hquiet
    exact h.nodup_inputReaders false

omit [DecidableEq T] in
/-- The list is empty: the wait is over. -/
theorem inv_endWait {second : Bool} (h : s.Inv) (hpc : s.sync w = .scanning second [])
    (hempty : s.inputReaders second = []) :
    (s.moveTo w (if second then .splicing else .flipping)).Inv := by
  have hgp : (s.sync w).hasGp = true := by rw [hpc]; rfl
  have hregistry : (s.sync w).hasRegistry = true := by rw [hpc]; rfl
  have hawaited := h.calls.awaited w
  rw [hpc] at hawaited
  have hlists : ∀ {P : Prop}, true = false → P := fun hno => absurd hno.symm Bool.false_ne_true
  cases second with
  | false =>
      have hnil : s.registry = [] := hempty
      refine h.scan hgp hregistry rfl rfl h.words.gp h.lists (fun t ht => ?_) hnil hlists
      have haw : t ∈ s.registry ∨ _ := hawaited t ht
      rw [hnil] at haw
      exact haw.resolve_left List.not_mem_nil
  | true =>
      have hnil : s.curSnapReaders = [] := hempty
      refine h.scan hgp hregistry rfl rfl h.words.gp h.lists (fun t ht => ?_) hnil hlists
      have haw := (hawaited t ht).1
      rw [hnil] at haw
      exact absurd haw List.not_mem_nil

omit [DecidableEq T] in
/-- The phase is flipped: a section that had the old phase has not the new one. -/
theorem inv_flip (h : s.Inv) (hpc : s.sync w = .flipping) :
    { s.moveTo w (.scanning true s.curSnapReaders) with gpCtr := s.gpCtr ^^^ gpCtrPhase }.Inv := by
  have hgp : (s.sync w).hasGp = true := by rw [hpc]; rfl
  have hregistry : (s.sync w).hasRegistry = true := by rw [hpc]; rfl
  have hawaited := h.calls.awaited w
  rw [hpc] at hawaited
  obtain ⟨p, hp⟩ := h.words.gp
  refine h.scan hgp hregistry rfl rfl ⟨!p, ?_⟩ h.lists (fun t ht => ?_)
    ⟨h.nodup_inputReaders true, fun t ht => ht⟩ fun hno => absurd hno.symm Bool.false_ne_true
  · rw [hp, ctrOf_xor_phase]
  · obtain ⟨hsnap, hsame⟩ := hawaited t ht
    refine ⟨hsnap, ?_⟩
    obtain ⟨q, n, hq⟩ := h.words.word t
    rw [hp, hq, SamePhase, ctrOf_xor_and_phase] at hsame
    rw [hp, hq, SamePhase, ctrOf_xor_phase, ctrOf_xor_and_phase, hsame]
    cases p <;> decide

omit [DecidableEq T] in
theorem inv_splice (h : s.Inv) (hpc : s.sync w = .splicing) :
    { s.moveTo w .leaving with registry := s.qsreaders ++ s.registry, qsreaders := [] }.Inv := by
  have hgp : (s.sync w).hasGp = true := by rw [hpc]; rfl
  have hregistry : (s.sync w).hasRegistry = true := by rw [hpc]; rfl
  have hawaited := h.calls.awaited w
  have hplace := h.calls.place w
  rw [hpc] at hawaited hplace
  have hsnap : s.curSnapReaders = [] := hplace
  refine h.scan hgp hregistry rfl rfl h.words.gp (h.lists.perm ?_) hawaited trivial
    fun _ => ⟨hsnap, rfl⟩
  change (s.registry ++ s.curSnapReaders ++ s.qsreaders).Perm
    (s.qsreaders ++ s.registry ++ s.curSnapReaders ++ [])
  rw [hsnap, List.append_nil, List.append_nil, List.append_nil]
  exact List.perm_append_comm

omit [DecidableEq T] in
theorem inv_unlockGp (h : s.Inv) (hpc : s.sync w = .unlocking) :
    { s.moveTo w .idle with gpLock := none }.Inv := by
  have hgp : (s.sync w).hasGp = true := by rw [hpc]; rfl
  have hawaited := h.calls.awaited w
  rw [hpc] at hawaited
  refine ⟨h.lists, h.words, ?_, ?_, ?_⟩
  · refine h.gpHeld.release hgp (pc_of_ne SyncPc.hasGp) ?_
    simp [UrcuState.moveTo, SyncPc.hasGp]
  · refine h.registryHeld.keep (pc_of_ne SyncPc.hasRegistry) ?_
    simp [UrcuState.moveTo, hpc, SyncPc.hasRegistry]
  · refine h.calls.moveTo (fun w' hne => h.others hgp hne) hawaited trivial fun _ => ?_
    exact h.calls.quiet (h.quiet hgp (by rw [hpc]; rfl))

theorem inv_syncNext (h : s.Inv) (hs : s.syncNext w = some s') : s'.Inv := by
  unfold UrcuState.syncNext at hs
  split at hs <;> rename_i hpc
  · cases hs
  · simp only [Option.ite_none_right_eq_some, Option.some.injEq] at hs
    obtain ⟨hfree, rfl⟩ := hs
    exact inv_lockGp h hpc hfree
  · simp only [Option.ite_none_right_eq_some, Option.some.injEq] at hs
    obtain ⟨hfree, rfl⟩ := hs
    exact inv_lockRegistry h hpc hfree
  · cases hs
    exact inv_visit h hpc
  · rename_i second
    by_cases hempty : s.inputReaders second = []
    · rw [if_pos hempty] at hs
      cases hs
      exact inv_endWait h hpc hempty
    · rw [if_neg hempty] at hs
      cases hs
      refine h.giveRegistry (by rw [hpc]; rfl) (by rw [hpc]; rfl) rfl rfl (fun t ht => ?_)
        fun hno => absurd hno.symm Bool.false_ne_true
      exact awaited_waiting.mpr (hpc ▸ h.calls.awaited w t ht)
  · simp only [Option.ite_none_right_eq_some, Option.some.injEq] at hs
    obtain ⟨hfree, rfl⟩ := hs
    refine h.takeRegistry (by rw [hpc]; rfl) hfree rfl rfl (fun t ht => ?_)
      ⟨h.nodup_inputReaders _, fun t ht => ht⟩ fun hno => absurd hno.symm Bool.false_ne_true
    exact awaited_waiting.mp (hpc ▸ h.calls.awaited w t ht)
  · cases hs
    exact inv_flip h hpc
  · cases hs
    exact inv_splice h hpc
  · cases hs
    have hgp : (s.sync w).hasGp = true := by rw [hpc]; rfl
    refine h.giveRegistry hgp (by rw [hpc]; rfl) rfl rfl (fun t ht => ?_)
      fun _ => h.calls.quiet (h.quiet hgp (by rw [hpc]; rfl))
    have haw := h.calls.awaited w t ht
    rw [hpc] at haw
    exact haw
  · cases hs
    exact inv_unlockGp h hpc

theorem inv_urcuStep {a : UrcuAct T W} (h : s.Inv) (hG : DepthInRange s a)
    (hs : urcuStep s a = some s') : s'.Inv := by
  cases a with
  | register t => exact inv_register h hs
  | unregister t => exact inv_unregister h hs
  | loadGp t => exact inv_loadGp h hs
  | storeCtr t => exact inv_storeCtr h hs
  | nest t => exact inv_nest h hG hs
  | unlock t => exact inv_unlock h hs
  | syncCall w => exact inv_syncCall h hs
  | syncNext w => exact inv_syncNext h hs

end Callers

end NomosRt.Rcu
