/-
  NomosRt.Control.Uuid

  `parse_uuid` (src/rt_control_thread.cpp), which reads the id of a log entry.

  `parseUuid` of `Control.Session` says what the function returns.  Here its loop is
  written again over the two indices it keeps, with every character it reads and every
  byte it writes recorded, and shown to return the same.  The text index moves on by one
  at a hyphen and by two otherwise, and `s[i + 1]` is read without a test; at the last
  character that is the NUL behind the text.

  A hyphen is skipped wherever a byte may begin, not only where the canonical text has
  one.
-/

import NomosRt.Control.Session

namespace NomosRt.Control

open NomosRt.Lib

/-! ## The loop over indices -/

/-- A character of the text that is read, or a byte of the array that is written. -/
inductive UuidAccess where
  | read (i : Nat)
  | write (bi : Nat)
  deriving DecidableEq, Repr

/-- The byte that is written. -/
def UuidAccess.written : UuidAccess → Option Nat
  | .read _ => none
  | .write bi => some bi

/-- The locals of `parse_uuid`. -/
structure UuidLocals where
  i : Nat
  bi : Nat
  bytes : List Byte
  deriving DecidableEq, Repr

/-- `s[i]`; a NUL stands at `s[s.size()]`. -/
def charAt (s : List Byte) (i : Nat) : Byte := (s ++ [0]).getD i 0

def uuidTest (l : UuidLocals) : Bool := l.i < 36 && l.bi < 16

/-- A round of the loop.  Behind the test for a hyphen `s[i]` is read again. -/
def uuidBody (s : List Byte) (l : UuidLocals) : List UuidAccess × UuidLocals :=
  if charAt s l.i = 0x2D then ([.read l.i], { l with i := l.i + 1 })
  else
    ([.read l.i, .read l.i, .read (l.i + 1), .write l.bi],
      ⟨l.i + 2, l.bi + 1,
        l.bytes.set l.bi (hexValue (charAt s l.i) <<< 4 ||| hexValue (charAt s (l.i + 1)))⟩)

/-- `parse_uuid` with what it touches. -/
def parseUuidTraced (fuel : Nat) (s : List Byte) : Option (List UuidAccess × List Byte) :=
  if s.length ≠ 36 then some ([], List.replicate 16 0)
  else
    (Trace.loop uuidTest (uuidBody s) fuel ⟨0, 0, List.replicate 16 0⟩).map
      fun r => (r.1, r.2.bytes)

/-! ## The two loops -/

theorem parseUuidLoop_hyphen {bytes : List Byte} (h : bytes.length < 16) (rest : List Byte) :
    parseUuidLoop (0x2D :: rest) bytes = parseUuidLoop rest bytes := by
  have hroom : ¬ bytes.length ≥ 16 := Nat.not_le.mpr h
  cases rest with
  | nil => exact if_pos (.inr rfl)
  | cons d rest => rw [parseUuidLoop, if_neg hroom, if_pos rfl]

theorem parseUuidLoop_pair {bytes : List Byte} (h : bytes.length < 16) {c : Byte}
    (hc : c ≠ 0x2D) (rest : List Byte) :
    parseUuidLoop (c :: rest) bytes =
      parseUuidLoop (rest.drop 1) (bytes ++ [hexValue c <<< 4 ||| hexValue (rest.headD 0)]) := by
  have hroom : ¬ bytes.length ≥ 16 := Nat.not_le.mpr h
  cases rest with
  | nil =>
      rw [parseUuidLoop, if_neg (not_or.mpr ⟨hroom, hc⟩)]
      rfl
  | cons d rest =>
      rw [parseUuidLoop, if_neg hroom, if_neg hc]
      rfl

theorem parseUuidLoop_full {bytes : List Byte} (h : 16 ≤ bytes.length) (rest : List Byte) :
    parseUuidLoop rest bytes = bytes := by
  match rest with
  | [] => rw [parseUuidLoop]
  | [c] => rw [parseUuidLoop, if_pos (.inl h)]
  | c :: d :: rest => rw [parseUuidLoop, if_pos h]

theorem charAt_of_lt {s : List Byte} {i : Nat} (h : i < s.length) :
    s.drop i = charAt s i :: s.drop (i + 1) := by
  have hget : charAt s i = s[i] := by
    rw [charAt, List.getD_append _ _ _ _ h, List.getD_eq_getElem _ _ h]
  rw [hget]
  exact List.drop_eq_getElem_cons h

/-- Up to the end of the text a character is the first of what is left, or the NUL. -/
theorem charAt_of_le {s : List Byte} {i : Nat} (h : i ≤ s.length) :
    charAt s i = (s.drop i).headD 0 := by
  rcases Nat.lt_or_eq_of_le h with hlt | rfl
  · rw [charAt_of_lt hlt]
    rfl
  · rw [charAt, List.getD_append_right _ _ _ _ le_rfl, Nat.sub_self, List.drop_length]
    rfl

/-- What the rounds so far have read and written, and what is left to do. -/
structure UuidInv (s : List Byte) (accesses : List UuidAccess) (l : UuidLocals) : Prop where
  reads : ∀ i, .read i ∈ accesses → i ≤ s.length
  writes : accesses.filterMap UuidAccess.written = List.range l.bi
  bi_le : l.bi ≤ 16
  rest : ∃ done : List Byte, done.length = l.bi ∧
    l.bytes = done ++ List.replicate (16 - l.bi) 0 ∧
    parseUuidLoop (s.drop l.i) done = parseUuidLoop s []

theorem uuidInv_start (s : List Byte) : UuidInv s [] ⟨0, 0, List.replicate 16 0⟩ where
  reads _ hi := absurd hi List.not_mem_nil
  writes := rfl
  bi_le := Nat.zero_le 16
  rest := ⟨[], rfl, rfl, rfl⟩

/-- The byte behind those that are done is the next one. -/
theorem set_next {done : List Byte} {bi : Nat} (hlen : done.length = bi) (hbi : bi < 16) (v : Byte) :
    (done ++ List.replicate (16 - bi) 0).set bi v =
      (done ++ [v]) ++ List.replicate (16 - (bi + 1)) 0 := by
  have hleft : 16 - bi = (16 - (bi + 1)) + 1 := by omega
  rw [hleft, List.replicate_succ, ← hlen, List.set_append_right _ _ le_rfl, Nat.sub_self,
    List.set_cons_zero, List.append_assoc, List.singleton_append]

/-- A round keeps the invariant and moves on in the text. -/
theorem UuidInv.round {s : List Byte} (hs : s.length = 36) {accesses : List UuidAccess}
    {l : UuidLocals} (htest : uuidTest l = true) (h : UuidInv s accesses l) :
    UuidInv s (accesses ++ (uuidBody s l).1) (uuidBody s l).2 ∧
      36 - (uuidBody s l).2.i < 36 - l.i := by
  rw [uuidTest, Bool.and_eq_true, decide_eq_true_iff, decide_eq_true_iff] at htest
  obtain ⟨hi, hbi⟩ := htest
  obtain ⟨done, hlen, hbytes, hrest⟩ := h.rest
  have hin : l.i < s.length := by omega
  have hroom : done.length < 16 := by omega
  have hdrop := charAt_of_lt hin
  rw [hdrop] at hrest
  by_cases hc : charAt s l.i = 0x2D
  -- a hyphen: one character is read and skipped
  · rw [uuidBody, if_pos hc]
    rw [hc, parseUuidLoop_hyphen hroom] at hrest
    refine ⟨⟨?_, ?_, h.bi_le, done, hlen, hbytes, hrest⟩, ?_⟩
    · intro i hmem
      rcases List.mem_append.mp hmem with hmem | hmem
      · exact h.reads i hmem
      · rw [UuidAccess.read.inj (List.mem_singleton.mp hmem)]
        exact Nat.le_of_lt hin
    · rw [List.filterMap_append, h.writes]
      exact List.append_nil _
    · show 36 - (l.i + 1) < 36 - l.i
      omega
  -- a pair: `s[i + 1]` is at most `s[36]`, the terminator, and byte `bi` is the next one
  · rw [uuidBody, if_neg hc]
    rw [parseUuidLoop_pair hroom hc, List.drop_drop, ← charAt_of_le (Nat.succ_le_of_lt hin)] at hrest
    refine ⟨⟨?_, ?_, hbi, done ++ [_], ?_, ?_, hrest⟩, ?_⟩
    · intro i hmem
      rcases List.mem_append.mp hmem with hmem | hmem
      · exact h.reads i hmem
      · simp only [List.mem_cons, List.not_mem_nil, UuidAccess.read.injEq, or_false,
          reduceCtorEq] at hmem
        omega
    · rw [List.filterMap_append, h.writes]
      exact List.range_succ.symm
    · rw [List.length_append, List.length_singleton, hlen]
    · show l.bytes.set l.bi _ = _
      rw [hbytes, set_next hlen hbi]
    · show 36 - (l.i + 2) < 36 - l.i
      omega

/-- Once the loop is left, the array holds the result. -/
theorem UuidInv.result {s : List Byte} (hs : s.length = 36) {accesses : List UuidAccess}
    {l : UuidLocals} (htest : uuidTest l = false) (h : UuidInv s accesses l) :
    l.bytes = parseUuid s := by
  obtain ⟨done, hlen, hbytes, hrest⟩ := h.rest
  have hdone : parseUuidLoop s [] = done := by
    rw [uuidTest, Bool.and_eq_false_iff, decide_eq_false_iff_not, decide_eq_false_iff_not] at htest
    rw [← hrest]
    rcases htest with hi | hbi
    · rw [List.drop_eq_nil_of_le (by omega), parseUuidLoop]
    · exact parseUuidLoop_full (by omega) _
  rw [parseUuid, if_neg (not_not.mpr hs), hdone, hbytes, ← hlen]

/-- The loop is left after 36 rounds at most. -/
theorem parseUuidTraced_eq (s : List Byte) :
    ∃ accesses k, parseUuidTraced 36 s = some (accesses, parseUuid s) ∧
      (∀ i, .read i ∈ accesses → i ≤ s.length) ∧
      accesses.filterMap UuidAccess.written = List.range k ∧ k ≤ 16 := by
  by_cases hs : s.length = 36
  · obtain ⟨accesses, l, hloop, htest, hinv⟩ := Trace.loop_total (fun l => 36 - l.i)
      (fun _ _ htest h => h.round hs htest) (uuidInv_start s) (le_refl 36)
    rw [List.nil_append] at hinv
    refine ⟨accesses, l.bi, ?_, hinv.reads, hinv.writes, hinv.bi_le⟩
    rw [parseUuidTraced, if_neg (not_not.mpr hs), hloop, Option.map_some, hinv.result hs htest]
  · refine ⟨[], 0, ?_, fun i hi => absurd hi List.not_mem_nil, rfl, Nat.zero_le 16⟩
    rw [parseUuidTraced, if_pos hs, parseUuid, if_pos hs]

/-- One hyphen more than the canonical text has leaves a single digit at the end, and the NUL is
    read as the other one. -/
example :
    (parseUuidTraced 36 (List.replicate 5 0x2D ++ List.replicate 31 0x31)).map
      (fun r => decide (.read 36 ∈ r.1)) = some true := by decide

/-! ## The canonical text -/

/-- A digit; letters are written in either case. -/
def hexDigit (upper : Bool) (n : Nat) : Byte :=
  if n < 10 then BitVec.ofNat 8 (0x30 + n)
  else BitVec.ofNat 8 ((if upper then 0x41 else 0x61) + (n - 10))

/-- The digits of bytes from number `k` on; digit `n` of the text is in upper case if `upper n`. -/
def hexText (upper : Nat → Bool) : Nat → List Byte → List Byte
  | _, [] => []
  | k, b :: bs =>
      hexDigit (upper (2 * k)) (b.toNat / 16) :: hexDigit (upper (2 * k + 1)) (b.toNat % 16) ::
        hexText upper (k + 1) bs

/-- `xxxxxxxx-xxxx-xxxx-xxxx-xxxxxxxxxxxx`. -/
def canonicalText (upper : Nat → Bool) (uuid : Vector Byte 16) : List Byte :=
  let digits (k n : Nat) := hexText upper k ((uuid.toList.drop k).take n)
  digits 0 4 ++ 0x2D :: (digits 4 2 ++ 0x2D :: (digits 6 2 ++ 0x2D :: (digits 8 2 ++
    0x2D :: digits 10 6)))

theorem hexValue_hexDigit (upper : Bool) {n : Nat} (hn : n < 16) :
    hexValue (hexDigit upper n) = BitVec.ofNat 8 n := by
  revert upper n
  decide

theorem hexDigit_ne_hyphen (upper : Bool) {n : Nat} (hn : n < 16) : hexDigit upper n ≠ 0x2D := by
  revert upper n
  decide

/-- The two digits of a byte. -/
theorem byte_of_digits (b : Byte) :
    BitVec.ofNat 8 (b.toNat / 16) <<< 4 ||| BitVec.ofNat 8 (b.toNat % 16) = b := by
  revert b
  decide

theorem length_hexText (upper : Nat → Bool) (k : Nat) (bs : List Byte) :
    (hexText upper k bs).length = 2 * bs.length := by
  induction bs generalizing k with
  | nil => rfl
  | cons b bs ih =>
      rw [hexText, List.length_cons, List.length_cons, ih, List.length_cons]
      omega

/-- The loop reads the digits of bytes back as the bytes, as long as there is room. -/
theorem parseUuidLoop_hexText (upper : Nat → Bool) (k : Nat) (bs rest : List Byte)
    {bytes : List Byte} (hroom : bytes.length + bs.length ≤ 16) :
    parseUuidLoop (hexText upper k bs ++ rest) bytes = parseUuidLoop rest (bytes ++ bs) := by
  induction bs generalizing k bytes with
  | nil => rw [hexText, List.nil_append, List.append_nil]
  | cons b bs ih =>
      have hb := b.isLt
      have hhigh : b.toNat / 16 < 16 := by omega
      have hlow : b.toNat % 16 < 16 := by omega
      rw [List.length_cons] at hroom
      have hlt : bytes.length < 16 := by omega
      have hnext : (bytes ++ [b]).length + bs.length ≤ 16 := by
        rw [List.length_append, List.length_singleton]
        omega
      rw [hexText, List.cons_append, List.cons_append,
        parseUuidLoop_pair hlt (hexDigit_ne_hyphen _ hhigh)]
      show parseUuidLoop (hexText upper (k + 1) bs ++ rest) (bytes ++
        [hexValue (hexDigit _ (b.toNat / 16)) <<< 4 ||| hexValue (hexDigit _ (b.toNat % 16))]) = _
      rw [hexValue_hexDigit _ hhigh, hexValue_hexDigit _ hlow, byte_of_digits, ih _ hnext,
        List.append_assoc, List.singleton_append]

theorem length_canonicalText (upper : Nat → Bool) (uuid : Vector Byte 16) :
    (canonicalText upper uuid).length = 36 := by
  have hlen : uuid.toList.length = 16 := uuid.length_toList
  simp only [canonicalText, List.length_append, List.length_cons, length_hexText,
    List.length_take, List.length_drop, hlen]
  decide

/-- A group of digits and the hyphen behind it, with the bytes before it read. -/
theorem parseUuidLoop_group (upper : Nat → Bool) {bs : List Byte} (hlen : bs.length = 16) {k n : Nat}
    (hkn : k + n < 16) (rest : List Byte) :
    parseUuidLoop (hexText upper k ((bs.drop k).take n) ++ 0x2D :: rest) (bs.take k) =
      parseUuidLoop rest (bs.take (k + n)) := by
  have hroom : (bs.take k).length + ((bs.drop k).take n).length ≤ 16 := by
    simp only [List.length_take, List.length_drop, hlen]
    omega
  have hlt : (bs.take (k + n)).length < 16 := by
    rw [List.length_take, hlen]
    omega
  rw [parseUuidLoop_hexText upper k _ _ hroom, ← List.take_add, parseUuidLoop_hyphen hlt]

theorem parseUuid_canonicalText (upper : Nat → Bool) (uuid : Vector Byte 16) :
    parseUuid (canonicalText upper uuid) = uuid.toList := by
  have hlen : uuid.toList.length = 16 := uuid.length_toList
  have hroom : (uuid.toList.take 10).length + ((uuid.toList.drop 10).take 6).length ≤ 16 := by
    simp only [List.length_take, List.length_drop, hlen]
    omega
  have hloop : parseUuidLoop (canonicalText upper uuid) (uuid.toList.take 0) = uuid.toList := by
    rw [canonicalText, parseUuidLoop_group upper hlen (by omega),
      parseUuidLoop_group upper hlen (by omega), parseUuidLoop_group upper hlen (by omega),
      parseUuidLoop_group upper hlen (by omega)]
    have hlast := parseUuidLoop_hexText upper 10 _ [] hroom
    rw [List.append_nil, ← List.take_add, parseUuidLoop] at hlast
    refine hlast.trans (List.take_of_length_le ?_)
    rw [hlen]
  rw [List.take_zero] at hloop
  rw [parseUuid, if_neg (not_not.mpr (length_canonicalText upper uuid)), hloop]
  show uuid.toList ++ List.replicate (16 - uuid.toList.length) 0 = _
  rw [hlen, Nat.sub_self, List.replicate_zero, List.append_nil]

/-- `parse_uuid` inverts the canonical text in whatever case its letters are written; on any text
    it ends, reads up to the NUL behind the text at most, and writes the first bytes of the array one
    by one. -/
theorem parse_uuid_inverts_and_is_safe :
    (∀ (upper : Nat → Bool) (uuid : Vector Byte 16),
      parseUuid (canonicalText upper uuid) = uuid.toList) ∧
    ∀ s : List Byte, ∃ accesses k, parseUuidTraced 36 s = some (accesses, parseUuid s) ∧
      (∀ i, .read i ∈ accesses → i ≤ s.length) ∧
      accesses.filterMap UuidAccess.written = List.range k ∧ k ≤ 16 :=
  ⟨parseUuid_canonicalText, parseUuidTraced_eq⟩

/-- An entry with a canonical id is logged under the bytes of the id. -/
theorem txEntry_id_canonical {D : Type*} [CDouble D] {m : List (Edn D × Edn D)}
    {upper : Nat → Bool} {uuid : Vector Byte 16}
    (h : Edn.findKw "id" m = some (.tagged "uuid" (.string (canonicalText upper uuid)))) :
    (txEntry m).id = some uuid.toList := by
  rw [txEntry, h, ← parseUuid_canonicalText upper uuid]
  rfl

end NomosRt.Control
