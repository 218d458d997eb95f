/-
  NomosRt.Lib.CString

  NUL-terminated byte strings inside a bounded buffer, and the rounding of a
  length up to a multiple of four in the two spellings that byte-level code
  uses.
-/

import NomosRt.Lib.Words

namespace NomosRt.Lib

/-- The bytes of an ASCII literal. -/
def ascii (s : String) : List Byte := s.toList.map fun c => BitVec.ofNat 8 c.toNat

/-- `strnlen`: bytes before the first NUL, or all of them. -/
def strnlen (buf : List Byte) : Nat := (buf.takeWhile (· != 0)).length

/-- `(n + 3) & ~3`. -/
def pad4 (n : Nat) : Nat := (n + 3) / 4 * 4

/-- A terminated string is measured up to its terminator. -/
theorem strnlen_append {s : List Byte} (hs : 0 ∉ s) {pad : List Byte} (hpad : pad.head? = some 0)
    (rest : List Byte) : strnlen (s ++ (pad ++ rest)) = s.length := by
  obtain ⟨tail, rfl⟩ : ∃ tail, pad = 0 :: tail := by
    cases pad with
    | nil => cases hpad
    | cons b tail =>
        rw [List.head?_cons, Option.some.injEq] at hpad
        exact ⟨tail, by rw [hpad]⟩
  have hall : ∀ b ∈ s, (b != 0) = true := by
    intro b hb
    rw [bne_iff_ne]
    rintro rfl
    exact hs hb
  rw [strnlen, List.takeWhile_append_of_pos hall]
  simp

/-- A length with room for a terminator, rounded up, in both spellings. -/
theorem pad4_succ (n : Nat) : pad4 (n + 1) = (n / 4 + 1) * 4 := by
  unfold pad4
  omega

theorem lt_pad4_succ (n : Nat) : n < pad4 (n + 1) := by
  unfold pad4
  omega

end NomosRt.Lib
