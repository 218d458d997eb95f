/-
  NomosRt.Lib.Decimal

  Decimal numerals as bytes: `std::to_string` of a length, and `atoi`.

  `atoi` is `(int) strtol(s, NULL, 10)`: white space, a sign, digits up to the first
  byte that is none, held to the range of `long` and then cut to `int`.  What
  `to_string` writes `atoi` reads back, for lengths that an `int` holds.
-/

import NomosRt.Lib.CString

namespace NomosRt.Lib

/-- `std::to_string`. -/
def decimal (n : Nat) : List Byte := ascii (toString n)

/-- `isspace` in the "C" locale. -/
def isSpaceByte (c : Byte) : Bool := c = 0x20 ∨ 0x09 ≤ c ∧ c ≤ 0x0D

/-- `isdigit`. -/
def isDecimal (c : Byte) : Bool := 0x30 ≤ c ∧ c ≤ 0x39

/-- The number in front of a text. -/
def digitsValue (s : List Byte) : Nat :=
  (s.takeWhile isDecimal).foldl (fun n c => 10 * n + (c.toNat - 48)) 0

/-- `strtol(s, NULL, 10)`; `long` has 64 bits. -/
def strtol (s : List Byte) : Int :=
  let value : Int :=
    match s.dropWhile isSpaceByte with
    | 0x2D :: t => -digitsValue t
    | 0x2B :: t => digitsValue t
    | t => digitsValue t
  max (-2 ^ 63) (min (2 ^ 63 - 1) value)

/-- `atoi`. -/
def atoi (s : List Byte) : Int := (BitVec.ofInt 32 (strtol s)).toInt

/-- The bytes of a digit. -/
theorem isDecimal_ofNat {c : Char} (h : c.isDigit = true) :
    isDecimal (BitVec.ofNat 8 c.toNat) = true ∧ (BitVec.ofNat 8 c.toNat).toNat = c.toNat := by
  have hrange : 48 ≤ c.toNat ∧ c.toNat ≤ 57 := Char.isDigit_iff_toNat.mp h
  have hnat : (BitVec.ofNat 8 c.toNat).toNat = c.toNat := by
    rw [BitVec.toNat_ofNat]
    omega
  refine ⟨?_, hnat⟩
  simp only [isDecimal, decide_eq_true_eq, BitVec.le_def, hnat]
  exact hrange

theorem isDecimal_of_mem_decimal {n : Nat} {c : Byte} (h : c ∈ decimal n) : isDecimal c = true := by
  obtain ⟨d, hd, rfl⟩ := List.mem_map.mp h
  rw [Nat.toString_eq_repr, Nat.toList_repr] at hd
  exact (isDecimal_ofNat (Nat.isDigit_of_mem_toDigits (by decide) (by decide) hd)).1

theorem decimal_ne_nil (n : Nat) : decimal n ≠ [] := by
  rw [decimal, ascii, Nat.toString_eq_repr, Nat.toList_repr]
  simp

/-- The digits of a number have its value. -/
theorem foldl_decimal (n : Nat) :
    (decimal n).foldl (fun n c => 10 * n + (c.toNat - 48)) 0 = n := by
  have hfold : ∀ (l : List Char), (∀ c ∈ l, c.isDigit = true) → ∀ init,
      (l.map fun c => BitVec.ofNat 8 c.toNat).foldl (fun n c => 10 * n + (c.toNat - 48)) init =
        Nat.ofDigitChars 10 l init := by
    intro l hl
    induction l with
    | nil => intro init; rfl
    | cons c l ih =>
        intro init
        rw [List.map_cons, List.foldl_cons, ih fun d hd => hl d (List.mem_cons_of_mem _ hd),
          (isDecimal_ofNat (hl c (List.mem_cons_self ..))).2]
        rfl
  rw [decimal, ascii, Nat.toString_eq_repr, Nat.toList_repr,
    hfold _ fun c hc => Nat.isDigit_of_mem_toDigits (by decide) (by decide) hc]
  exact Nat.ofDigitChars_ten_toDigits

theorem digitsValue_decimal (n : Nat) {rest : List Byte}
    (hrest : rest.head?.map isDecimal ≠ some true) : digitsValue (decimal n ++ rest) = n := by
  have hstop : rest.takeWhile isDecimal = [] := by
    cases rest with
    | nil => rfl
    | cons c rest =>
        have hc : isDecimal c ≠ true := by simpa using hrest
        exact List.takeWhile_cons_of_neg hc
  rw [digitsValue, List.takeWhile_append_of_pos fun c hc => isDecimal_of_mem_decimal hc, hstop,
    List.append_nil, foldl_decimal]

/-- `atoi` reads a length back, behind white space and up to the first byte that is no digit. -/
theorem atoi_decimal {n : Nat} (hn : n < 2 ^ 31) {blank rest : List Byte}
    (hblank : ∀ c ∈ blank, isSpaceByte c = true) (hrest : rest.head?.map isDecimal ≠ some true) :
    atoi (blank ++ (decimal n ++ rest)) = n := by
  obtain ⟨c, t, hc⟩ := List.exists_cons_of_ne_nil (decimal_ne_nil n)
  have hdigit : isDecimal c = true := isDecimal_of_mem_decimal (hc ▸ List.mem_cons_self ..)
  have hrange : 0x30 ≤ c ∧ c ≤ 0x39 := by simpa [isDecimal] using hdigit
  have hdrop : (blank ++ (decimal n ++ rest)).dropWhile isSpaceByte = decimal n ++ rest := by
    rw [List.dropWhile_append_of_pos hblank, hc, List.cons_append]
    refine List.dropWhile_cons_of_neg ?_
    simp only [isSpaceByte, decide_eq_true_eq]
    bv_omega
  have hvalue : strtol (blank ++ (decimal n ++ rest)) = n := by
    have hread := digitsValue_decimal n hrest
    rw [strtol, hdrop]
    rw [hc, List.cons_append] at hread ⊢
    split
    · next heq =>
        have hbad : c = 0x2D := (List.cons.inj heq).1
        rw [hbad] at hrange
        exact absurd hrange (by decide)
    · next heq =>
        have hbad : c = 0x2B := (List.cons.inj heq).1
        rw [hbad] at hrange
        exact absurd hrange (by decide)
    · rw [hread]
      omega
  rw [atoi, hvalue, BitVec.toInt_ofInt, Int.bmod_def]
  omega

end NomosRt.Lib
