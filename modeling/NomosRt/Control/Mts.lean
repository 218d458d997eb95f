/-
  NomosRt.Control.Mts

  `msg_mts`: a tuning map into an MTS bulk dump.

  From `semitones` on `mts_encode_note` is read in exact arithmetic.  What comes
  before it (a comparison, `std::pow`, `std::log2`) is an interface, so the dump is
  well formed whatever the frequencies are; `semitones` of a finite positive double
  is far inside the range of `int`.
-/

import Mathlib.Data.List.AList
import Mathlib.Data.List.Induction
import Mathlib.Data.Rat.Floor
import Mathlib.Tactic.Linarith
import NomosRt.Control.Dispatch

namespace NomosRt.Control

open NomosRt.Lib

/-! ## `mts_encode_note` -/

/-- `std::round`: to the nearest integer, halves away from zero. -/
def cround (x : ℚ) : ℤ := if 0 ≤ x then ⌊x + 1 / 2⌋ else ⌈x - 1 / 2⌉

/-- `xx` and `bend_cents` after the borrow. -/
def borrowSemitone (semitones : ℚ) : ℤ × ℚ :=
  let xx := cround semitones
  let bendCents := (semitones - xx) * 100
  if bendCents < 0 then (max 0 (xx - 1), bendCents + 100) else (xx, bendCents)

/-- `mts_encode_note` from `semitones` on. -/
def mtsEncodeSemitones (semitones : ℚ) : Byte × Byte × Byte :=
  let (xx, bendCents) := borrowSemitone semitones
  let xx := max 0 (min 127 xx)
  let fine := (max 0 (min 16383 (cround (bendCents / 100 * 16384)))).toNat
  (BitVec.ofInt 8 xx, BitVec.ofNat 8 ((fine >>> 7) &&& 0x7F), BitVec.ofNat 8 (fine &&& 0x7F))

/-- The pitch a receiver reads from an entry. -/
def pitch (entry : Byte × Byte × Byte) : ℚ :=
  entry.1.toNat + (entry.2.1.toNat * 128 + entry.2.2.toNat) / 16384

/-! ## What is encoded

The borrow makes `xx` the floor of the pitch and `bend_cents` its fraction, on every
input; the clamps then act on the floor alone. -/

section Encoded

variable {s t : ℚ}

/-- Rounding goes to the floor or one above it. -/
theorem cround_cases (s : ℚ) : cround s = ⌊s⌋ ∨ cround s = ⌊s⌋ + 1 := by
  have hlo := Int.floor_le s
  have hhi := Int.lt_floor_add_one s
  unfold cround
  split
  · have h₀ : ⌊s⌋ ≤ ⌊s + 1 / 2⌋ := Int.floor_mono (by linarith)
    have h₁ : ⌊s + 1 / 2⌋ < ⌊s⌋ + 2 := by
      rw [Int.floor_lt]
      push_cast
      linarith
    omega
  · have h₀ : ⌊s⌋ - 1 < ⌈s - 1 / 2⌉ := by
      rw [Int.lt_ceil]
      push_cast
      linarith
    have h₁ : ⌈s - 1 / 2⌉ ≤ ⌊s⌋ + 1 := by
      rw [Int.ceil_le]
      push_cast
      linarith
    omega

theorem cround_nonneg {x : ℚ} (hx : 0 ≤ x) : cround x = ⌊x + 1 / 2⌋ := if_pos hx

/-- After the borrow the bend is the fraction of the pitch and, up to the clamp, the
    semitone its floor. -/
theorem borrowSemitone_eq (s : ℚ) :
    max 0 (min 127 (borrowSemitone s).1) = max 0 (min 127 ⌊s⌋) ∧
      (borrowSemitone s).2 = Int.fract s * 100 := by
  have hlo := Int.floor_le s
  have hhi := Int.lt_floor_add_one s
  have hfract : Int.fract s = s - ⌊s⌋ := rfl
  obtain hdown | hup := cround_cases s
  · have hbend : ¬ (s - cround s) * 100 < 0 := by
      rw [hdown]
      linarith
    rw [borrowSemitone, if_neg hbend, hdown, hfract]
    exact ⟨rfl, rfl⟩
  · have hbend : (s - cround s) * 100 < 0 := by
      rw [hup]
      push_cast
      linarith
    rw [borrowSemitone, if_pos hbend, hup, hfract]
    refine ⟨by simp only; omega, ?_⟩
    simp only
    push_cast
    ring

/-- The fraction in units of 1/16384, as encoded. -/
def fineOf (s : ℚ) : ℤ := min 16383 ⌊Int.fract s * 16384 + 1 / 2⌋

theorem fineOf_nonneg (s : ℚ) : 0 ≤ fineOf s := by
  have hfract := Int.fract_nonneg s
  refine le_min (by decide) (Int.floor_nonneg.mpr ?_)
  linarith

theorem fineOf_le (s : ℚ) : fineOf s ≤ 16383 := min_le_left _ _

/-- The fraction is at least `k` units exactly from the rounding threshold on. -/
theorem le_fineOf_iff {k : ℤ} (hk : k ≤ 16383) :
    k ≤ fineOf s ↔ (2 * k - 1) / 32768 ≤ Int.fract s := by
  rw [fineOf, le_min_iff, Int.le_floor]
  constructor
  · rintro ⟨-, h⟩
    linarith
  · intro h
    exact ⟨hk, by linarith⟩

/-- The three bytes: the clamped floor and the two halves of the fraction. -/
theorem mtsEncodeSemitones_eq (s : ℚ) :
    mtsEncodeSemitones s =
      (BitVec.ofInt 8 (max 0 (min 127 ⌊s⌋)),
        BitVec.ofNat 8 (((fineOf s).toNat >>> 7) &&& 0x7F),
        BitVec.ofNat 8 ((fineOf s).toNat &&& 0x7F)) := by
  obtain ⟨hxx, hbend⟩ := borrowSemitone_eq s
  have hfract : Int.fract s * 100 / 100 * 16384 = Int.fract s * 16384 := by ring
  have hnonneg : 0 ≤ Int.fract s * 16384 := by
    have := Int.fract_nonneg s
    linarith
  have hfine : max 0 (min 16383 (cround (Int.fract s * 16384))) = fineOf s := by
    rw [cround_nonneg hnonneg]
    exact max_eq_right (fineOf_nonneg s)
  simp only [mtsEncodeSemitones, hxx, hbend, hfract, hfine]

/-- The bytes as numbers. -/
theorem mtsEncodeSemitones_toNat (s : ℚ) :
    ((mtsEncodeSemitones s).1.toNat : ℤ) = max 0 (min 127 ⌊s⌋) ∧
      ((mtsEncodeSemitones s).2.1.toNat : ℤ) = fineOf s / 128 ∧
      ((mtsEncodeSemitones s).2.2.toNat : ℤ) = fineOf s % 128 := by
  have h₀ := fineOf_nonneg s
  have h₁ := fineOf_le s
  have hyy : ((fineOf s).toNat >>> 7) &&& 0x7F = (fineOf s).toNat / 128 % 128 := by
    rw [Nat.shiftRight_eq_div_pow]
    exact Nat.and_two_pow_sub_one_eq_mod _ 7
  have hzz : (fineOf s).toNat &&& 0x7F = (fineOf s).toNat % 128 :=
    Nat.and_two_pow_sub_one_eq_mod _ 7
  rw [mtsEncodeSemitones_eq, hyy, hzz]
  refine ⟨?_, ?_, ?_⟩
  · simp only [BitVec.toNat_ofInt]
    omega
  · simp only [BitVec.toNat_ofNat]
    omega
  · simp only [BitVec.toNat_ofNat]
    omega

/-- Every byte of an entry is a data byte. -/
theorem mtsEncodeSemitones_lt (s : ℚ) :
    (mtsEncodeSemitones s).1.toNat < 0x80 ∧ (mtsEncodeSemitones s).2.1.toNat < 0x80 ∧
      (mtsEncodeSemitones s).2.2.toNat < 0x80 := by
  obtain ⟨hxx, hyy, hzz⟩ := mtsEncodeSemitones_toNat s
  have h₀ := fineOf_nonneg s
  have h₁ := fineOf_le s
  omega

/-- The pitch read back: the clamped floor and the fraction. -/
theorem pitch_mtsEncodeSemitones (s : ℚ) :
    pitch (mtsEncodeSemitones s) = (max 0 (min 127 ⌊s⌋) : ℤ) + fineOf s / 16384 := by
  obtain ⟨hxx, hyy, hzz⟩ := mtsEncodeSemitones_toNat s
  have hfine : (mtsEncodeSemitones s).2.1.toNat * 128 + (mtsEncodeSemitones s).2.2.toNat =
      (fineOf s : ℤ) := by
    omega
  rw [pitch, ← hxx, ← hfine]
  push_cast
  ring

/-! ## Nearest, saturating, monotone -/

/-- The highest pitch an entry can hold. -/
def topPitch : ℚ := 127 + 16383 / 16384

/-- The entry of `s` is within a unit of `s` saturated to what an entry can hold. -/
def EncodedNear (s : ℚ) : Prop :=
  |pitch (mtsEncodeSemitones s) - max 0 (min topPitch s)| ≤ 1 / 16384

/-- `s` can be held, or it lies beyond an end and its fraction happens to be next to
    that end. -/
def PitchFits (s : ℚ) : Prop :=
  (0 ≤ s ∧ s < 128) ∨ (s < 0 ∧ Int.fract s < 3 / 32768) ∨
    (128 ≤ s ∧ 32763 / 32768 ≤ Int.fract s)

/-- The clamped semitones are apart, or no rounding threshold has the fraction of `s`
    above it and the fraction of `t` below. -/
def PitchesInOrder (s t : ℚ) : Prop :=
  max 0 (min 127 ⌊s⌋) < max 0 (min 127 ⌊t⌋) ∨
    ∀ k : ℤ, k ≤ 16383 → (2 * k - 1) / 32768 ≤ Int.fract s → (2 * k - 1) / 32768 ≤ Int.fract t

/-- Rounding the fraction is off by half a unit, and by a whole one where it would
    carry into the semitone. -/
theorem fineOf_near (s : ℚ) : |(fineOf s : ℚ) / 16384 - Int.fract s| ≤ 1 / 16384 := by
  have hlt := Int.fract_lt_one s
  rw [abs_le]
  constructor
  · -- a fraction a unit above the entry would have been rounded up
    by_contra hbelow
    have hnext : ¬ fineOf s + 1 ≤ fineOf s := by omega
    by_cases htop : fineOf s + 1 ≤ 16383
    · rw [le_fineOf_iff htop] at hnext
      push_cast at hnext
      linarith
    · have : fineOf s = 16383 := le_antisymm (fineOf_le s) (by omega)
      rw [this] at hbelow
      norm_num at hbelow
      linarith
  · have h := (le_fineOf_iff (fineOf_le s)).mp le_rfl
    linarith

/-- In range the entry is near. -/
theorem encodedNear_of_inRange (h₀ : 0 ≤ s) (h₁ : s < 128) : EncodedNear s := by
  have hfloor₀ : 0 ≤ ⌊s⌋ := Int.floor_nonneg.mpr h₀
  have hfloor₁ : ⌊s⌋ < 128 := Int.floor_lt.mpr (by exact_mod_cast h₁)
  have hclamp : max 0 (min 127 ⌊s⌋) = ⌊s⌋ := by omega
  have hsum := Int.floor_add_fract s
  have hnear := abs_le.mp (fineOf_near s)
  rw [EncodedNear, pitch_mtsEncodeSemitones, hclamp, abs_le]
  by_cases htop : s ≤ topPitch
  · rw [min_eq_right htop, max_eq_right h₀]
    constructor <;> linarith
  · -- above the top pitch the fraction is the largest one
    rw [not_le] at htop
    have htop' : 127 + 16383 / 16384 < s := htop
    have hfloor : ⌊s⌋ = 127 := by
      have : (127 : ℤ) ≤ ⌊s⌋ := Int.le_floor.mpr (by push_cast; linarith)
      omega
    rw [hfloor] at hsum ⊢
    have hfine : fineOf s = 16383 := by
      refine le_antisymm (fineOf_le s) ((le_fineOf_iff le_rfl).mpr ?_)
      push_cast at hsum ⊢
      linarith
    rw [hfine, min_eq_left htop.le, topPitch]
    norm_num

/-- Below the range the semitone is 0, so the fraction is the distance to 0. -/
theorem encodedNear_below (h : s < 0) : EncodedNear s ↔ Int.fract s < 3 / 32768 := by
  have hfloor : ⌊s⌋ < 0 := Int.floor_lt.mpr (by exact_mod_cast h)
  have hclamp : max 0 (min 127 ⌊s⌋) = 0 := by omega
  have hsat : max 0 (min topPitch s) = 0 := max_eq_left ((min_le_right _ _).trans h.le)
  have hnonneg : (0 : ℚ) ≤ fineOf s / 16384 := by
    have : (0 : ℚ) ≤ fineOf s := by exact_mod_cast fineOf_nonneg s
    positivity
  have hunit : (fineOf s : ℚ) / 16384 ≤ 1 / 16384 ↔ fineOf s ≤ 1 := by
    rw [div_le_div_iff_of_pos_right (by norm_num)]
    exact_mod_cast Iff.rfl
  have htwo := le_fineOf_iff (k := 2) (s := s) (by decide)
  rw [EncodedNear, pitch_mtsEncodeSemitones, hclamp, hsat, Int.cast_zero, zero_add, sub_zero,
    abs_of_nonneg hnonneg, hunit, ← not_iff_not, not_lt, show ¬ fineOf s ≤ 1 ↔ 2 ≤ fineOf s by omega,
    htwo]
  norm_num

/-- Above the range the semitone is 127, so what is missing is the distance of the
    fraction from the largest. -/
theorem encodedNear_above (h : 128 ≤ s) : EncodedNear s ↔ 32763 / 32768 ≤ Int.fract s := by
  have hfloor : 128 ≤ ⌊s⌋ := Int.le_floor.mpr (by exact_mod_cast h)
  have hclamp : max 0 (min 127 ⌊s⌋) = 127 := by omega
  have htop : topPitch ≤ s := by
    rw [topPitch]
    linarith
  have hsat : max 0 (min topPitch s) = topPitch := by
    rw [min_eq_left htop, topPitch]
    norm_num
  have hle : (fineOf s : ℚ) ≤ 16383 := by exact_mod_cast fineOf_le s
  have hmissing : ((127 : ℤ) : ℚ) + fineOf s / 16384 - topPitch = -((16383 - fineOf s) / 16384) := by
    rw [topPitch]
    push_cast
    ring
  have hunit : (16383 - (fineOf s : ℚ)) / 16384 ≤ 1 / 16384 ↔ 16382 ≤ fineOf s := by
    rw [div_le_div_iff_of_pos_right (by norm_num), sub_le_comm]
    norm_num
    exact_mod_cast Iff.rfl
  rw [EncodedNear, pitch_mtsEncodeSemitones, hclamp, hsat, hmissing, abs_neg,
    abs_of_nonneg (div_nonneg (by linarith) (by norm_num)), hunit, le_fineOf_iff (by decide)]
  norm_num

theorem encodedNear_iff (s : ℚ) : EncodedNear s ↔ PitchFits s := by
  rcases lt_or_ge s 0 with hneg | h₀
  · rw [encodedNear_below hneg, PitchFits]
    constructor
    · exact fun h => .inr (.inl ⟨hneg, h⟩)
    · rintro (⟨h, -⟩ | ⟨-, h⟩ | ⟨h, -⟩)
      · linarith
      · exact h
      · linarith
  · rcases lt_or_ge s 128 with hlt | h₁
    · exact ⟨fun _ => .inl ⟨h₀, hlt⟩, fun _ => encodedNear_of_inRange h₀ hlt⟩
    · rw [encodedNear_above h₁, PitchFits]
      constructor
      · exact fun h => .inr (.inr ⟨h₁, h⟩)
      · rintro (⟨-, h⟩ | ⟨h, -⟩ | ⟨-, h⟩)
        · linarith
        · linarith
        · exact h

/-- Fractions are encoded in order exactly when no threshold separates them the other
    way round. -/
theorem fineOf_le_iff :
    fineOf s ≤ fineOf t ↔
      ∀ k : ℤ, k ≤ 16383 → (2 * k - 1) / 32768 ≤ Int.fract s →
        (2 * k - 1) / 32768 ≤ Int.fract t := by
  constructor
  · intro hle k hk hs
    exact (le_fineOf_iff hk).mp (((le_fineOf_iff hk).mpr hs).trans hle)
  · intro h
    have hs := (le_fineOf_iff (fineOf_le s)).mp le_rfl
    exact (le_fineOf_iff (fineOf_le s)).mpr (h _ (fineOf_le s) hs)

theorem pitch_le_iff (hst : s ≤ t) :
    pitch (mtsEncodeSemitones s) ≤ pitch (mtsEncodeSemitones t) ↔ PitchesInOrder s t := by
  have hfloor : max 0 (min 127 ⌊s⌋) ≤ max 0 (min 127 ⌊t⌋) := by
    have := Int.floor_mono hst
    omega
  rw [pitch_mtsEncodeSemitones, pitch_mtsEncodeSemitones, PitchesInOrder, ← fineOf_le_iff]
  obtain hlt | heq := hfloor.lt_or_eq
  · -- a whole semitone is more than any two fractions differ by
    have hstep : ((max 0 (min 127 ⌊s⌋) : ℤ) : ℚ) + 1 ≤ (max 0 (min 127 ⌊t⌋) : ℤ) := by
      exact_mod_cast hlt
    have hs : (fineOf s : ℚ) ≤ 16383 := by exact_mod_cast fineOf_le s
    have ht : (0 : ℚ) ≤ fineOf t := by exact_mod_cast fineOf_nonneg t
    refine iff_of_true ?_ (.inl hlt)
    linarith
  · rw [heq, add_le_add_iff_left, div_le_div_iff_of_pos_right (by norm_num), Int.cast_le]
    exact ⟨.inr, fun h => h.resolve_left (lt_irrefl _)⟩

/-- Two pitches are encoded near and in order exactly when both fit and their
    fractions, where they meet in one semitone, are not the wrong way round. -/
theorem mts_encode_note_nearest_iff (s t : ℚ) :
    (EncodedNear s ∧ EncodedNear t ∧
        (s ≤ t → pitch (mtsEncodeSemitones s) ≤ pitch (mtsEncodeSemitones t))) ↔
      PitchFits s ∧ PitchFits t ∧ (s ≤ t → PitchesInOrder s t) := by
  rw [encodedNear_iff, encodedNear_iff]
  exact and_congr_right' (and_congr_right' (forall_congr' pitch_le_iff))

/-- Half a semitone below key 0 comes out half a semitone above it, so it is not near
    0, and it is above the entry of key 0. -/
theorem mts_encode_note_below_range :
    mtsEncodeSemitones (-1 / 2) = (0, 64, 0) ∧ ¬ EncodedNear (-1 / 2) ∧
      ¬ pitch (mtsEncodeSemitones (-1 / 2)) ≤ pitch (mtsEncodeSemitones 0) := by
  have hlow : mtsEncodeSemitones (-1 / 2) = (0, 64, 0) := by decide +kernel
  refine ⟨hlow, ?_, by decide +kernel⟩
  rw [encodedNear_below (by norm_num)]
  norm_num [Int.fract]

end Encoded

/-! ## `mts_bulk_dump` -/

/-- The double arithmetic of `mts_encode_note` before `semitones`. -/
class PitchMath (D : Type*) [CDouble D] where
  /-- `hz > 0.0`. -/
  pos : D → Bool
  /-- `440.0 * std::pow(2.0, (key - 69) / 12.0)`. -/
  tetHz : Int → D
  /-- `12.0 * std::log2(hz / 440.0) + 69.0`. -/
  semitones : D → ℚ
  pos_zero : pos (CDouble.ofInt 0) = false

/-- `std::unordered_map<int, double>`. -/
abbrev Tuning (D : Type*) := AList fun _ : Int => D

section Dump

variable {D : Type*} [CDouble D] [PitchMath D]

/-- `mts_encode_note`. -/
def mtsEncodeNote (key : Int) (hz : D) : Byte × Byte × Byte :=
  let useHz := if PitchMath.pos hz then hz else PitchMath.tetHz key
  mtsEncodeSemitones (PitchMath.semitones useHz)

/-- The body of the note loop of `mts_bulk_dump`. -/
def noteEntry (tuning : Tuning D) (k : Nat) : List Byte :=
  let hz := (tuning.lookup (k : Int)).getD (CDouble.ofInt 0)
  let (xx, yy, zz) := mtsEncodeNote k hz
  [xx, yy, zz]

/-- The bytes before the note entries, with the 16-byte name field. -/
def mtsHeader (prog deviceId : Byte) : List Byte :=
  [0xF0, 0x7E, deviceId, 0x08, 0x01, prog] ++ List.replicate 16 0x00

/-- `csum ^= out[i]` over a list of bytes. -/
def xorBytes (bytes : List Byte) : Byte := bytes.foldl (· ^^^ ·) 0

/-- `mts_bulk_dump`. -/
def mtsBulkDump (tuning : Tuning D) (prog deviceId : Byte) : List Byte :=
  let out := mtsHeader prog deviceId ++ (List.range 128).flatMap (noteEntry tuning)
  let csum := xorBytes (out.drop 1)
  out ++ [csum &&& 0x7F, 0xF7]

/-! ## The layout -/

/-- The 12-TET entry of a key. -/
def tetEntry (D : Type*) [CDouble D] [PitchMath D] (k : Nat) : Byte × Byte × Byte :=
  mtsEncodeSemitones (PitchMath.semitones (PitchMath.tetHz k : D))

/-- What a dump holds for a key: the 12-TET entry unless the map has a positive
    frequency. -/
def expectedEntry (tuning : Tuning D) (k : Nat) : Byte × Byte × Byte :=
  match tuning.lookup (k : Int) with
  | some hz => if PitchMath.pos hz then mtsEncodeSemitones (PitchMath.semitones hz) else tetEntry D k
  | none => tetEntry D k

/-- A well-formed bulk dump of a tuning. -/
structure IsBulkDump (tuning : Tuning D) (out : List Byte) : Prop where
  length_eq : out.length = 408
  first : out[0]? = some 0xF0
  last : out[407]? = some 0xF7
  data : ∀ b ∈ (out.drop 1).take 406, b.toNat < 0x80
  entry : ∀ k < 128, (out.drop (22 + 3 * k)).take 3 =
    [(expectedEntry tuning k).1, (expectedEntry tuning k).2.1, (expectedEntry tuning k).2.2]
  checksum : xorBytes ((out.drop 1).take 406) = 0

theorem mtsEncodeNote_lt (key : Int) (hz : D) :
    (mtsEncodeNote key hz).1.toNat < 0x80 ∧ (mtsEncodeNote key hz).2.1.toNat < 0x80 ∧
      (mtsEncodeNote key hz).2.2.toNat < 0x80 :=
  mtsEncodeSemitones_lt _

theorem length_mtsHeader (prog deviceId : Byte) : (mtsHeader prog deviceId).length = 22 := rfl

theorem length_noteEntry (tuning : Tuning D) (k : Nat) : (noteEntry tuning k).length = 3 := rfl

/-- A frequency that is missing or not positive leaves the 12-TET entry. -/
theorem noteEntry_eq (tuning : Tuning D) (k : Nat) :
    noteEntry tuning k =
      [(expectedEntry tuning k).1, (expectedEntry tuning k).2.1, (expectedEntry tuning k).2.2] := by
  have hnote : mtsEncodeNote (k : Int) ((tuning.lookup (k : Int)).getD (CDouble.ofInt 0)) =
      expectedEntry tuning k := by
    rw [mtsEncodeNote, expectedEntry]
    cases tuning.lookup (k : Int) with
    | none =>
        simp only [Option.getD_none, PitchMath.pos_zero]
        rfl
    | some hz =>
        simp only [Option.getD_some]
        split
        · rfl
        · rfl
  rw [noteEntry, hnote]

theorem noteEntry_lt (tuning : Tuning D) (k : Nat) : ∀ b ∈ noteEntry tuning k, b.toNat < 0x80 := by
  obtain ⟨hxx, hyy, hzz⟩ := mtsEncodeNote_lt (k : Int) ((tuning.lookup (k : Int)).getD (CDouble.ofInt 0))
  simp only [noteEntry, List.forall_mem_cons]
  exact ⟨hxx, hyy, hzz, List.forall_mem_nil _⟩

/-- Pieces of one width stay where they are put. -/
theorem take_drop_flatMap_range {α : Type*} {f : Nat → List α} {w : Nat}
    (hw : ∀ k, (f k).length = w) {n k : Nat} (hk : k < n) :
    (((List.range n).flatMap f).drop (w * k)).take w = f k := by
  have hlen : ∀ n, ((List.range n).flatMap f).length = w * n := by
    intro n
    rw [List.length_flatMap, List.map_congr_left (fun k _ => hw k)]
    simp [Nat.mul_comm]
  induction n with
  | zero => omega
  | succ n ih =>
      rw [List.range_succ, List.flatMap_append, List.flatMap_singleton]
      obtain hlt | heq := Nat.lt_succ_iff_lt_or_eq.mp hk
      · have hroom : w * k + w ≤ w * n := by
          rw [← Nat.mul_succ]
          exact Nat.mul_le_mul_left w hlt
        rw [List.drop_append_of_le_length (by rw [hlen]; omega),
          List.take_append_of_le_length (by rw [List.length_drop, hlen]; omega)]
        exact ih hlt
      · rw [heq, List.drop_left' (hlen n), List.take_of_length_le (hw n).le]

/-! ## The checksum -/

theorem xorBytes_concat (bytes : List Byte) (b : Byte) :
    xorBytes (bytes ++ [b]) = xorBytes bytes ^^^ b := by
  rw [xorBytes, List.foldl_append]
  rfl

/-- Exclusive or stays within seven bits. -/
theorem xorBytes_lt {bytes : List Byte} (h : ∀ b ∈ bytes, b.toNat < 0x80) :
    (xorBytes bytes).toNat < 0x80 := by
  induction bytes using List.reverseRecOn with
  | nil => decide
  | append_singleton bytes b ih =>
      rw [xorBytes_concat, BitVec.toNat_xor]
      exact Nat.xor_lt_two_pow (n := 7) (ih fun c hc => h c (by simp [hc])) (h b (by simp))

/-- The mask of the checksum loses nothing. -/
theorem and_mask_of_lt {b : Byte} (h : b.toNat < 0x80) : b &&& 0x7F = b := by
  apply BitVec.eq_of_toNat_eq
  rw [BitVec.toNat_and]
  exact Nat.and_two_pow_sub_one_of_lt_two_pow (n := 7) h

/-- The dump before its checksum. -/
def mtsBody (tuning : Tuning D) (prog deviceId : Byte) : List Byte :=
  mtsHeader prog deviceId ++ (List.range 128).flatMap (noteEntry tuning)

theorem mtsBulkDump_eq (tuning : Tuning D) (prog deviceId : Byte) :
    mtsBulkDump tuning prog deviceId =
      mtsBody tuning prog deviceId ++
        [xorBytes ((mtsBody tuning prog deviceId).drop 1) &&& 0x7F, 0xF7] :=
  rfl

theorem length_mtsBody (tuning : Tuning D) (prog deviceId : Byte) :
    (mtsBody tuning prog deviceId).length = 406 := by
  rw [mtsBody, List.length_append, length_mtsHeader, List.length_flatMap,
    List.map_congr_left (fun k _ => length_noteEntry tuning k)]
  simp

/-- After the status byte the body has data bytes only. -/
theorem mtsBody_lt (tuning : Tuning D) {prog deviceId : Byte} (hprog : prog.toNat < 0x80)
    (hdev : deviceId.toNat < 0x80) :
    ∀ b ∈ (mtsBody tuning prog deviceId).drop 1, b.toNat < 0x80 := by
  intro b hb
  rw [mtsBody, List.drop_append_of_le_length (by rw [length_mtsHeader]; omega),
    List.mem_append] at hb
  obtain hhead | hnotes := hb
  · simp only [mtsHeader, List.cons_append, List.nil_append, List.drop_succ_cons, List.drop_zero,
      List.mem_cons, List.mem_replicate] at hhead
    rcases hhead with rfl | rfl | rfl | rfl | rfl | ⟨-, rfl⟩
    · decide
    · exact hdev
    · decide
    · decide
    · exact hprog
    · decide
  · obtain ⟨k, -, hk⟩ := List.mem_flatMap.mp hnotes
    exact noteEntry_lt tuning k b hk

/-- Between the status byte and the end byte: the body and its checksum. -/
theorem mtsBulkDump_inner (tuning : Tuning D) (prog deviceId : Byte) :
    ((mtsBulkDump tuning prog deviceId).drop 1).take 406 =
      (mtsBody tuning prog deviceId).drop 1 ++
        [xorBytes ((mtsBody tuning prog deviceId).drop 1) &&& 0x7F] := by
  have hlen := length_mtsBody tuning prog deviceId
  rw [mtsBulkDump_eq, List.drop_append_of_le_length (by omega), List.take_append,
    List.take_of_length_le (by rw [List.length_drop]; omega), List.length_drop, hlen]
  rfl

/-- A dump with a programme and a device of seven bits is well formed. -/
theorem mtsBulkDump_isBulkDump (tuning : Tuning D) {prog deviceId : Byte}
    (hprog : prog.toNat < 0x80) (hdev : deviceId.toNat < 0x80) :
    IsBulkDump tuning (mtsBulkDump tuning prog deviceId) := by
  have hlen := length_mtsBody tuning prog deviceId
  have hbody := mtsBody_lt tuning hprog hdev
  have hsum := and_mask_of_lt (xorBytes_lt hbody)
  refine { length_eq := ?_, first := rfl, last := ?_, data := ?_, entry := ?_, checksum := ?_ }
  · rw [mtsBulkDump_eq, List.length_append, hlen]
    rfl
  · rw [mtsBulkDump_eq, List.getElem?_append_right (by omega), hlen]
    rfl
  · rw [mtsBulkDump_inner, hsum, List.forall_mem_append, List.forall_mem_singleton]
    exact ⟨hbody, xorBytes_lt hbody⟩
  · -- the entries lie between the 22 bytes of the header and the checksum
    intro k hk
    rw [mtsBulkDump_eq, List.drop_append_of_le_length (by omega),
      List.take_append_of_le_length (by rw [List.length_drop]; omega), mtsBody, ← List.drop_drop,
      List.drop_left' (length_mtsHeader prog deviceId),
      take_drop_flatMap_range (length_noteEntry tuning) hk, noteEntry_eq]
  · rw [mtsBulkDump_inner, hsum, xorBytes_concat, BitVec.xor_self]
    rfl

/-- Maps that agree on the keys 0 to 127 have one dump. -/
theorem mtsBulkDump_congr {tuning tuning' : Tuning D}
    (hsame : ∀ k : Nat, k < 128 → tuning'.lookup (k : Int) = tuning.lookup (k : Int))
    (prog deviceId : Byte) : mtsBulkDump tuning' prog deviceId = mtsBulkDump tuning prog deviceId := by
  have hnotes : (List.range 128).flatMap (noteEntry tuning') =
      (List.range 128).flatMap (noteEntry tuning) := by
    rw [List.flatMap_def, List.flatMap_def]
    congr 1
    apply List.map_congr_left
    intro k hk
    rw [noteEntry, noteEntry, hsame k (List.mem_range.mp hk)]
  rw [mtsBulkDump_eq, mtsBulkDump_eq, mtsBody, mtsBody, hnotes]

/-- Every dump is well formed, and only keys 0 to 127 of the map count. -/
theorem mts_bulk_dump_well_formed (tuning : Tuning D) (prog deviceId : Byte)
    (hprog : prog.toNat < 0x80) (hdev : deviceId.toNat < 0x80) :
    IsBulkDump tuning (mtsBulkDump tuning prog deviceId) ∧
      ∀ tuning' : Tuning D, (∀ k : Nat, k < 128 → tuning'.lookup (k : Int) = tuning.lookup (k : Int)) →
        mtsBulkDump tuning' prog deviceId = mtsBulkDump tuning prog deviceId :=
  ⟨mtsBulkDump_isBulkDump tuning hprog hdev, fun _ hsame => mtsBulkDump_congr hsame prog deviceId⟩

end Dump

/-! A frequency by its pitch, which keeps `std::log2` exact. -/

/-- `silent` stands for the numbers that are not positive. -/
inductive Frequency where
  | silent
  | sounding (semitones : ℚ)

/-- Only 0.0 comes from an integer here. -/
instance : CDouble Frequency := ⟨fun _ => .silent, fun x _ => x, fun x _ => x, fun _ => .silent, fun _ => 0⟩

instance : PitchMath Frequency where
  pos hz := match hz with
    | .silent => false
    | .sounding _ => true
  tetHz key := .sounding key
  semitones hz := match hz with
    | .silent => 0
    | .sounding s => s
  pos_zero := rfl

/-- Key 60 a quarter tone up, and a key that is not there. -/
def quarterToneUp : Tuning Frequency :=
  (AList.insert 60 (.sounding (60 + 1 / 2)) ∅).insert 200 (.sounding 1)

/-- The dump of `quarterToneUp`, programme 3, to all devices. -/
theorem mts_bulk_dump_quarterToneUp :
    IsBulkDump quarterToneUp (mtsBulkDump quarterToneUp 3 0x7F) ∧
      expectedEntry quarterToneUp 60 = (60, 64, 0) ∧ expectedEntry quarterToneUp 61 = (61, 0, 0) :=
  ⟨(mts_bulk_dump_well_formed quarterToneUp 3 0x7F (by decide) (by decide)).1, by decide +kernel,
    by decide +kernel⟩

section Message

variable {D : Type*}

/-! ## `msg_mts` -/

/-- `static_cast<uint8_t>(v & 0x7F)` of an integer field. -/
def getU7 (m : List (Edn D × Edn D)) (kw : String) (dflt : Byte) : Byte :=
  match Edn.findKw kw m with
  | some (.int n) => BitVec.ofInt 8 n &&& 0x7F
  | _ => dflt

theorem getU7_lt (m : List (Edn D × Edn D)) (kw : String) {dflt : Byte} (h : dflt.toNat < 0x80) :
    (getU7 m kw dflt).toNat < 0x80 := by
  unfold getU7
  split
  · rw [BitVec.toNat_and]
    exact lt_of_le_of_lt Nat.and_le_right (by decide)
  · exact h

variable [CDouble D]

/-- The `tuning[static_cast<int>(k)] = hz` of one entry of `:tuning`; an entry whose
    key is no integer is skipped, a value that is no number counts as 0. -/
def tuningStore : Edn D × Edn D → Option (Int × D)
  | (.int n, v) => some ((BitVec.ofInt 32 n).toInt, asDouble (some v) (CDouble.ofInt 0))
  | _ => none

/-- The `tuning` built from the entries, a later one over an earlier. -/
def tuningOf (entries : List (Edn D × Edn D)) : Tuning D :=
  (entries.filterMap tuningStore).foldl (fun tuning store => tuning.insert store.1 store.2) ∅

variable [PitchMath D]

/-- What `msg_mts` hands to `midi_io::send`; `midi` is `cfg_.midi != nullptr`. -/
def sendMts (cfg : Config D) (midi : Bool) (payload : List Byte) : Option (List Byte) :=
  if !midi || payload.isEmpty then none
  else
    match cfg.parse payload with
    | some (.map m) =>
        match Edn.findKw "tuning" m with
        | some (.map entries) =>
            some (mtsBulkDump (tuningOf entries) (getU7 m "tuning-prog" 0) (getU7 m "device-id" 0x7F))
        | _ => none
    | _ => none

/-- Whatever `msg_mts` sends is a well-formed dump. -/
theorem sendMts_isBulkDump {cfg : Config D} {midi : Bool} {payload out : List Byte}
    (h : sendMts cfg midi payload = some out) : ∃ tuning : Tuning D, IsBulkDump tuning out := by
  unfold sendMts at h
  split at h
  · cases h
  · split at h
    · split at h
      · cases h
        exact ⟨_, mtsBulkDump_isBulkDump _ (getU7_lt _ _ (by decide)) (getU7_lt _ _ (by decide))⟩
      · cases h
    · cases h

end Message

end NomosRt.Control
