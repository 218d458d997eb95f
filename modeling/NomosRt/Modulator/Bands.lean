/-
  NomosRt.Modulator.Bands

  The bands of `cv_channel_decoder` in exact arithmetic.

  The span [-1, 1] is cut into N bands and a band is active on a closed interval around
  its centre.  On the scale that puts the centres at the odd numbers below 2N the
  half-width of that interval is `space` itself.
-/

import NomosRt.Lib.RealFloat
import NomosRt.Modulator.Listeners

namespace NomosRt.Modulator

open NomosRt.Lib CFloat CMath

/-! ## Closed intervals around the odd numbers -/

/-- `u` lies within `space` of the centre of band `i`. -/
def InBand (space u : ℝ) (i : Nat) : Prop := |u - (2 * i + 1 : Nat)| ≤ space

/-- `u` is the common end of two neighbours among the first `n` bands. -/
def OnInnerEdge (n : Nat) (u : ℝ) : Prop := ∃ k : Nat, 0 < k ∧ k < n ∧ u = (2 * k : Nat)

theorem inBand_lower {space u : ℝ} {i : Nat} (h : InBand space u i) :
    (2 * i + 1 : Nat) - space ≤ u := by
  have hlow := (abs_le.mp h).1
  linarith

theorem inBand_upper {space u : ℝ} {i : Nat} (h : InBand space u i) :
    u ≤ (2 * i + 1 : Nat) + space := by
  have hhigh := (abs_le.mp h).2
  linarith

/-- Two different bands of half-width at most 1 meet in a common end only. -/
theorem inBand_lt {space u : ℝ} (hspace : space ≤ 1) {i j : Nat} (hi : InBand space u i)
    (hj : InBand space u j) (hij : i < j) : space = 1 ∧ u = (2 * (i + 1) : Nat) := by
  have hcast : (i : ℝ) + 1 ≤ j := by exact_mod_cast hij
  have hlow := inBand_lower hj
  have hhigh := inBand_upper hi
  push_cast at hlow hhigh
  constructor
  · linarith
  · push_cast
    linarith

theorem inBand_unique {space u : ℝ} {n : Nat} (hspace : space ≤ 1)
    (hedge : ¬ (space = 1 ∧ OnInnerEdge n u)) {i j : Nat} (hin : i < n) (hjn : j < n)
    (hi : InBand space u i) (hj : InBand space u j) : i = j := by
  rcases Nat.lt_trichotomy i j with hij | rfl | hij
  · obtain ⟨hone, hu⟩ := inBand_lt hspace hi hj hij
    exact absurd ⟨hone, i + 1, Nat.succ_pos i, by omega, hu⟩ hedge
  · rfl
  · obtain ⟨hone, hu⟩ := inBand_lt hspace hj hi hij
    exact absurd ⟨hone, j + 1, Nat.succ_pos j, by omega, hu⟩ hedge

/-- The two neighbours of a common end. -/
theorem inBand_of_edge {k : Nat} (hk : 0 < k) :
    InBand 1 (2 * k : Nat) (k - 1) ∧ InBand 1 (2 * k : Nat) k := by
  have hcast : ((k - 1 : Nat) : ℝ) = k - 1 := by
    rw [Nat.cast_sub hk, Nat.cast_one]
  constructor
  · rw [InBand, abs_le]
    push_cast [hcast]
    constructor <;> linarith
  · rw [InBand, abs_le]
    push_cast
    constructor <;> linarith

/-- Bands of half-width at least 1 cover everything between the outer ends. -/
theorem exists_inBand {space u : ℝ} {n : Nat} (hn : 0 < n) (hspace : 1 ≤ space) (hlow : 0 ≤ u)
    (hhigh : u ≤ (2 * n : Nat)) : ∃ i < n, InBand space u i := by
  have hfloor := Nat.floor_le (div_nonneg hlow zero_le_two)
  have hnext := Nat.lt_floor_add_one (u / 2)
  push_cast at hhigh
  by_cases hlt : ⌊u / 2⌋₊ < n
  · refine ⟨⌊u / 2⌋₊, hlt, abs_le.mpr ?_⟩
    push_cast
    constructor <;> linarith
  · -- only the upper end of the last band is left
    have hcast : ((n - 1 : Nat) : ℝ) = n - 1 := by
      rw [Nat.cast_sub hn, Nat.cast_one]
    have hge : (n : ℝ) ≤ ⌊u / 2⌋₊ := by exact_mod_cast not_lt.mp hlt
    refine ⟨n - 1, by omega, abs_le.mpr ?_⟩
    push_cast [hcast]
    constructor <;> linarith

/-! ## The bitmap of a tick -/

/-- A bit of the word that the loop over the channels ends with. -/
theorem getLsbD_bitmapOf {n : Nat} (hn : n ≤ 32) (bit : Nat → Bool) (i : Nat) :
    (bitmapOf n bit).getLsbD i = (decide (i < n) && bit i) := by
  rw [bitmapOf]
  induction n with
  | zero => simp
  | succ n ih =>
      have hrest := ih (by omega)
      rw [List.range_succ, List.foldl_append, List.foldl_cons, List.foldl_nil]
      by_cases hi : i = n
      · -- the bit is set by the last round or not at all
        subst hi
        by_cases hbit : bit i
        · rw [if_pos hbit, BitVec.getLsbD_or, hrest, ← BitVec.twoPow_eq, BitVec.getLsbD_twoPow]
          simp [hbit, Nat.lt_of_succ_le hn]
        · rw [if_neg hbit, hrest]
          simp [hbit]
      · have hlt : i < n + 1 ↔ i < n := by omega
        by_cases hbit : bit n
        · rw [if_pos hbit, BitVec.getLsbD_or, hrest, ← BitVec.twoPow_eq]
          simp [hlt, Ne.symm hi]
        · rw [if_neg hbit, hrest]
          simp [hlt]

section Decoder

attribute [local instance] realMath

/-- The span on the scale of the centres. -/
def scaledSpan (n : Nat) (span : ℝ) : ℝ := (span + 1) * n

theorem channelActive_iff {s : ChannelDecoder ℝ} (hn : 0 < s.channels) (i : Nat) (span : ℝ) :
    s.channelActive i span = true ↔ InBand s.space (scaledSpan s.channels span) i := by
  have hpos : (0 : ℝ) < s.channels := Nat.cast_pos.mpr hn
  have hofInt : ∀ k : Nat, (CFloat.ofInt (k : Int) : ℝ) = k := fun k => Int.cast_natCast k
  rw [ChannelDecoder.channelActive, Bool.and_eq_true, real_le, real_le, InBand, abs_le, scaledSpan]
  simp only [real_lit, hofInt]
  push_cast
  have hlow : -1 + (2 * (i : ℝ) + 1) / s.channels - s.space * (1 / s.channels) =
      (2 * i + 1 - s.space) / s.channels - 1 := by ring
  have hhigh : -1 + (2 * (i : ℝ) + 1) / s.channels + s.space * (1 / s.channels) =
      (2 * i + 1 + s.space) / s.channels - 1 := by ring
  rw [hlow, hhigh, sub_le_iff_le_add, div_le_iff₀ hpos, le_sub_iff_add_le, le_div_iff₀ hpos]
  constructor
  · rintro ⟨hl, hh⟩
    constructor <;> linarith
  · rintro ⟨hl, hh⟩
    constructor <;> linarith

/-- The bits of the bitmap of an unclocked tick are the active bands. -/
theorem getLsbD_state {s : ChannelDecoder ℝ} (hn : 0 < s.channels)
    (hmax : s.channels ≤ kMaxChannels) (hclocked : s.clocked = false) (view : OutputView ℝ) (rate : ℝ) (i : Nat) :
    (s.tick view rate).1.state.getLsbD i = true ↔
      i < s.channels ∧ InBand s.space (scaledSpan s.channels (s.readSpan view)) i := by
  have hwidth : s.channels ≤ 32 := le_trans hmax (by decide)
  have hstate : (s.tick view rate).1.state =
      bitmapOf s.channels fun i => s.channelActive i (s.readSpan view) := by
    rw [ChannelDecoder.tick, ChannelDecoder.latch]
    simp only [hclocked]
    rfl
  rw [hstate, getLsbD_bitmapOf hwidth, Bool.and_eq_true, decide_eq_true_iff, channelActive_iff hn]

theorem scaledSpan_mem {n : Nat} {span : ℝ} (hlow : -1 ≤ span) (hhigh : span ≤ 1) :
    0 ≤ scaledSpan n span ∧ scaledSpan n span ≤ (2 * n : Nat) := by
  have hn : (0 : ℝ) ≤ n := Nat.cast_nonneg n
  rw [scaledSpan]
  push_cast
  constructor
  · exact mul_nonneg (by linarith) hn
  · exact mul_le_mul_of_nonneg_right (by linarith) hn

/-- What the header asks of the bitmap: disjoint bands up to `space` 1, no gap from there on, and
    a partition in between. -/
structure BandsPartition (space : ℝ) (bitmap : BitVec 32) : Prop where
  disjoint : space ≤ 1 → ∀ i j, bitmap.getLsbD i = true → bitmap.getLsbD j = true → i = j
  covers : 1 ≤ space → ∃ i, bitmap.getLsbD i = true
  exactlyOne : space = 1 → ∃! i, bitmap.getLsbD i = true

/-- `span` is the common end of two neighbouring bands. -/
def BetweenBands (n : Nat) (span : ℝ) : Prop :=
  ∃ k : Nat, 0 < k ∧ k < n ∧ span = -1 + (2 * k : Nat) / n

theorem onInnerEdge_iff {n : Nat} (hn : 0 < n) (span : ℝ) :
    OnInnerEdge n (scaledSpan n span) ↔ BetweenBands n span := by
  have hpos : (0 : ℝ) < n := Nat.cast_pos.mpr hn
  have hedge : ∀ k : Nat, scaledSpan n span = (2 * k : Nat) ↔ span = -1 + (2 * k : Nat) / n := by
    intro k
    rw [scaledSpan, ← eq_div_iff hpos.ne']
    constructor <;> intro h <;> linarith
  simp only [OnInnerEdge, BetweenBands, hedge]

/-- The bitmap of an unclocked tick is as documented, except where two bands meet at `space` 1. -/
theorem unclocked_tick_partitions (s : ChannelDecoder ℝ) (view : OutputView ℝ) (rate : ℝ)
    (hn : 1 ≤ s.channels) (hmax : s.channels ≤ kMaxChannels) (hclocked : s.clocked = false)
    (hspan : -1 ≤ s.readSpan view ∧ s.readSpan view ≤ 1) :
    BandsPartition s.space (s.tick view rate).1.state ↔
      ¬ (s.space = 1 ∧ BetweenBands s.channels (s.readSpan view)) := by
  have hbit := getLsbD_state hn hmax hclocked view rate
  have hscaled := scaledSpan_mem (n := s.channels) hspan.1 hspan.2
  constructor
  · rintro hparts ⟨hone, hbetween⟩
    -- on the edge between two bands of width 1 both bits are set
    obtain ⟨k, hk, hkn, hu⟩ := (onInnerEdge_iff hn _).mpr hbetween
    obtain ⟨hleft, hright⟩ := inBand_of_edge hk
    rw [← hone, ← hu] at hleft hright
    have hsame := hparts.disjoint hone.le (k - 1) k ((hbit _).mpr ⟨by omega, hleft⟩)
      ((hbit _).mpr ⟨hkn, hright⟩)
    omega
  · intro hbetween
    -- narrow bands are disjoint, wide ones cover the span; at 1 they do both
    rw [← onInnerEdge_iff hn] at hbetween
    have hdisjoint : s.space ≤ 1 → ∀ i j, (s.tick view rate).1.state.getLsbD i = true →
        (s.tick view rate).1.state.getLsbD j = true → i = j := by
      intro hle i j hi hj
      obtain ⟨hin, hi⟩ := (hbit i).mp hi
      obtain ⟨hjn, hj⟩ := (hbit j).mp hj
      exact inBand_unique hle hbetween hin hjn hi hj
    have hcovers : 1 ≤ s.space → ∃ i, (s.tick view rate).1.state.getLsbD i = true := by
      intro hge
      obtain ⟨i, hin, hi⟩ := exists_inBand hn hge hscaled.1 hscaled.2
      exact ⟨i, (hbit i).mpr ⟨hin, hi⟩⟩
    refine ⟨hdisjoint, hcovers, fun hone => ?_⟩
    obtain ⟨i, hi⟩ := hcovers hone.ge
    exact ⟨i, hi, fun j hj => hdisjoint hone.le j i hj hi⟩

/-- A decoder as constructed, without a source. -/
noncomputable def freshDecoder (channels : Int) : ChannelDecoder ℝ :=
  ChannelDecoder.make channels "" .cv

theorem readSpan_freshDecoder (channels : Int) (view : OutputView ℝ) :
    (freshDecoder channels).readSpan view = 0 := real_lit_zero

theorem space_freshDecoder (channels : Int) : (freshDecoder channels).space = 1 := real_lit_one

theorem unclocked_tick_partitions_three :
    (freshDecoder 3).clocked = false ∧
    BandsPartition 1 ((freshDecoder 3).tick (fun _ => none) 1).1.state := by
  have hspan : -1 ≤ (freshDecoder 3).readSpan (fun _ => none) ∧
      (freshDecoder 3).readSpan (fun _ => none) ≤ 1 := by
    rw [readSpan_freshDecoder]
    norm_num
  have hbetween : ¬ ((freshDecoder 3).space = 1 ∧
      BetweenBands (freshDecoder 3).channels ((freshDecoder 3).readSpan fun _ => none)) := by
    rintro ⟨-, k, -, -, hk⟩
    rw [readSpan_freshDecoder] at hk
    have hthree : (freshDecoder 3).channels = 3 := rfl
    rw [hthree] at hk
    have hodd : ((2 * k : Nat) : ℝ) = (3 : Nat) := by
      field_simp at hk
      linarith
    have hnat : 2 * k = 3 := Nat.cast_injective hodd
    omega
  exact ⟨rfl, space_freshDecoder 3 ▸ (unclocked_tick_partitions (freshDecoder 3) (fun _ => none) 1
    (by decide) (by decide) rfl hspan).mpr hbetween⟩

/-- Two channels at the defaults: both are active at span 0. -/
theorem unclocked_tick_overlaps :
    ¬ BandsPartition (freshDecoder 2).space ((freshDecoder 2).tick (fun _ => none) 1).1.state := by
  intro hparts
  have hbit := getLsbD_state (s := freshDecoder 2) (by decide) (by decide) rfl (fun _ => none) 1
  rw [readSpan_freshDecoder, space_freshDecoder] at hbit
  have hscaled : scaledSpan (freshDecoder 2).channels 0 = (2 * 1 : Nat) := by
    rw [scaledSpan, zero_add, one_mul]
    rfl
  rw [hscaled] at hbit
  obtain ⟨hleft, hright⟩ := inBand_of_edge one_pos
  have hsame := hparts.disjoint (space_freshDecoder 2).le 0 1 ((hbit 0).mpr ⟨by decide, hleft⟩)
    ((hbit 1).mpr ⟨by decide, hright⟩)
  exact absurd hsame zero_ne_one

end Decoder

end NomosRt.Modulator
