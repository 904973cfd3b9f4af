import Mathlib.Algebra.Order.Field.Rat
import Mathlib.Algebra.Order.Ring.Abs
import Mathlib.Algebra.Order.Ring.Cast
import Mathlib.Tactic.Linarith
import Mathlib.Tactic.Ring
import Reckon.Proofs.NumberBits
import Reckon.Proofs.NumberReading

/-!
# A numeral is read to the nearest number

No number is nearer to what a numeral denotes than the one it is read to, and of two numbers
that are equally near the one with the even bits is taken. Infinity is read where the ladder
would have one more finite rung.
-/
namespace Reckon

namespace Ladder

/-- The magnitude of the rung at a rank. -/
def value (rank : Nat) : ℚ := units rank / unitsPerOne

theorem value_zero : value 0 = 0 := by rw [value, units_zero, Nat.cast_zero, zero_div]

theorem unitsPerOne_pos : (0 : ℚ) < unitsPerOne := Nat.cast_pos.mpr (by decide +kernel)

theorem value_strictMono : StrictMono value := fun _ _ h =>
  div_lt_div_of_pos_right (Nat.cast_lt.mpr (units_strictMono h)) unitsPerOne_pos

theorem cast_eq_zpow {n k : Nat} (h : n = Nat.pow 2 k) : (n : ℚ) = 2 ^ (k : ℤ) := by
  subst h
  rw [Nat.pow_eq, Nat.cast_pow, zpow_natCast]
  rfl

/-- The value of a rung is its significand in the octave. -/
theorem value_add {octave m : Nat} (hm : octave = 0 ∨ octaveSize ≤ m)
    (hle : m ≤ 2 * octaveSize) :
    value (octave * octaveSize + m) = m * 2 ^ ((octave : ℤ) - 1074) := by
  have hunits : (unitsPerOne : ℚ) = 2 ^ (1074 : ℤ) := cast_eq_zpow (by decide +kernel)
  rw [value, units_add hm hle, Nat.cast_mul, hunits, cast_eq_zpow rfl, zpow_sub₀ two_ne_zero,
    mul_div_assoc]

theorem value_top : value top = 2 ^ 1024 := by
  have htop : top = 2046 * octaveSize + octaveSize := by decide +kernel
  have hsize : (octaveSize : ℚ) = 2 ^ (52 : ℤ) := cast_eq_zpow (by decide +kernel)
  rw [htop, value_add (.inr le_rfl) (by omega), hsize, ← zpow_add₀ two_ne_zero]
  exact zpow_natCast 2 1024

/-- The rounded rank, with its neighbours and the quotient compared as magnitudes. -/
theorem exists_value_nearest (n : Nat) {den : Nat} (hden : 0 < den) :
    ∃ rank, nearest (n * unitsPerOne) den = min rank top ∧
      value (rank - 1) + value rank ≤ 2 * (n / den) ∧
      2 * (n / den) ≤ value rank + value (rank + 1) ∧
      (rank % 2 = 1 → value (rank - 1) + value rank < 2 * (n / den) ∧
        2 * (n / den) < value rank + value (rank + 1)) := by
  have hone := unitsPerOne_pos
  have hcast : (0 : ℚ) < den := Nat.cast_pos.mpr hden
  have hpos : (0 : ℚ) < unitsPerOne * den := mul_pos hone hcast
  have hmiddle : ∀ a b, value a + value b =
      (((units a + units b) * den : Nat) : ℚ) / (unitsPerOne * den) := by
    intro a b
    rw [Nat.cast_mul, Nat.cast_add, mul_div_mul_right _ _ hcast.ne', add_div]
    rfl
  have htwice : 2 * (n / den : ℚ) = ((2 * (n * unitsPerOne) : Nat) : ℚ) / (unitsPerOne * den) := by
    rw [← mul_assoc, mul_comm (2 * n), Nat.cast_mul, mul_div_mul_left _ _ hone.ne', Nat.cast_mul,
      Nat.cast_ofNat, mul_div_assoc]
  obtain ⟨rank, hrank, hlow, hhigh, hodd⟩ := exists_nearest (n * unitsPerOne) hden
  refine ⟨rank, hrank, ?_⟩
  simp only [hmiddle, htwice, div_le_div_iff_of_pos_right hpos, div_lt_div_iff_of_pos_right hpos,
    Nat.cast_le, Nat.cast_lt]
  exact ⟨hlow, hhigh, hodd⟩

/-- Of two values the one on the side of the quotient is nearer. -/
theorem abs_sub_le_abs_sub_iff {a b q : ℚ} :
    |b - q| ≤ |a - q| ↔ 0 ≤ (a - b) * (a + b - 2 * q) := by
  have hdiff : (a - b) * (a + b - 2 * q) = (a - q) ^ 2 - (b - q) ^ 2 := by ring
  rw [hdiff, sub_nonneg, sq_le_sq]

theorem abs_sub_lt_abs_sub_iff {a b q : ℚ} :
    |b - q| < |a - q| ↔ 0 < (a - b) * (a + b - 2 * q) := by
  have hdiff : (a - b) * (a + b - 2 * q) = (a - q) ^ 2 - (b - q) ^ 2 := by ring
  rw [hdiff, sub_pos, sq_lt_sq]

/-- `NearestRank rank q`: no rung is nearer to `q`, and none is as near if the rank is odd. -/
structure NearestRank (rank : Nat) (q : ℚ) : Prop where
  le_top : rank ≤ top
  least : ∀ other ≤ top, |value rank - q| ≤ |value other - q|
  odd : rank % 2 = 1 → ∀ other ≤ top, other ≠ rank → |value rank - q| < |value other - q|

/-- There is one nearest rank, since between two even ones there is a third. -/
theorem NearestRank.unique {r s : Nat} {q : ℚ} (hr : NearestRank r q) (hs : NearestRank s q) :
    r = s := by
  by_contra hne
  wlog hlt : r < s generalizing r s
  · exact this hs hr (Ne.symm hne) (by omega)
  have hreven : r % 2 ≠ 1 := fun hodd =>
    (hr.odd hodd s hs.le_top (Ne.symm hne)).not_ge (hs.least r hr.le_top)
  have hseven : s % 2 ≠ 1 := fun hodd =>
    (hs.odd hodd r hr.le_top hne).not_ge (hr.least s hs.le_top)
  have hbetween : r + 1 < s := by omega
  have hbelow := value_strictMono (Nat.lt_succ_self r)
  have habove := value_strictMono hbetween
  have hle : r + 1 ≤ top := hbetween.le.trans hs.le_top
  have hleft := abs_sub_le_abs_sub_iff.mp (hr.least (r + 1) hle)
  have hright := abs_sub_le_abs_sub_iff.mp (hs.least (r + 1) hle)
  have hlow := nonneg_of_mul_nonneg_right hleft (sub_pos.mpr hbelow)
  have hhigh := nonpos_of_mul_nonneg_right hright (sub_neg.mpr habove)
  linarith

/-- A quotient is rounded to its nearest rank. -/
theorem nearestRank_nearest (n : Nat) {den : Nat} (hden : 0 < den) :
    NearestRank (nearest (n * unitsPerOne) den) (n / den) := by
  obtain ⟨rank, hrank, hlow, hhigh, hodd⟩ := exists_value_nearest n hden
  rw [hrank]
  generalize (n / den : ℚ) = q at *
  have hmono := value_strictMono.monotone
  have hother : ∀ other ≤ top, other ≠ min rank top →
      |value (min rank top) - q| ≤ |value other - q| ∧
        (min rank top % 2 = 1 → |value (min rank top) - q| < |value other - q|) := by
    intro other hother hne
    rw [abs_sub_le_abs_sub_iff, abs_sub_lt_abs_sub_iff]
    rcases Nat.lt_or_gt_of_ne hne with hlt | hgt
    · have hstep := value_strictMono hlt
      have hprev : value other ≤ value (rank - 1) := hmono (by omega)
      have hclamp : value (min rank top) ≤ value rank := hmono (min_le_left rank top)
      refine ⟨mul_nonneg_of_nonpos_of_nonpos (by linarith) (by linarith), fun hparity => ?_⟩
      -- The rank of infinity is even, so an odd rank is within the ladder.
      have htop : top % 2 = 0 := by decide
      have hstrict := (hodd (by omega)).1
      exact mul_pos_of_neg_of_neg (by linarith) (by linarith)
    · have hstep := value_strictMono hgt
      rw [Nat.min_eq_left (by omega)] at hgt hstep ⊢
      have hnext : value (rank + 1) ≤ value other := hmono hgt
      refine ⟨mul_nonneg (by linarith) (by linarith), fun hparity => ?_⟩
      have hstrict := (hodd hparity).2
      exact mul_pos (by linarith) (by linarith)
  refine ⟨min_le_right rank top, fun other hle => ?_, fun hparity other hle hne =>
    (hother other hle hne).2 hparity⟩
  by_cases hsame : other = min rank top
  · rw [hsame]
  · exact (hother other hle hsame).1

end Ladder

namespace Number
open Ladder Float.Model

/-- The magnitude of a number. That of infinity is where one more finite number would be. -/
def magnitude? (x : Float) : Option ℚ :=
  match x.toModel.unpack with
  | .notANumber => none
  | .infinity _ => some (2 ^ 1024)
  | .zero _ => some 0
  | .finite _ m e _ => some (m * 2 ^ e)

/-- What a numeral with these digits before and after the point denotes. -/
def numeralValue (whole fraction : List Char) : ℚ :=
  Nat.ofDigitChars 10 (whole ++ fraction) 0 / 10 ^ fraction.length

/-- `IsNearest x q`: without a sign, `x` is the number nearest to `q`, and the one with even
bits if another one is as near. -/
structure IsNearest (x : Float) (q : ℚ) : Prop where
  unsigned : x.toBits.toNat < signBit
  isNumber : (magnitude? x).isSome
  least : ∀ m ∈ magnitude? x, ∀ y, ∀ m' ∈ magnitude? y, |m - q| ≤ |m' - q|
  even : ∀ m ∈ magnitude? x, ∀ y, ∀ m' ∈ magnitude? y, m' ≠ m → |m' - q| = |m - q| →
    x.toBits.toNat % 2 = 0

theorem magnitude?_of_le {x : Float} (h : rank x ≤ top) :
    magnitude? x = some (value (rank x)) := by
  have hbits := toBits_eq_pattern x
  generalize ite (x.toBits.toNat < signBit) _ _ = s at hbits
  have hunpack : x.toModel.unpack = UnpackedFloat.unpack .binary64 (pattern s (rank x)) := by
    rw [← hbits]
    rfl
  unfold magnitude?
  rw [hunpack]
  obtain hzero | ⟨octave, m, hrank, hoctave, hm, hpos, hlt⟩ | htop := rank_cases h
  · rw [hzero, unpack_pattern_zero, value_zero]
  · rw [hrank, unpack_pattern s hm hlt hpos hoctave, value_add hm hlt.le]
  · rw [htop, unpack_pattern_top, value_top]

theorem magnitude?_of_lt {x : Float} (h : top < rank x) : magnitude? x = none := by
  have hunpack : x.toModel.unpack =
      UnpackedFloat.unpack .binary64 (UnpackedFloat.packedNaN .binary64) := by
    rw [← toBits_of_top_lt h]
    rfl
  unfold magnitude?
  rw [hunpack]
  rfl

theorem mem_magnitude?_iff {x : Float} {m : ℚ} :
    m ∈ magnitude? x ↔ rank x ≤ top ∧ m = value (rank x) := by
  rw [Option.mem_def]
  rcases Nat.lt_or_ge top (rank x) with hlt | hle
  · simp [magnitude?_of_lt hlt, hlt]
  · rw [magnitude?_of_le hle, Option.some.injEq]
    exact ⟨fun h => ⟨hle, h.symm⟩, fun h => h.2.symm⟩

/-- The nearest number is the one of the nearest rung. -/
theorem isNearest_iff {x : Float} {q : ℚ} :
    IsNearest x q ↔ x.toBits.toNat < signBit ∧ NearestRank (rank x) q := by
  constructor
  · intro h
    have hbits : x.toBits.toNat = rank x := (Nat.mod_eq_of_lt h.unsigned).symm
    obtain ⟨m, hm⟩ := Option.isSome_iff_exists.mp h.isNumber
    obtain ⟨hle, rfl⟩ := mem_magnitude?_iff.mp hm
    have hvalue : ∀ other ≤ top, value other ∈ magnitude? (Float.ofBits (UInt64.ofNat other)) := by
      intro other hother
      rw [mem_magnitude?_iff, rank_ofBits hother]
      exact ⟨hother, rfl⟩
    have hleast : ∀ other ≤ top, |value (rank x) - q| ≤ |value other - q| := fun other hother =>
      h.least _ hm _ _ (hvalue other hother)
    refine ⟨h.unsigned, hle, hleast, fun hodd other hother hne => ?_⟩
    refine (hleast other hother).lt_of_ne fun htie => ?_
    have hdiffer := value_strictMono.injective.ne hne
    have heven := h.even _ hm _ _ (hvalue other hother) hdiffer htie.symm
    omega
  · rintro ⟨hsign, h⟩
    have hbits : x.toBits.toNat = rank x := (Nat.mod_eq_of_lt hsign).symm
    refine ⟨hsign, by rw [magnitude?_of_le h.le_top]; rfl, ?_, ?_⟩
    · intro m hm y m' hm'
      obtain ⟨-, rfl⟩ := mem_magnitude?_iff.mp hm
      obtain ⟨hy, rfl⟩ := mem_magnitude?_iff.mp hm'
      exact h.least _ hy
    · intro m hm y m' hm' hne htie
      obtain ⟨-, rfl⟩ := mem_magnitude?_iff.mp hm
      obtain ⟨hy, rfl⟩ := mem_magnitude?_iff.mp hm'
      have hother : rank y ≠ rank x := fun heq => hne (by rw [heq])
      by_contra hparity
      exact (h.odd (by omega) _ hy hother).ne' htie

/-- A numeral is read to the one number that is nearest to what it denotes. -/
theorem isNearest_numeralValue {x : Float} {whole fraction : List Char} :
    IsNearest x (numeralValue whole fraction) ↔ x = ofNumeral whole fraction := by
  have hden : 0 < Nat.pow 10 fraction.length := Nat.pow_pos (by decide)
  have hcast : ((Nat.pow 10 fraction.length : Nat) : ℚ) = 10 ^ fraction.length :=
    Nat.cast_pow 10 fraction.length
  have hnearest : NearestRank (rankOfNumeral whole fraction) (numeralValue whole fraction) := by
    rw [numeralValue, ← hcast]
    exact nearestRank_nearest _ hden
  have hbits := toNat_toBits_ofBits hnearest.le_top
  rw [isNearest_iff]
  constructor
  · rintro ⟨hsign, h⟩
    rw [← ofBits_rank h.le_top hsign, h.unique hnearest, ofNumeral]
  · rintro rfl
    refine ⟨hbits.trans_lt (hnearest.le_top.trans_lt (by decide)), ?_⟩
    rwa [ofNumeral, rank_ofBits hnearest.le_top]

end Number

end Reckon
