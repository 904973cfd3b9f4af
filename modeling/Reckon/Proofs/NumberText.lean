import Mathlib.Data.List.TakeWhile
import Mathlib.Order.Monotone.Basic
import Mathlib.Tactic.WLOG
import Reckon.Number.Text

/-!
# A number can be told from its text

The rungs of the ladder rise strictly, so the bands around them do not overlap. Where two
neighbouring bands touch, only the one around the even rank holds the common end. The
shortest decimal of a rung lies in the band of that rung and therefore in no other, and its
positional text gives it back.
-/
namespace Reckon

namespace Ladder

theorem octaveSize_pos : 0 < octaveSize := by decide +kernel

theorem units_lt_units_succ (rank : Nat) : units rank < units (rank + 1) := by
  have hpos := octaveSize_pos
  have hsplit := Nat.div_add_mod rank octaveSize
  have hmod := Nat.mod_lt rank hpos
  unfold units
  generalize octaveSize = size at *
  generalize rank / size = octave at *
  generalize rank % size = offset at *
  by_cases hnext : offset + 1 < size
  · -- Within an octave the rungs are evenly spaced.
    have hsame : (rank + 1) / size = octave := by
      rw [← hsplit, Nat.add_assoc, Nat.mul_add_div hpos, Nat.div_eq_of_lt hnext, Nat.add_zero]
    have hle : (octave - 1) * size ≤ rank := by
      have := Nat.mul_le_mul_right size (Nat.sub_le octave 1)
      rw [Nat.mul_comm octave] at this
      omega
    dsimp only
    rw [hsame]
    exact Nat.mul_lt_mul_of_pos_right (by omega) (Nat.pow_pos (by decide))
  · -- The last step of an octave leads to the leading bit of the next one.
    have hlast : rank + 1 = size * (octave + 1) := by
      rw [Nat.mul_add]
      omega
    dsimp only
    rw [hlast, Nat.mul_div_cancel_left _ hpos, Nat.add_sub_cancel, Nat.mul_comm size,
      ← Nat.sub_mul, Nat.add_sub_cancel_left, Nat.one_mul]
    cases octave with
    | zero => simp; omega
    | succ k =>
      have hrank : rank - (k + 1 - 1) * size < 2 * size := by
        rw [Nat.add_sub_cancel, Nat.mul_comm k]
        rw [Nat.mul_add, Nat.mul_one] at hsplit
        omega
      calc (rank - (k + 1 - 1) * size) * Nat.pow 2 (k + 1 - 1)
          < 2 * size * Nat.pow 2 k := Nat.mul_lt_mul_of_pos_right hrank (Nat.pow_pos (by decide))
        _ = size * Nat.pow 2 (k + 1) := by
          change 2 * size * 2 ^ k = size * 2 ^ (k + 1)
          rw [Nat.pow_succ, Nat.mul_comm 2 size, Nat.mul_assoc, Nat.mul_comm 2]

theorem units_strictMono : StrictMono units := strictMono_nat_of_lt_succ units_lt_units_succ

end Ladder

namespace Decimal
open Ladder

/-- Decimals are closer to each other than rungs are. -/
theorem scale_lt : scale < Nat.pow 10 places := by decide +kernel

namespace Band
variable {band : Band} {p n : Nat}

theorem contains_of_lt (hlow : band.low < p) (hhigh : p < band.high) : band.contains p := by
  unfold contains
  split
  · simp only [Bool.and_eq_true, decide_eq_true_eq]
    omega
  · simp only [Bool.and_eq_true, decide_eq_true_eq]
    omega

theorem le_of_contains (h : band.contains p) : band.low ≤ p ∧ p ≤ band.high := by
  unfold contains at h
  split at h
  · simpa using h
  · simp only [Bool.and_eq_true, decide_eq_true_eq] at h
    omega

theorem lt_of_contains (hopen : band.closed = false) (h : band.contains p) :
    band.low < p ∧ p < band.high := by
  simpa [contains, hopen] using h

theorem contains_of_onGrid? {k : Nat} (h : band.onGrid? k = some n) :
    band.contains (n * scale) := by
  unfold onGrid? at h
  dsimp only at h
  split at h
  · next hbelow habove =>
    obtain rfl := Option.some.inj h
    split
    · exact hbelow
    · exact habove
  · next hbelow _ =>
    obtain rfl := Option.some.inj h
    exact hbelow
  · next _ habove =>
    obtain rfl := Option.some.inj h
    exact habove
  · cases h

theorem contains_coarsest (hfinest : (band.onGrid? 0).isSome) (k : Nat) :
    band.contains (band.coarsest k * scale) := by
  induction k with
  | zero =>
    obtain ⟨n, hn⟩ := Option.isSome_iff_exists.mp hfinest
    rw [coarsest, hn, Option.getD_some]
    exact contains_of_onGrid? hn
  | succ k ih =>
    rw [coarsest]
    split
    · next n hn => exact contains_of_onGrid? hn
    · exact ih

end Band

/-- Steps are finer than bands, so the first step above a rung is in its band. -/
theorem contains_step_above (rank : Nat) :
    (Band.ofRank rank).contains (((Band.ofRank rank).centre / scale + 1) * scale) := by
  have hpos : 0 < scale := by decide +kernel
  have hfine := scale_lt
  have hprev : units (rank - 1) ≤ units rank := units_strictMono.monotone (Nat.sub_le rank 1)
  have hnext : 2 * units rank + 1 ≤ units rank + units (rank + 1) := by
    have := units_lt_units_succ rank
    omega
  have habove := Nat.lt_div_mul_add hpos (a := (Band.ofRank rank).centre)
  have hbelow := Nat.div_mul_le_self (Band.ofRank rank).centre scale
  have hlow : (Band.ofRank rank).low ≤ (Band.ofRank rank).centre :=
    Nat.mul_le_mul_right _ (by omega)
  have hhigh : (Band.ofRank rank).centre + Nat.pow 10 places ≤ (Band.ofRank rank).high := by
    have := Nat.mul_le_mul_right (Nat.pow 10 places) hnext
    rwa [Nat.add_mul (2 * units rank), Nat.one_mul] at this
  apply Band.contains_of_lt
  · rw [Nat.add_mul, Nat.one_mul]
    omega
  · rw [Nat.add_mul, Nat.one_mul]
    omega

theorem isSome_onGrid?_zero (rank : Nat) : ((Band.ofRank rank).onGrid? 0).isSome := by
  have habove := contains_step_above rank
  have hstep : Nat.pow 10 0 = 1 := rfl
  unfold Band.onGrid?
  dsimp only
  rw [hstep, Nat.one_mul, Nat.mul_one, habove]
  cases (Band.ofRank rank).contains ((Band.ofRank rank).centre / scale * scale) <;> rfl

theorem contains_shortest (rank : Nat) :
    (Band.ofRank rank).contains (shortest rank * scale) :=
  Band.contains_coarsest (isSome_onGrid?_zero rank) _

/-- Bands of different rungs do not overlap. -/
theorem eq_of_contains {r s p : Nat} (hr : (Band.ofRank r).contains p)
    (hs : (Band.ofRank s).contains p) : r = s := by
  wlog hlt : r < s generalizing r s
  · rcases Nat.lt_or_eq_of_le (Nat.le_of_not_lt hlt) with h | h
    · exact (this hs hr h).symm
    · exact h.symm
  exfalso
  have hpos : 0 < Nat.pow 10 places := by decide +kernel
  obtain ⟨-, hhigh⟩ := Band.le_of_contains hr
  obtain ⟨hlow, -⟩ := Band.le_of_contains hs
  have hends : (Band.ofRank s).low ≤ (Band.ofRank r).high := hlow.trans hhigh
  have hsum : units (s - 1) + units s ≤ units r + units (r + 1) :=
    Nat.le_of_mul_le_mul_right hends hpos
  have hprev : units r ≤ units (s - 1) := units_strictMono.monotone (by omega)
  have hnext : s = r + 1 := by
    by_contra hne
    have := units_strictMono (show r + 1 < s by omega)
    omega
  subst hnext
  -- The bands touch, and one of the two ranks is odd.
  have htouch : (Band.ofRank (r + 1)).low = (Band.ofRank r).high := rfl
  rcases Nat.mod_two_eq_zero_or_one r with heven | hodd
  · have hopen : (Band.ofRank (r + 1)).closed = false := by
      simp only [Band.ofRank, beq_eq_false_iff_ne]
      omega
    have := (Band.lt_of_contains hopen hs).1
    omega
  · have hopen : (Band.ofRank r).closed = false := by
      simp only [Band.ofRank, beq_eq_false_iff_ne]
      omega
    have := (Band.lt_of_contains hopen hr).2
    omega

theorem shortest_injective : Function.Injective shortest := by
  intro r s h
  have hr := contains_shortest r
  rw [h] at hr
  exact eq_of_contains hr (contains_shortest s)

end Decimal

namespace Number
open Decimal

theorem ofDigitChars_zeros (n : Nat) : Nat.ofDigitChars 10 (List.replicate n '0') 0 = 0 := by
  induction n with
  | zero => rfl
  | succ n ih =>
    rw [List.replicate_succ, Nat.ofDigitChars_cons]
    exact ih

/-- What is dropped from the end of a list can be put back. -/
theorem reverse_dropWhile_append (c : Char) (cs : List Char) :
    (cs.reverse.dropWhile (· == c)).reverse ++
      List.replicate (cs.length - (cs.reverse.dropWhile (· == c)).length) c = cs := by
  have hsplit : cs.reverse.takeWhile (· == c) ++ cs.reverse.dropWhile (· == c) = cs.reverse :=
    List.takeWhile_append_dropWhile
  have hlength := congrArg List.length hsplit
  rw [List.length_append, List.length_reverse] at hlength
  have hsame : cs.reverse.takeWhile (· == c) =
      List.replicate (cs.length - (cs.reverse.dropWhile (· == c)).length) c := by
    refine List.eq_replicate_iff.mpr ⟨by omega, fun d hd => ?_⟩
    simpa using List.mem_takeWhile_imp hd
  rw [← List.reverse_replicate, ← hsame, ← List.reverse_append, hsplit, List.reverse_reverse]

theorem length_toDigits_le {n k : Nat} (hk : 0 < k) (h : n < Nat.pow 10 k) :
    (Nat.toDigits 10 n).length ≤ k :=
  (Nat.length_toDigits_le_iff (by decide) hk).mpr h

/-- A fraction is determined by its digits. -/
theorem ofDigitChars_fractionDigits {steps : Nat} (h : steps < Nat.pow 10 places) :
    Nat.ofDigitChars 10 (fractionDigits steps ++
      List.replicate (places - (fractionDigits steps).length) '0') 0 = steps := by
  have hfits := length_toDigits_le (by decide) h
  have hback := reverse_dropWhile_append '0'
    (List.replicate (places - (Nat.toDigits 10 steps).length) '0' ++ Nat.toDigits 10 steps)
  rw [List.length_append, List.length_replicate, Nat.sub_add_cancel hfits] at hback
  unfold fractionDigits
  dsimp only
  rw [List.length_reverse, hback, Nat.ofDigitChars_append, ofDigitChars_zeros,
    Nat.ofDigitChars_toDigits (by decide) (by decide)]

theorem isDigit_of_mem_fractionDigits {steps : Nat} {c : Char} (h : c ∈ fractionDigits steps) :
    c.isDigit := by
  unfold fractionDigits at h
  have h := (List.dropWhile_sublist _).mem (List.mem_reverse.mp h)
  rcases List.mem_append.mp (List.mem_reverse.mp h) with h | h
  · rw [(List.mem_replicate.mp h).2]
    decide
  · exact Nat.isDigit_of_mem_toDigits (by decide) (by decide) h

theorem decimalText_eq (steps : Nat) :
    decimalText steps = Nat.toDigits 10 (steps / Nat.pow 10 places) ++
      if fractionDigits (steps % Nat.pow 10 places) = [] then []
      else '.' :: fractionDigits (steps % Nat.pow 10 places) := by
  unfold decimalText
  dsimp only
  split
  · next h => rw [if_pos h, List.append_nil]
  · next h => rw [if_neg h]

theorem mem_decimalText {steps : Nat} {c : Char} (h : c ∈ decimalText steps) :
    c.isDigit ∨ c = '.' := by
  rw [decimalText_eq] at h
  rcases List.mem_append.mp h with h | h
  · exact .inl (Nat.isDigit_of_mem_toDigits (by decide) (by decide) h)
  · split at h
    · cases h
    · rcases List.mem_cons.mp h with h | h
      · exact .inr h
      · exact .inl (isDigit_of_mem_fractionDigits h)

/-- The digits before the point and those behind it can be read off the text. -/
theorem decimalText_parts (steps : Nat) :
    (decimalText steps).takeWhile Char.isDigit =
        Nat.toDigits 10 (steps / Nat.pow 10 places) ∧
      ((decimalText steps).dropWhile Char.isDigit).tail =
        fractionDigits (steps % Nat.pow 10 places) := by
  have hwhole : ∀ c ∈ Nat.toDigits 10 (steps / Nat.pow 10 places), c.isDigit := fun c =>
    Nat.isDigit_of_mem_toDigits (by decide) (by decide)
  rw [decimalText_eq, List.takeWhile_append_of_pos hwhole, List.dropWhile_append_of_pos hwhole]
  split
  · next h => exact ⟨List.append_nil _, h.symm⟩
  · exact ⟨List.append_nil _, rfl⟩

theorem decimalText_injective : Function.Injective decimalText := by
  intro m n h
  have hpos : 0 < Nat.pow 10 places := by decide +kernel
  obtain ⟨hwhole, hfraction⟩ := decimalText_parts m
  rw [h, (decimalText_parts n).1] at hwhole
  rw [h, (decimalText_parts n).2] at hfraction
  have hdiv : m / Nat.pow 10 places = n / Nat.pow 10 places := by
    have := congrArg (Nat.ofDigitChars 10 · 0) hwhole
    simpa only [Nat.ofDigitChars_toDigits (b := 10) (by decide) (by decide)] using this.symm
  have hmod : m % Nat.pow 10 places = n % Nat.pow 10 places := by
    rw [← ofDigitChars_fractionDigits (Nat.mod_lt m hpos), ← hfraction,
      ofDigitChars_fractionDigits (Nat.mod_lt n hpos)]
  rw [← Nat.div_add_mod m (Nat.pow 10 places), hdiv, hmod, Nat.div_add_mod]

theorem mem_magnitudeText {rank : Nat} {c : Char} (h : c ∈ magnitudeText rank) :
    c.isDigit ∨ c ∈ ['.', 'i', 'n', 'f'] := by
  unfold magnitudeText at h
  split at h
  · exact .inr (List.mem_cons_of_mem '.' h)
  · rcases mem_decimalText h with h | rfl
    · exact .inl h
    · exact .inr List.mem_cons_self

theorem magnitudeText_injective : Function.Injective magnitudeText := by
  have hinf : ∀ steps, decimalText steps ≠ "inf".toList := by
    intro steps h
    have hi : 'i' ∈ decimalText steps := by
      rw [h]
      decide
    exact absurd (mem_decimalText hi) (by decide)
  intro r s h
  unfold magnitudeText at h
  split at h
  · next hr =>
    split at h
    · next hs => rw [hr, hs]
    · exact absurd h.symm (hinf _)
  · split at h
    · exact absurd h (hinf _)
    · exact shortest_injective (decimalText_injective h)

/-- The bits of a number without its sign. Beyond the rank of infinity they stand for no
number. -/
def rank (x : Float) : Nat := x.toBits.toNat % signBit

section Bits
open Float.Model Float.Model.UnpackedFloat

/-- From the rank of infinity on the exponent is all ones. -/
theorem unpackExponent_of_top_le {b : BitVec Format.binary64.numBits}
    (h : Ladder.top ≤ b.toNat % signBit) : unpackExponent b = -1#_ := by
  have hrank : 2047 * 2 ^ 52 ≤ b.toNat % 2 ^ 63 := h
  have hexponent : (unpackExponent b).toNat = b.toNat / 2 ^ 52 % 2 ^ 11 := by
    simp [unpackExponent, Nat.shiftRight_eq_div_pow]
  apply BitVec.eq_of_toNat_eq
  rw [hexponent, show (-1#11).toNat = 2047 from rfl]
  omega

/-- All that is not a number has the same bits. -/
theorem toBits_of_top_lt {x : Float} (h : Ladder.top < rank x) :
    x.toBits.toBitVec = packedNaN .binary64 := by
  obtain ⟨⟨bits, hvalid⟩⟩ := x
  have hrank : 2047 * 2 ^ 52 < bits.toNat % 2 ^ 63 := h
  apply hvalid.eq_packedNaN
  · exact unpackExponent_of_top_le (Nat.le_of_lt h)
  · intro hzero
    have hmantissa : (@unpackMantissa .binary64 bits.toBitVec).toNat =
        bits.toBitVec.toNat % 2 ^ 52 := by simp [unpackMantissa]
    rw [hzero, show (0#52).toNat = 0 from rfl, UInt64.toNat_toBitVec] at hmantissa
    omega

end Bits

theorem eq_of_toBits {x y : Float} (h : x.toBits = y.toBits) : x = y := by
  obtain ⟨⟨bits, _⟩⟩ := x
  obtain ⟨⟨bits', _⟩⟩ := y
  cases h
  rfl

theorem text_of_top_lt {x : Float} (h : Ladder.top < rank x) : text x = "NaN" := by
  unfold text
  exact if_pos h

/-- The text of a number is its sign, if that is shown, before its magnitude. -/
theorem toList_text {x : Float} (h : ¬ Ladder.top < rank x) :
    (text x).toList =
      (if x.toBits.toNat < signBit then [] else ['-']) ++ magnitudeText (rank x) := by
  unfold rank at h ⊢
  unfold text
  dsimp only
  rw [if_neg h]
  split
  · rw [String.toList_ofList, List.nil_append]
  · rw [String.toList_ofList, List.singleton_append]

theorem mem_text_of_number {x : Float} (hx : ¬ Ladder.top < rank x) {c : Char}
    (h : c ∈ (text x).toList) : c.isDigit ∨ c ∈ ['-', '.', 'i', 'n', 'f'] := by
  rw [toList_text hx] at h
  rcases List.mem_append.mp h with h | h
  · split at h
    · cases h
    · exact .inr (List.mem_of_mem_head? (congrArg some (List.mem_singleton.mp h).symm))
  · exact (mem_magnitudeText h).imp_right (List.mem_cons_of_mem '-')

/-- The characters of which texts of numbers are made. -/
theorem mem_text {x : Float} {c : Char} (h : c ∈ (text x).toList) :
    c.isDigit ∨ c ∈ ['-', '.', 'i', 'n', 'f', 'N', 'a'] := by
  by_cases hx : Ladder.top < rank x
  · rw [text_of_top_lt hx] at h
    have hall : "NaN".toList.all (['-', '.', 'i', 'n', 'f', 'N', 'a'].contains ·) := by decide
    exact .inr (List.contains_iff_mem.mp (List.all_eq_true.mp hall c h))
  · exact (mem_text_of_number hx h).imp_right (List.mem_append_left ['N', 'a'])

theorem text_ne_nan {x : Float} (h : ¬ Ladder.top < rank x) : text x ≠ "NaN" := by
  intro heq
  have hmem : 'N' ∈ (text x).toList := by
    rw [heq]
    decide
  exact absurd (mem_text_of_number h hmem) (by decide)

/-- A minus sign is shown exactly where the sign bit is set. -/
theorem minus_mem_text {x : Float} (h : ¬ Ladder.top < rank x) :
    '-' ∈ (text x).toList ↔ ¬ x.toBits.toNat < signBit := by
  have hmagnitude : '-' ∉ magnitudeText (rank x) := by
    intro hmem
    exact absurd (mem_magnitudeText hmem) (by decide)
  rw [toList_text h, List.mem_append, or_iff_left hmagnitude]
  split
  · next hsign => simp [hsign]
  · next hsign => simp [hsign]

/-- Numbers with the same text have the same sign and the same magnitude. -/
theorem toBits_of_text_eq {x y : Float} (hx : ¬ Ladder.top < rank x)
    (hy : ¬ Ladder.top < rank y) (h : text x = text y) : x.toBits = y.toBits := by
  have hsign : x.toBits.toNat < signBit ↔ y.toBits.toNat < signBit := by
    rw [← not_iff_not, ← minus_mem_text hx, ← minus_mem_text hy, h]
  have hrank : rank x = rank y := by
    have hlist := congrArg String.toList h
    rw [toList_text hx, toList_text hy, if_congr hsign rfl rfl] at hlist
    exact magnitudeText_injective (List.append_cancel_left hlist)
  have hxb := x.toBits.toNat_lt
  have hyb := y.toBits.toNat_lt
  have hbit : signBit = 2 ^ 63 := rfl
  apply UInt64.toNat_inj.mp
  unfold rank at hrank
  rw [hbit] at hrank hsign
  omega

/-- No two numbers have the same text. -/
theorem text_injective : Function.Injective text := by
  intro x y h
  apply eq_of_toBits
  by_cases hx : Ladder.top < rank x
  · by_cases hy : Ladder.top < rank y
    · exact UInt64.toBitVec_inj.mp ((toBits_of_top_lt hx).trans (toBits_of_top_lt hy).symm)
    · exact absurd (h.symm.trans (text_of_top_lt hx)) (text_ne_nan hy)
  · by_cases hy : Ladder.top < rank y
    · exact absurd (h.trans (text_of_top_lt hy)) (text_ne_nan hx)
    · exact toBits_of_text_eq hx hy h

end Number

end Reckon
