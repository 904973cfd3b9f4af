import Reckon.Proofs.NumberText

/-!
# A number is read back from its text

A numeral is read to the rung whose band it lies in: the highest rung below it and the next
one enclose it, and the middle between them decides. The shortest decimal of a rung lies in
the band of that rung, so its text is read back to the rung it was written for.
-/
namespace Reckon

namespace Ladder

/-- The rungs of an octave, with the first one of the next octave. -/
theorem units_add {octave m : Nat} (hm : octave = 0 ∨ octaveSize ≤ m)
    (hle : m ≤ 2 * octaveSize) : units (octave * octaveSize + m) = m * Nat.pow 2 octave := by
  have hpos := octaveSize_pos
  unfold units
  generalize octaveSize = size at *
  have hquot : (octave * size + m) / size = octave + m / size := by
    rw [Nat.add_comm, Nat.add_mul_div_right m octave hpos, Nat.add_comm]
  dsimp only
  rw [hquot]
  rcases Nat.lt_or_eq_of_le hle with hlt | rfl
  · have hsame : octave + m / size - 1 = octave := by
      rcases Nat.lt_or_ge m size with hsmall | hlarge
      · have := Nat.div_eq_of_lt hsmall
        omega
      · have : m / size = 1 := Nat.div_eq_of_lt_le (by omega) (by omega)
        omega
    rw [hsame, Nat.add_sub_cancel_left]
  · have hnext : octave + 2 * size / size - 1 = octave + 1 := by
      rw [Nat.mul_div_cancel _ hpos]
      omega
    have hrest : octave * size + 2 * size - (octave + 1) * size = size := by
      rw [Nat.add_mul]
      omega
    rw [hnext, hrest]
    change size * 2 ^ (octave + 1) = 2 * size * 2 ^ octave
    rw [Nat.pow_succ, Nat.mul_comm 2 size, Nat.mul_assoc, Nat.mul_comm 2]

/-- An amount lies between the highest rung below it and the next one. -/
theorem units_rankAtMost (amount : Nat) :
    units (rankAtMost amount) ≤ amount ∧ amount < units (rankAtMost amount + 1) := by
  have hpow : 0 < Nat.pow 2 (amount.log2 - 52) := Nat.pow_pos (by decide)
  have hsize : octaveSize = 2 ^ 52 := rfl
  have hbelow : amount / Nat.pow 2 (amount.log2 - 52) < 2 * octaveSize := by
    rw [Nat.div_lt_iff_lt_mul hpow, hsize]
    change amount < 2 * 2 ^ 52 * 2 ^ (amount.log2 - 52)
    rw [← Nat.pow_succ', ← Nat.pow_add]
    exact Nat.lt_log2_self.trans_le (Nat.pow_le_pow_right (by decide) (by omega))
  have habove : amount.log2 - 52 = 0 ∨ octaveSize ≤ amount / Nat.pow 2 (amount.log2 - 52) := by
    rcases Nat.eq_zero_or_pos (amount.log2 - 52) with hzero | hoctave
    · exact .inl hzero
    · have hne : amount ≠ 0 := by
        rintro rfl
        simp at hoctave
      refine .inr ((Nat.le_div_iff_mul_le hpow).mpr ?_)
      change 2 ^ 52 * 2 ^ (amount.log2 - 52) ≤ amount
      rw [← Nat.pow_add, Nat.add_sub_cancel' (by omega)]
      exact Nat.log2_self_le hne
  constructor
  · rw [rankAtMost, units_add habove hbelow.le]
    exact Nat.div_mul_le_self _ _
  · rw [rankAtMost, Nat.add_assoc, units_add (habove.imp_right Nat.le_succ_of_le) hbelow]
    exact Nat.lt_mul_of_div_lt (Nat.lt_succ_self _) hpow

/-- Rounding looks at the quotient only. -/
theorem nearest_mul {c : Nat} (hc : 0 < c) (num den : Nat) :
    nearest (num * c) (den * c) = nearest num den := by
  have hmiddle : ∀ a, a * (den * c) = a * den * c := fun a => (Nat.mul_assoc a den c).symm
  have htwice : 2 * (num * c) = 2 * num * c := (Nat.mul_assoc 2 num c).symm
  unfold nearest
  simp only [Nat.mul_div_mul_right num den hc, hmiddle, htwice, Nat.mul_lt_mul_right hc,
    beq_eq_decide, Nat.mul_right_cancel_iff hc]

/-- A quotient is rounded to a rank such that it is no further from the rung there than from
the rungs beside it. It is nearer to that rung if the rank is odd. -/
theorem exists_nearest (num : Nat) {den : Nat} (hden : 0 < den) :
    ∃ rank, nearest num den = min rank top ∧
      (units (rank - 1) + units rank) * den ≤ 2 * num ∧
      2 * num ≤ (units rank + units (rank + 1)) * den ∧
      (rank % 2 = 1 → (units (rank - 1) + units rank) * den < 2 * num ∧
        2 * num < (units rank + units (rank + 1)) * den) := by
  obtain ⟨hle, hlt⟩ := units_rankAtMost (num / den)
  rw [Nat.le_div_iff_mul_le hden] at hle
  rw [Nat.div_lt_iff_lt_mul hden] at hlt
  unfold nearest
  generalize rankAtMost (num / den) = low at *
  dsimp only
  simp only [Nat.add_mul]
  split
  · next hupper =>
    have hnext := Nat.mul_lt_mul_of_pos_right (units_lt_units_succ (low + 1)) hden
    simp only [Bool.or_eq_true, Bool.and_eq_true, decide_eq_true_eq, beq_iff_eq] at hupper
    refine ⟨low + 1, rfl, ?_⟩
    rw [Nat.add_sub_cancel]
    exact ⟨by omega, by omega, fun hodd => by omega⟩
  · next hlower =>
    simp only [Bool.or_eq_true, Bool.and_eq_true, decide_eq_true_eq, beq_iff_eq] at hlower
    have hprev : units (low - 1) * den ≤ units low * den :=
      Nat.mul_le_mul_right den (units_strictMono.monotone (Nat.sub_le low 1))
    refine ⟨low, rfl, by omega, by omega, fun hodd => ?_⟩
    have hstrict : units (low - 1) * den < units low * den :=
      Nat.mul_lt_mul_of_pos_right (units_strictMono (by omega)) hden
    omega

end Ladder

namespace Decimal
open Ladder

/-- A decimal is rounded to the rung whose band it lies in. -/
theorem exists_contains (steps : Nat) :
    ∃ rank, nearest (steps * unitsPerOne) (Nat.pow 10 places) = min rank top ∧
      (Band.ofRank rank).contains (steps * scale) := by
  have hpos : 0 < Nat.pow 10 places := by decide +kernel
  have hscale : steps * scale = 2 * (steps * unitsPerOne) := by
    rw [scale, Nat.mul_left_comm]
  obtain ⟨rank, hrank, hlow, hhigh, hodd⟩ := exists_nearest (steps * unitsPerOne) hpos
  refine ⟨rank, hrank, ?_⟩
  unfold Band.contains Band.ofRank
  rw [hscale]
  split
  · simp only [Bool.and_eq_true, decide_eq_true_eq]
    exact ⟨hlow, hhigh⟩
  · next hopen =>
    simp only [beq_iff_eq] at hopen
    simp only [Bool.and_eq_true, decide_eq_true_eq]
    exact hodd (by omega)

theorem nearest_shortest {rank : Nat} (h : rank ≤ top) :
    nearest (shortest rank * unitsPerOne) (Nat.pow 10 places) = rank := by
  obtain ⟨other, hother, hcontains⟩ := exists_contains (shortest rank)
  rw [hother, eq_of_contains hcontains (contains_shortest rank), Nat.min_eq_left h]

end Decimal

namespace Number
open Decimal Ladder

/-- The fraction of a decimal has at most as many digits as decimals have places. -/
theorem length_fractionDigits_le {steps : Nat} (h : steps < Nat.pow 10 places) :
    (fractionDigits steps).length ≤ places := by
  have hfits := length_toDigits_le (by decide) h
  unfold fractionDigits
  dsimp only
  rw [List.length_reverse]
  refine (List.dropWhile_sublist _).length_le.trans ?_
  rw [List.length_reverse, List.length_append, List.length_replicate]
  omega

/-- The digits of a decimal, read as a numeral, are rounded as the decimal is. -/
theorem rankOfNumeral_digits (steps : Nat) :
    rankOfNumeral (Nat.toDigits 10 (steps / Nat.pow 10 places))
        (fractionDigits (steps % Nat.pow 10 places)) =
      nearest (steps * unitsPerOne) (Nat.pow 10 places) := by
  have hpos : 0 < Nat.pow 10 places := by decide +kernel
  have hmod := Nat.mod_lt steps hpos
  have hlength := length_fractionDigits_le hmod
  have hfraction := ofDigitChars_fractionDigits hmod
  have hsplit := Nat.div_add_mod steps (Nat.pow 10 places)
  generalize steps / Nat.pow 10 places = whole at *
  generalize fractionDigits (steps % Nat.pow 10 places) = fraction at *
  -- Zeros behind the last digit multiply the number and its unit alike.
  have hnum : Nat.ofDigitChars 10 (Nat.toDigits 10 whole ++ fraction) 0 *
      10 ^ (places - fraction.length) = steps := by
    have hall := Nat.ofDigitChars_append (b := 10) (l := Nat.toDigits 10 whole ++ fraction)
      (m := List.replicate (places - fraction.length) '0') 0
    rw [Nat.ofDigitChars_replicate_zero, List.append_assoc, Nat.ofDigitChars_append,
      Nat.ofDigitChars_ten_toDigits, Nat.ofDigitChars_eq_ofDigitChars_zero, hfraction,
      List.length_append, List.length_replicate, Nat.add_sub_cancel' hlength] at hall
    rw [Nat.mul_comm, ← hall, ← Nat.pow_eq, hsplit]
  have hden : Nat.pow 10 fraction.length * 10 ^ (places - fraction.length) = Nat.pow 10 places := by
    rw [Nat.pow_eq, Nat.pow_eq, ← Nat.pow_add, Nat.add_sub_cancel' hlength]
  have hscale : 0 < 10 ^ (places - fraction.length) := Nat.pow_pos (by decide)
  rw [rankOfNumeral, ← nearest_mul hscale, Nat.mul_right_comm, hnum, hden]

theorem rankOfNumeral_shortest {rank : Nat} (h : rank ≤ top) :
    rankOfNumeral (Nat.toDigits 10 (shortest rank / Nat.pow 10 places))
      (fractionDigits (shortest rank % Nat.pow 10 places)) = rank := by
  rw [rankOfNumeral_digits, nearest_shortest h]

end Number

end Reckon
