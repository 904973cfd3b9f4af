import Reckon.Proofs.NumberText

/-!
# The bits of a number

The bit pattern of a number is its sign before its rank. Unpacked, the pattern of a rung
gives the octave and the significand of the rung, and these are packed into the same pattern
again. So a number is given by its sign and its rank, and negation changes the sign only.
-/
namespace Reckon.Number
open Float.Model Float.Model.UnpackedFloat Ladder

/-- The bit pattern of the rung at a rank, with a sign. -/
def pattern (s : Sign) (rank : Nat) : BitVec Format.binary64.numBits :=
  packComponents .binary64 s (BitVec.ofNat 11 (rank / octaveSize)) (BitVec.ofNat 52 rank)

theorem toNat_pattern (s : Sign) {rank : Nat} (h : rank < signBit) :
    (pattern s rank).toNat = s.toBitVec.toNat * signBit + rank := by
  have hsize : octaveSize = 2 ^ 52 := rfl
  have hbit : signBit = 2 ^ 63 := rfl
  rw [hbit] at h ⊢
  unfold pattern packComponents
  rw [BitVec.toNat_append, BitVec.toNat_append, ← Nat.shiftLeft_add_eq_or_of_lt (BitVec.isLt _),
    ← Nat.shiftLeft_add_eq_or_of_lt (BitVec.isLt _), Nat.shiftLeft_eq, Nat.shiftLeft_eq,
    BitVec.toNat_ofNat, BitVec.toNat_ofNat, hsize]
  omega

theorem toNat_pattern_positive {rank : Nat} (h : rank < signBit) :
    (pattern .positive rank).toNat = rank := by
  have hpositive : Sign.positive.toBitVec.toNat = 0 := rfl
  rw [toNat_pattern _ h, hpositive, Nat.zero_mul, Nat.zero_add]

/-- A number is given by its sign and its rank. -/
theorem toBits_eq_pattern (x : Float) : x.toBits.toBitVec =
    pattern (if x.toBits.toNat < signBit then .positive else .negative) (rank x) := by
  have hbit : signBit = 2 ^ 63 := rfl
  have hbits : x.toBits.toNat < 2 ^ 64 := x.toBits.toNat_lt
  have hrank : rank x < signBit := Nat.mod_lt _ (by decide)
  have hpositive : Sign.positive.toBitVec.toNat = 0 := rfl
  have hnegative : Sign.negative.toBitVec.toNat = 1 := rfl
  apply BitVec.eq_of_toNat_eq
  rw [toNat_pattern _ hrank, UInt64.toNat_toBitVec, rank, hbit]
  split
  · omega
  · omega

/-- A rank is that of zero, of a significand in an octave, or of infinity. -/
theorem rank_cases {rank : Nat} (h : rank ≤ top) :
    rank = 0 ∨
    (∃ octave m, rank = octave * octaveSize + m ∧ octave < 2046 ∧
      (octave = 0 ∨ octaveSize ≤ m) ∧ 0 < m ∧ m < 2 * octaveSize) ∨
    rank = top := by
  have hsize : octaveSize = 2 ^ 52 := rfl
  have hend : top = 2047 * 2 ^ 52 := rfl
  rw [hend] at h ⊢
  rw [hsize]
  rcases Nat.eq_zero_or_pos rank with hzero | hpos
  · exact .inl hzero
  rcases Nat.lt_or_eq_of_le h with hlt | heq
  · refine .inr (.inl ?_)
    rcases Nat.lt_or_ge rank (2 ^ 52) with hsmall | hlarge
    · exact ⟨0, rank, by omega, by decide, .inl rfl, hpos, by omega⟩
    · exact ⟨rank / 2 ^ 52 - 1, rank % 2 ^ 52 + 2 ^ 52, by omega, by omega, .inr (by omega),
        by omega, by omega⟩
  · exact .inr (.inr heq)

section Unpacked
variable {octave m : Nat} (s : Sign)

theorem ofBitVec_unpackSign (e : BitVec 11) (m : BitVec 52) :
    Sign.ofBitVec (unpackSign (packComponents .binary64 s e m)) = s := by
  delta unpackSign packComponents
  simp only [BitVec.extractLsb]
  rw [BitVec.extractLsb'_append_eq_of_le (by decide),
    BitVec.extractLsb'_append_eq_of_le (by decide)]
  cases s <;> rfl

/-- Below the first octave the exponent is zero. -/
theorem pattern_of_lt (h : m < octaveSize) :
    pattern s m = packComponents .binary64 s 0#11 (BitVec.ofNat 52 m) := by
  rw [pattern, Nat.div_eq_of_lt h]

/-- In an octave the exponent counts the octaves, and the leading bit is left out. -/
theorem pattern_of_le (h : octaveSize ≤ m) (hlt : m < 2 * octaveSize) :
    pattern s (octave * octaveSize + m) =
      packComponents .binary64 s (BitVec.ofNat 11 (octave + 1)) (BitVec.ofNat 52 m) := by
  have hquot : (octave * octaveSize + m) / octaveSize = octave + 1 :=
    Nat.div_eq_of_lt_le (by rw [Nat.add_mul]; omega) (by rw [Nat.add_mul, Nat.add_mul]; omega)
  have hbits : BitVec.ofNat 52 (octave * octaveSize + m) = BitVec.ofNat 52 m := by
    apply BitVec.eq_of_toNat_eq
    rw [BitVec.toNat_ofNat, BitVec.toNat_ofNat]
    exact Nat.mul_add_mod_self_right octave _ m
  rw [pattern, hquot, hbits]

theorem unpack_pattern_of_lt (h : m < octaveSize) (hpos : 0 < m) :
    UnpackedFloat.unpack .binary64 (pattern s m) = .finite s m (-1074) hpos := by
  have hmantissa : (BitVec.ofNat 52 m).toNat = m := Nat.mod_eq_of_lt h
  have hnonzero : BitVec.ofNat 52 m ≠ 0#52 := by
    intro hzero
    rw [hzero] at hmantissa
    exact hpos.ne hmantissa
  rw [pattern_of_lt s h]
  delta UnpackedFloat.unpack
  dsimp only
  rw [if_neg (unpackExponent_packComponents.trans_ne (by decide)),
    if_pos unpackExponent_packComponents,
    dif_neg (unpackMantissa_packComponents.trans_ne hnonzero), finite.injEq,
    unpackMantissa_packComponents, unpackExponent_packComponents]
  exact ⟨ofBitVec_unpackSign s _ _, hmantissa, rfl⟩

theorem unpack_pattern_of_le (h : octaveSize ≤ m) (hlt : m < 2 * octaveSize) (hpos : 0 < m)
    (hoctave : octave < 2046) :
    UnpackedFloat.unpack .binary64 (pattern s (octave * octaveSize + m)) =
      .finite s m (octave - 1074) hpos := by
  have hsize : octaveSize = 2 ^ 52 := rfl
  have hbias : (Format.binary64.exponentBias : Int) = 1023 := rfl
  have hexponent : (BitVec.ofNat 11 (octave + 1)).toNat = octave + 1 :=
    Nat.mod_eq_of_lt (by omega)
  have hones : BitVec.ofNat 11 (octave + 1) ≠ -1#11 := by
    intro heq
    have hall : (-1#11).toNat = 2047 := rfl
    rw [heq] at hexponent
    omega
  have hzero : BitVec.ofNat 11 (octave + 1) ≠ 0#11 := by
    intro heq
    rw [heq] at hexponent
    cases hexponent
  have hmantissa : (1#1 ++ BitVec.ofNat 52 m).toNat = m := by
    rw [BitVec.toNat_append, ← Nat.shiftLeft_add_eq_or_of_lt (BitVec.isLt _), Nat.shiftLeft_eq,
      BitVec.toNat_ofNat]
    change 1 * 2 ^ 52 + m % 2 ^ 52 = m
    omega
  rw [pattern_of_le s h hlt]
  delta UnpackedFloat.unpack
  dsimp only
  rw [if_neg (unpackExponent_packComponents.trans_ne hones),
    if_neg (unpackExponent_packComponents.trans_ne hzero), finite.injEq,
    unpackMantissa_packComponents, unpackExponent_packComponents, hexponent, hbias]
  refine ⟨ofBitVec_unpackSign s _ _, hmantissa, ?_⟩
  omega

theorem unpack_pattern (hm : octave = 0 ∨ octaveSize ≤ m) (hlt : m < 2 * octaveSize)
    (hpos : 0 < m) (hoctave : octave < 2046) :
    UnpackedFloat.unpack .binary64 (pattern s (octave * octaveSize + m)) =
      .finite s m (octave - 1074) hpos := by
  rcases Nat.lt_or_ge m octaveSize with hsmall | hlarge
  · obtain rfl : octave = 0 := hm.resolve_right (Nat.not_le.mpr hsmall)
    rw [Nat.zero_mul, Nat.zero_add, unpack_pattern_of_lt s hsmall hpos]
    rfl
  · exact unpack_pattern_of_le s hlarge hlt hpos hoctave

theorem pack_finite (hm : octave = 0 ∨ octaveSize ≤ m) (hlt : m < 2 * octaveSize)
    (hpos : 0 < m) (hoctave : octave < 2046) :
    UnpackedFloat.pack .binary64 (.finite s m (octave - 1074) hpos) =
      pattern s (octave * octaveSize + m) := by
  have hsize : octaveSize = 2 ^ 52 := rfl
  have hbits : Format.binary64.mantissaBits = 53 := rfl
  have hexponent : ((octave : Int) - 1074 + (Format.binary64.exponentBias : Nat) +
      (Format.binary64.mantissaBitsWithoutImplicit : Nat)).toNat = octave + 1 := by
    change ((octave : Int) - 1074 + 1023 + 52).toNat = octave + 1
    omega
  have hfinite : ¬ 2 ^ 11 ≤ octave + 1 + 1 := by omega
  unfold UnpackedFloat.pack
  simp only [hexponent, hbits]
  rw [if_neg hfinite]
  rcases Nat.lt_or_ge m octaveSize with hsmall | hlarge
  · obtain rfl : octave = 0 := hm.resolve_right (Nat.not_le.mpr hsmall)
    have hlog : m.log2 < 52 := (Nat.log2_lt hpos.ne').mpr hsmall
    rw [if_neg (by omega), Nat.zero_mul, Nat.zero_add, pattern_of_lt s hsmall]
  · have hlog : m.log2 = 52 := (Nat.log2_eq_iff hpos.ne').mpr ⟨hlarge, hlt⟩
    rw [if_pos (by omega), pattern_of_le s hlarge hlt]

theorem unpack_pattern_zero : UnpackedFloat.unpack .binary64 (pattern s 0) = .zero s := by
  rw [pattern_of_lt s (by decide)]
  delta UnpackedFloat.unpack
  dsimp only
  rw [if_neg (unpackExponent_packComponents.trans_ne (by decide)),
    if_pos unpackExponent_packComponents, dif_pos unpackMantissa_packComponents,
    ofBitVec_unpackSign]

theorem unpack_pattern_top : UnpackedFloat.unpack .binary64 (pattern s top) = .infinity s := by
  have hpattern : pattern s top = packComponents .binary64 s (-1#11) 0#52 := rfl
  rw [hpattern]
  delta UnpackedFloat.unpack
  dsimp only
  rw [if_pos unpackExponent_packComponents, if_pos unpackMantissa_packComponents,
    ofBitVec_unpackSign]

end Unpacked

/-- The pattern of a number is unpacked to a number that is packed to the same pattern, and
whose sign stands apart from the rest. -/
theorem exists_unpacked {rank : Nat} (h : rank ≤ top) :
    ∃ number : Sign → UnpackedFloat, ∀ s,
      UnpackedFloat.unpack .binary64 (pattern s rank) = number s ∧
      UnpackedFloat.pack .binary64 (number s) = pattern s rank ∧
      (number s).neg = number (-s) := by
  obtain rfl | ⟨octave, m, rfl, hoctave, hm, hpos, hlt⟩ | rfl := rank_cases h
  · exact ⟨.zero, fun s => ⟨unpack_pattern_zero s, rfl, rfl⟩⟩
  · exact ⟨fun s => .finite s m (octave - 1074) hpos, fun s =>
      ⟨unpack_pattern s hm hlt hpos hoctave, pack_finite s hm hlt hpos hoctave, rfl⟩⟩
  · exact ⟨.infinity, fun s => ⟨unpack_pattern_top s, rfl, rfl⟩⟩

theorem toBits_ofBits {rank : Nat} (h : rank ≤ top) :
    (Float.ofBits (UInt64.ofNat rank)).toBits.toBitVec = pattern .positive rank := by
  have hlt : rank < signBit := h.trans_lt (by decide)
  have hbits : (UInt64.ofNat rank).toBitVec = pattern .positive rank := by
    have hword : signBit ≤ 2 ^ 64 := by decide
    apply BitVec.eq_of_toNat_eq
    rw [toNat_pattern_positive hlt, UInt64.toNat_toBitVec,
      UInt64.toNat_ofNat_of_lt' (hlt.trans_le hword)]
  obtain ⟨number, hnumber⟩ := exists_unpacked h
  obtain ⟨hunpack, hpack, -⟩ := hnumber .positive
  change UnpackedFloat.pack .binary64 (UnpackedFloat.unpack .binary64 _) = _
  rw [hbits, hunpack, hpack]

theorem toNat_toBits_ofBits {rank : Nat} (h : rank ≤ top) :
    (Float.ofBits (UInt64.ofNat rank)).toBits.toNat = rank := by
  have hbits := congrArg BitVec.toNat (toBits_ofBits h)
  rwa [toNat_pattern_positive (h.trans_lt (by decide))] at hbits

theorem rank_ofBits {n : Nat} (h : n ≤ top) : rank (Float.ofBits (UInt64.ofNat n)) = n := by
  rw [rank, toNat_toBits_ofBits h, Nat.mod_eq_of_lt (h.trans_lt (by decide))]

theorem toBits_neg {x : Float} {s : Sign} {rank : Nat} (h : rank ≤ top)
    (hx : x.toBits.toBitVec = pattern s rank) :
    (-x).toBits.toBitVec = pattern (-s) rank := by
  obtain ⟨number, hnumber⟩ := exists_unpacked h
  change UnpackedFloat.pack .binary64 (UnpackedFloat.unpack .binary64 x.toBits.toBitVec).neg = _
  rw [hx, (hnumber s).1, (hnumber s).2.2, (hnumber (-s)).2.1]

theorem ofBits_rank {x : Float} (h : rank x ≤ top) (hsign : x.toBits.toNat < signBit) :
    Float.ofBits (UInt64.ofNat (rank x)) = x := by
  have hbits := toBits_eq_pattern x
  rw [if_pos hsign, ← toBits_ofBits h] at hbits
  exact (eq_of_toBits (UInt64.toBitVec_inj.mp hbits)).symm

theorem neg_ofBits_rank {x : Float} (h : rank x ≤ top) (hsign : ¬ x.toBits.toNat < signBit) :
    -Float.ofBits (UInt64.ofNat (rank x)) = x := by
  have hbits := toBits_eq_pattern x
  rw [if_neg hsign] at hbits
  have hneg := toBits_neg h (toBits_ofBits h)
  exact eq_of_toBits (UInt64.toBitVec_inj.mp (hneg.trans hbits.symm))

theorem rank_lt_top_of_isFinite {x : Float} (h : x.isFinite) : rank x < top := by
  by_contra hge
  have hones := unpackExponent_of_top_le (b := x.toBits.toBitVec) (Nat.le_of_not_lt hge)
  have hunpack : (UnpackedFloat.unpack .binary64 x.toBits.toBitVec).isFinite = false := by
    delta UnpackedFloat.unpack
    dsimp only
    rw [if_pos hones]
    split <;> rfl
  exact Bool.noConfusion (hunpack.symm.trans h)

end Reckon.Number
