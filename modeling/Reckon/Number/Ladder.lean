/-!
# The ladder of representable magnitudes

Every finite binary64 magnitude is a whole number of units of `2 ^ (-1074)`.
Read without its sign, the bit pattern of a magnitude is its rank in increasing
order, so the representable magnitudes form a ladder of rungs indexed by rank.
The rung at `top` stands for infinity and lies where one more finite magnitude
would, which is what rounding to nearest asks of it.
-/
namespace Reckon.Ladder

/-- Number of units in one. -/
def unitsPerOne : Nat := Nat.pow 2 1074

/-- Number of rungs in an octave, and the weight of the leading bit in the first one. -/
def octaveSize : Nat := Nat.pow 2 52

/-- The rank of infinity. -/
def top : Nat := 2047 * octaveSize

/-- The rung at a rank, in units. Within an octave rungs are evenly spaced. -/
def units (rank : Nat) : Nat :=
  let octave := rank / octaveSize - 1
  (rank - octave * octaveSize) * Nat.pow 2 octave

/-- The rank of the highest rung that is at most `amount` units. -/
def rankAtMost (amount : Nat) : Nat :=
  let octave := amount.log2 - 52
  octave * octaveSize + amount / Nat.pow 2 octave

/-- The rank nearest to `num / den` units. Halfway between two rungs the even
rank wins, and everything beyond the ladder is infinity. -/
def nearest (num den : Nat) : Nat :=
  let low := rankAtMost (num / den)
  let middle := (units low + units (low + 1)) * den
  let upper := middle < 2 * num || (middle == 2 * num && low % 2 == 1)
  min (if upper then low + 1 else low) top

@[simp] theorem units_zero : units 0 = 0 := by simp [units]

end Reckon.Ladder
