import Reckon.Number.Ladder

/-!
# Shortest decimals

The decimals that read back as a given rung fill a band around it, from halfway
to the rung below to halfway to the rung above. A band always holds a multiple of
`10 ^ (-324)`, so decimals are counted in those steps. The shortest decimal of a
rung is the member of its band on the coarsest grid of powers of ten that has
one. Of two members on that grid the nearer is taken, and the upper one when both
are equally near.
-/
namespace Reckon.Decimal
open Ladder

/-- Decimals are counted in steps of `10 ^ (-places)`. -/
def places : Nat := 324

/-- The decimals that read back as one rung. Positions are counted so that a
decimal of `n` steps stands at `n * scale`. -/
structure Band where
  low : Nat
  centre : Nat
  high : Nat
  /-- The ends belong to the band when the rung has an even rank. -/
  closed : Bool

/-- Distance between the positions of neighbouring decimals. -/
def scale : Nat := 2 * unitsPerOne

/-- The band of the rung at a rank. -/
def Band.ofRank (rank : Nat) : Band where
  low := (units (rank - 1) + units rank) * Nat.pow 10 places
  centre := 2 * units rank * Nat.pow 10 places
  high := (units rank + units (rank + 1)) * Nat.pow 10 places
  closed := rank % 2 == 0

def Band.contains (band : Band) (position : Nat) : Bool :=
  if band.closed then band.low ≤ position && position ≤ band.high
  else band.low < position && position < band.high

/-- The best member of the band among the multiples of `10 ^ k` steps. -/
def Band.onGrid? (band : Band) (k : Nat) : Option Nat :=
  let step := Nat.pow 10 k
  let below := band.centre / (step * scale) * step
  let above := below + step
  let nearer := if band.centre * 2 < (below + above) * scale then below else above
  match band.contains (below * scale), band.contains (above * scale) with
  | true, true => some nearer
  | true, false => some below
  | false, true => some above
  | false, false => none

/-- The member of the band on the coarsest grid not coarser than `10 ^ k`. -/
def Band.coarsest (band : Band) : Nat → Nat
  | 0 => (band.onGrid? 0).getD (band.centre / scale)
  | k + 1 =>
    match band.onGrid? (k + 1) with
    | some steps => steps
    | none => band.coarsest k

/-- The shortest decimal of a rung, in steps. The search starts at a power of ten
beyond the whole band. -/
def shortest (rank : Nat) : Nat :=
  let band := Band.ofRank rank
  band.coarsest ((band.centre / scale).log2 / 3 + 1)

end Reckon.Decimal
