/-!
# Blank text

White space as the Unicode property `White_Space` has it: twenty-five code points.
-/
namespace Reckon.Text

/-- The code points of `White_Space`, as closed ranges in increasing order. -/
def blankRanges : List (Nat × Nat) :=
  [(0x9, 0xd), (0x20, 0x20), (0x85, 0x85), (0xa0, 0xa0), (0x1680, 0x1680), (0x2000, 0x200a),
    (0x2028, 0x2029), (0x202f, 0x202f), (0x205f, 0x205f), (0x3000, 0x3000)]

def isBlankChar (c : Char) : Bool := blankRanges.any fun (lo, hi) => lo ≤ c.toNat && c.toNat ≤ hi

/-- Whether a text has nothing but white space. -/
def isBlank (text : String) : Bool := text.toList.all isBlankChar

example : (blankRanges.map fun (lo, hi) => hi - lo + 1).sum = 25 := by decide

end Reckon.Text
