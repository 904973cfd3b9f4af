import Reckon.Token

/-!
# Segments of a source text

A source text is cut into consecutive segments, each the longest stretch that
some token pattern matches at its position. A character that starts no pattern is
a segment by itself. The cut is given as the number of characters that follow the
first one, so segments are never empty and together make up the text.
-/
namespace Reckon

/-- What a segment contributes. -/
inductive Role where
  | token (kind : Kind) (literal : Option Literal)
  /-- Blanks, line breaks and comments. -/
  | trivia
  /-- A character that starts no pattern. -/
  | stray (character : Char)
  /-- A string whose closing quote is missing. It extends to the end of the text. -/
  | unclosed
  deriving BEq

structure Segment where
  role : Role
  text : List Char
  deriving BEq

namespace Segment

def isWordStart (c : Char) : Bool := c.isAlpha || c == '_'

def isWordChar (c : Char) : Bool := c.isAlphanum || c == '_'

/-- Blanks within a line. -/
def isBlank (c : Char) : Bool := c == ' ' || c == '\t' || c == '\r' || c == '\x0c'

/-- Digits, and a fraction if a digit follows the point. -/
def numeral (c : Char) (cs : List Char) : Role × Nat :=
  let whole := cs.takeWhile Char.isDigit
  let fraction :=
    match cs.dropWhile Char.isDigit with
    | '.' :: rest => rest.takeWhile Char.isDigit
    | _ => []
  let value := Number.ofNumeral (c :: whole) fraction
  (.token .number (some (.number value)),
    whole.length + if fraction.isEmpty then 0 else fraction.length + 1)

def word (c : Char) (cs : List Char) : Role × Nat :=
  let tail := cs.takeWhile isWordChar
  (.token (Kind.ofWord (c :: tail)) none, tail.length)

/-- The text up to the next quote. -/
def quoted (cs : List Char) : Role × Nat :=
  let inner := cs.takeWhile (· != '"')
  match cs.dropWhile (· != '"') with
  | [] => (.unclosed, inner.length)
  | _ :: _ => (.token .string (some (.string (String.ofList inner))), inner.length + 1)

/-- Symbols, of which one that takes an equals sign prefers to. -/
def symbol (c : Char) (cs : List Char) : Role × Nat :=
  match (if cs.head? = some '=' then Kind.withEqual? c else none), Kind.ofChar? c with
  | some kind, _ => (.token kind none, 1)
  | none, some kind => (.token kind none, 0)
  | none, none => (.stray c, 0)

/-- The segment at the front of a text: its role, and how many characters belong to
it after the first. -/
def leading (c : Char) (cs : List Char) : Role × Nat :=
  if c.isDigit then numeral c cs
  else if isWordStart c then word c cs
  else if c = '"' then quoted cs
  else if c = '/' ∧ cs.head? = some '/' then (.trivia, (cs.takeWhile (· != '\n')).length)
  else if c = '\n' then (.trivia, 0)
  else if isBlank c then (.trivia, (cs.takeWhile isBlank).length)
  else symbol c cs

/-- The segments of a text, in order. -/
def split : List Char → List Segment
  | [] => []
  | c :: cs =>
    let cut := leading c cs
    ⟨cut.1, c :: cs.take cut.2⟩ :: split (cs.drop cut.2)
termination_by cs => cs.length

@[simp] theorem split_nil : split [] = [] := by rw [split]

theorem split_cons (c : Char) (cs : List Char) :
    split (c :: cs) =
      ⟨(leading c cs).1, c :: cs.take (leading c cs).2⟩ :: split (cs.drop (leading c cs).2) := by
  rw [split]

/-- Nothing of the text is lost. -/
theorem flatMap_text_split (cs : List Char) : (split cs).flatMap Segment.text = cs := by
  fun_induction split cs with
  | case1 => rfl
  | case2 c cs cut ih => simp [ih]

end Segment

end Reckon
