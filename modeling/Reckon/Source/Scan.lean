import Reckon.Diagnostic
import Reckon.Source.Segment

/-!
# Scanning

Segments are laid out along the text with their byte positions and lines. The line
is kept by a counter that line breaks between tokens and those inside strings
advance, and a segment is on the line of the counter behind it. Scanning keeps the
tokens, closed by an `eof` token, and the errors; trivia contribute to neither.
-/
namespace Reckon

/-- A segment at its place in the text. -/
structure Placed extends Segment where
  /-- Byte position of the first character. -/
  start : Nat
  /-- Byte position after the last character. -/
  stop : Nat
  line : Nat

def lineBreaks (text : List Char) : Nat := text.count '\n'

def byteLength (text : List Char) : Nat := text.foldr (fun c n => c.utf8Size + n) 0

/-- What a segment adds to the line counter. -/
def Segment.advance (s : Segment) : Nat :=
  match s.role with
  | .token .string _ | .unclosed => lineBreaks s.text
  | .trivia => if s.text = ['\n'] then 1 else 0
  | _ => 0

/-- The line counter behind some segments. -/
def lineAfter (line : Nat) (segments : List Segment) : Nat :=
  segments.foldl (fun n s => n + s.advance) line

namespace Placed

/-- Lays out segments from a byte position and a line on. -/
def along (start line : Nat) : List Segment → List Placed
  | [] => []
  | s :: rest =>
    let stop := start + byteLength s.text
    let last := line + s.advance
    { toSegment := s, start, stop, line := last } :: along stop last rest

def token? (p : Placed) : Option Token :=
  match p.role with
  | .token kind literal => some { kind, lexeme := String.ofList p.text, literal, line := p.line }
  | _ => none

def error? (p : Placed) : Option ScanError :=
  match p.role with
  | .stray c => some (.unexpectedCharacter c p.line)
  | .unclosed => some (.unterminatedString p.line)
  | _ => none

end Placed

/-- The segments of a source text whose first line has the given number. -/
def Source.layout (source : List Char) (line : Nat) : List Placed :=
  Placed.along 0 line (Segment.split source)

structure Scan where
  /-- Closed by exactly one `eof` token. -/
  tokens : List Token
  errors : List ScanError
  deriving BEq

namespace Scan

def isClean (scan : Scan) : Bool := scan.errors.isEmpty

def ofChars (source : List Char) : Scan where
  tokens := (Source.layout source 1).filterMap Placed.token? ++
    [.eof (lineAfter 1 (Segment.split source))]
  errors := (Source.layout source 1).filterMap Placed.error?

end Scan

/-- The tokens and scan errors of a source text. -/
def scan (source : String) : Scan := Scan.ofChars source.toList

end Reckon
