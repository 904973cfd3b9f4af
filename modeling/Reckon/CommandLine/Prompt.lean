import Reckon.CommandLine.Response
import Reckon.Text.Blank

/-!
# The prompt

The prompt answers line after line, each as a source text of its own, with the
line break included. Blank lines are passed over. The session ends with the input
or at a line that is not text, and its exit code does not depend on the lines.
-/
namespace Reckon.CommandLine.Prompt

/-- What is shown before a line is read. -/
def mark : String := "> "

/-- What is written for one line. -/
def answer (options : Options) (stamp line : String) : Response :=
  if Text.isBlank line then {} else { respond options stamp line with exit := 0 }

/-- What is written for a line that is not text. -/
def notText : Response where
  stderr := lines ["Failed to read input: " ++ Unreadable.notText.reason]

/-- What a line leads to. -/
structure Turn where
  response : Response
  /-- Whether another line is asked for. -/
  goesOn : Bool

/-- What is done with the bytes of one line. There are none when the input has ended. -/
def turn (options : Options) (stamp : String) (line : ByteArray) : Turn :=
  if line.isEmpty then ⟨{}, false⟩
  else
    match String.fromUTF8? line with
    | none => ⟨notText, false⟩
    | some text => ⟨answer options stamp text, true⟩

/-- Whether a byte is a line break, which ends the line it stands in. -/
def endsLine (byte : UInt8) : Bool := byte == 10

/-- The lines of an input, each with its line break if it has one. -/
def splitLines : List UInt8 → List (List UInt8)
  | [] => []
  | b :: rest =>
    if endsLine b then [b] :: splitLines rest
    else
      match splitLines rest with
      | [] => [[b]]
      | line :: others => (b :: line) :: others

/-- A session over the lines of an input, turn by turn. -/
def session (options : Options) (stamp : String) : List (List UInt8) → Response
  | [] => ({ stdout := mark } : Response) ++ (turn options stamp .empty).response
  | line :: rest =>
    let turn := turn options stamp ⟨line.toArray⟩
    ({ stdout := mark } : Response) ++
      if turn.goesOn then turn.response ++ session options stamp rest else turn.response

end Reckon.CommandLine.Prompt
