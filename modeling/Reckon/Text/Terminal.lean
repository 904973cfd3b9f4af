/-!
# Text without terminal controls

Text that is not written to a terminal is shown without control characters and
without the sequences that an escape character starts. A machine reads the text
and tells which characters belong to a sequence. White space that control
characters stand for is kept, and text without controls is left as it is.
-/
namespace Reckon.Text.Terminal

/-- What a character belongs to. -/
inductive State where
  | ground
  /-- After an escape character. -/
  | escape
  /-- In an escape sequence of several characters. -/
  | intermediate
  /-- In a control sequence. -/
  | control
  /-- In an operating system command. -/
  | command
  /-- At the start of a device control string, in its parameters, and after them. -/
  | device | deviceParameter | deviceIntermediate
  /-- In a string that only its terminator ends. -/
  | payload
  deriving DecidableEq, Repr

def inRange (lo hi : Nat) (c : Char) : Bool := lo ≤ c.toNat && c.toNat ≤ hi

/-- Whether the string terminator occurs among the bytes of a character. -/
def hasTerminator (c : Char) : Bool := (String.utf8EncodeChar c).contains 0x9c

/-- Control characters that white space may consist of. -/
def isControlSpace (c : Char) : Bool := c == '\t' || c == '\n' || c == '\x0c' || c == '\r'

namespace State

/-- The state after a character. Characters without a rule change nothing. -/
def next (state : State) (c : Char) : State :=
  if c = '\x1b' then escape
  else if c = '\x18' ∨ c = '\x1a' then ground
  else
    match state with
    | ground => ground
    | escape =>
      if c = '[' then control
      else if c = ']' then command
      else if c = 'P' then device
      else if c = 'X' ∨ c = '^' ∨ c = '_' then payload
      else if inRange 0x20 0x2f c then intermediate
      else if inRange 0x30 0x7e c then ground
      else escape
    | intermediate => if inRange 0x30 0x7e c then ground else intermediate
    | control => if inRange 0x40 0x7e c then ground else control
    | command => if c = '\x07' then ground else command
    | device =>
      if inRange 0x20 0x2f c then deviceIntermediate
      else if inRange 0x30 0x3f c then deviceParameter
      else if inRange 0x40 0x7e c then payload
      else device
    | deviceParameter =>
      if inRange 0x20 0x2f c then deviceIntermediate
      else if inRange 0x3c 0x7e c then payload
      else deviceParameter
    | deviceIntermediate => if inRange 0x30 0x7e c then payload else deviceIntermediate
    | payload => if hasTerminator c then ground else payload

/-- Whether control characters keep their effect. -/
def obeysControls : State → Bool
  | ground | escape | intermediate | control => true
  | _ => false

/-- Whether a character is shown. -/
def shows (state : State) (c : Char) : Bool :=
  if isControlSpace c then state.obeysControls
  else state == ground && 0x20 ≤ c.toNat && c.toNat != 0x7f

end State

/-- The characters that are shown. White space pauses the sequence in which it
stands: what follows is shown up to the next character that is not, and there the
sequence goes on, unless a character beyond ASCII came in between. -/
def visible (state : State) (paused : Bool) : List Char → List Char
  | [] => []
  | c :: rest =>
    if (if paused then State.ground else state).shows c then
      c :: visible (if 0x80 ≤ c.toNat then .ground else state) true rest
    else visible (state.next c) false rest

/-- A text without terminal controls. -/
def plain (text : String) : String := String.ofList (visible .ground false text.toList)

end Reckon.Text.Terminal
