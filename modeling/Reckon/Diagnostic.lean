import Reckon.Token

/-!
# Diagnostics

Three families of errors: text that is no token, tokens that form no tree, and
operators applied to operands they do not accept. Each is a cause, and each is
shown as `[line n] Error…: …`. A failure is everything that is reported about one
run, with the lines printed before it stopped.
-/
namespace Reckon

/-- The common form of all diagnostics. -/
def located (line : Nat) (place text : String) : String :=
  "[line " ++ toString line ++ "] Error" ++ place ++ ": " ++ text

inductive ScanError where
  | unexpectedCharacter (character : Char) (line : Nat)
  | unterminatedString (line : Nat)
  deriving DecidableEq, Repr

namespace ScanError

def line : ScanError → Nat
  | unexpectedCharacter _ n | unterminatedString n => n

def text : ScanError → String
  | unexpectedCharacter c _ => "Unexpected character: " ++ c.toString ++ "."
  | unterminatedString _ => "Unterminated string."

def message (error : ScanError) : String := located error.line "" error.text

end ScanError

/-- What the parser was looking for when it met another token. -/
inductive Expectation where
  | expression | closingParen | ternaryColon
  | semicolonAfterValue | semicolonAfterExpression | endOfExpression
  deriving DecidableEq, Repr

def Expectation.text : Expectation → String
  | expression => "Expect expression."
  | closingParen => "Expect ')' after expression."
  | ternaryColon => "Expect ':' in ternary."
  | semicolonAfterValue => "Expect ';' after value."
  | semicolonAfterExpression => "Expect ';' after expression."
  | endOfExpression => "Expect end of expression."

inductive SyntaxError where
  | expected (what : Expectation) (found : Token)
  /-- The tokens ended without a closing one. -/
  | exhausted
  deriving BEq

namespace SyntaxError

/-- The token at which the error is reported. -/
def token? : SyntaxError → Option Token
  | expected _ found => some found
  | exhausted => none

def line : SyntaxError → Nat
  | expected _ found => found.line
  | exhausted => 0

def text : SyntaxError → String
  | expected what _ => what.text
  | exhausted => "Unexpected end of input."

def message : SyntaxError → String
  | expected what found => located found.line found.location what.text
  | exhausted => located 0 " at end" (text exhausted)

end SyntaxError

/-- What an operator demands of its operands. -/
inductive Requirement where
  | number | numbers | numbersOrStrings
  deriving DecidableEq, Repr

def Requirement.text : Requirement → String
  | number => "Operand must be a number."
  | numbers => "Operands must be numbers."
  | numbersOrStrings => "Operands must be two numbers, or two strings."

structure RuntimeError where
  requirement : Requirement
  operator : Token
  deriving BEq

namespace RuntimeError

def line (error : RuntimeError) : Nat := error.operator.line

def text (error : RuntimeError) : String := error.requirement.text

def message (error : RuntimeError) : String :=
  located error.line error.operator.location error.text

end RuntimeError

inductive Diagnostic where
  | lexical (error : ScanError)
  | syntactic (error : SyntaxError)
  | runtime (error : RuntimeError)
  deriving BEq

namespace Diagnostic

def line : Diagnostic → Nat
  | lexical e => e.line
  | syntactic e => e.line
  | runtime e => e.line

def message : Diagnostic → String
  | lexical e => e.message
  | syntactic e => e.message
  | runtime e => e.message

def isRuntime : Diagnostic → Bool
  | runtime _ => true
  | _ => false

end Diagnostic

structure Failure where
  diagnostics : List Diagnostic
  /-- Lines printed before the failure. -/
  output : List String := []
  deriving BEq

namespace Failure

/-- Whether something was wrong with the text itself. -/
def hadError (failure : Failure) : Bool := failure.diagnostics.any (!·.isRuntime)

def hadRuntimeError (failure : Failure) : Bool := failure.diagnostics.any (·.isRuntime)

def message (failure : Failure) : String :=
  "\n".intercalate (failure.diagnostics.map Diagnostic.message)

end Failure

end Reckon
