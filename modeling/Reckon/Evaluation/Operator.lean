import Reckon.Diagnostic
import Reckon.Value

/-!
# Applying operators

Operators are applied to values. An operator refuses operands of the wrong type,
and a token that is no operator at the place where it stands is unsupported. The
operand types are looked at first.
-/
namespace Reckon

/-- Uses of a token that is no operator of the family asked for. -/
inductive Misuse where
  | arithmetic | comparison | equality
  | unary (kind : Kind)
  | binary (kind : Kind)
  deriving DecidableEq, Repr

def Misuse.message (misuse : Misuse) : String :=
  "internal error: entered unreachable code: " ++
    match misuse with
    | arithmetic => "not an arithmetic operator"
    | comparison => "not a comparison operator"
    | equality => "eval_equality used with non equality operator"
    | unary kind => "parser produced unary operator " ++ kind.name
    | binary kind => "parser produced binary operator " ++ kind.name

/-- Why an evaluation ends without a value. -/
inductive Fault where
  | refused (error : RuntimeError) (operands : List Value)
  | unsupported (misuse : Misuse)
  deriving BEq

namespace Operator

/-- Two numbers, or the refusal of an operator that needs them. -/
def numbers (operator : Token) : Value → Value → Except Fault (Float × Float)
  | .number x, .number y => .ok (x, y)
  | left, right => .error (.refused ⟨.numbers, operator⟩ [left, right])

/-- Subtraction, multiplication and division. -/
def arithmetic (operator : Token) (left right : Value) : Except Fault Value := do
  let (x, y) ← numbers operator left right
  match operator.kind with
  | .minus => .ok (.number (x - y))
  | .star => .ok (.number (x * y))
  | .slash => .ok (.number (x / y))
  | _ => .error (.unsupported .arithmetic)

/-- The sum of two numbers. If either side is a string, the texts of both are joined. -/
def addition (operator : Token) (left right : Value) : Except Fault Value :=
  match left, right with
  | .number x, .number y => .ok (.number (x + y))
  | left, right =>
    if left.isString || right.isString then .ok (.string (left.text ++ right.text))
    else .error (.refused ⟨.numbersOrStrings, operator⟩ [left, right])

/-- The order of two numbers. -/
def comparison (operator : Token) (left right : Value) : Except Fault Value := do
  let (x, y) ← numbers operator left right
  match operator.kind with
  | .greater => .ok (.boolean (x > y))
  | .greaterEqual => .ok (.boolean (x ≥ y))
  | .less => .ok (.boolean (x < y))
  | .lessEqual => .ok (.boolean (x ≤ y))
  | _ => .error (.unsupported .comparison)

/-- Equality of any two values. -/
def equality (kind : Kind) (left right : Value) : Except Fault Value :=
  match kind with
  | .equalEqual => .ok (.boolean (left == right))
  | .bangEqual => .ok (.boolean (left != right))
  | _ => .error (.unsupported .equality)

/-- An operator before its operand. -/
def unary (operator : Token) (value : Value) : Except Fault Value :=
  match operator.kind with
  | .minus =>
    match value with
    | .number x => .ok (.number (-x))
    | value => .error (.refused ⟨.number, operator⟩ [value])
  | .bang => .ok (.boolean (!value.isTruthy))
  | kind => .error (.unsupported (.unary kind))

/-- An operator between its operands. -/
def binary (operator : Token) (left right : Value) : Except Fault Value :=
  match operator.kind with
  | .plus => addition operator left right
  | .minus | .star | .slash => arithmetic operator left right
  | .greater | .greaterEqual | .less | .lessEqual => comparison operator left right
  | .equalEqual | .bangEqual => equality operator.kind left right
  | kind => .error (.unsupported (.binary kind))

end Operator

end Reckon
