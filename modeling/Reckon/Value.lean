import Reckon.Token

/-!
# Values

What expressions evaluate to. Two values are equal when they have the same type
and the same content; numbers compare as numbers, so what is not a number differs
from itself and the two zeros are equal.
-/
namespace Reckon

inductive Value where
  | nil
  | boolean (value : Bool)
  | number (value : Float)
  | string (value : String)
  deriving BEq

namespace Value

/-- How a value is shown. Strings are shown without quotes. -/
def text : Value → String
  | nil => "nil"
  | boolean true => "true"
  | boolean false => "false"
  | number x => Number.text x
  | string s => s

def typeName : Value → String
  | nil => "nil"
  | boolean _ => "boolean"
  | number _ => "number"
  | string _ => "string"

/-- Only `nil` and `false` count as false. -/
def isTruthy : Value → Bool
  | nil => false
  | boolean b => b
  | _ => true

def asNumber? : Value → Option Float
  | number x => some x
  | _ => none

def isString : Value → Bool
  | string _ => true
  | _ => false

end Value

/-- The value a literal denotes. -/
def Literal.value : Literal → Value
  | number x => .number x
  | string s => .string s

end Reckon
