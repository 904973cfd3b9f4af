import Reckon.Evaluation.Operator
import Reckon.Expr.Print

/-!
# Events

What happens during a run is recorded as a list of events. The log shows those
whose level is at least the chosen one, with the part of the program they come
from.
-/
namespace Reckon

/-- Levels of detail, from coarse to fine. -/
inductive Detail where
  | warn | info | debug | trace
  deriving DecidableEq, Repr

namespace Detail

def name : Detail → String
  | warn => "WARN"
  | info => "INFO"
  | debug => "DEBUG"
  | trace => "TRACE"

/-- The name in five columns. -/
def column (detail : Detail) : String :=
  detail.name ++ String.ofList (List.replicate (5 - detail.name.length) ' ')

def rank : Detail → Nat
  | warn => 0
  | info => 1
  | debug => 2
  | trace => 3

/-- The level asked for by being so many times more verbose. -/
def ofCount : Nat → Detail
  | 0 => warn
  | 1 => info
  | 2 => debug
  | _ => trace

end Detail

inductive Event where
  | scanned (tokens errors : Nat)
  | parsed (expr : Expr)
  | recovering (error : SyntaxError)
  | cannotAdd (left right : Value)
  | evaluated (value : Value)
  | rejected (diagnostics : Nat)
  | stopped (lines : Nat)
  | reading (path : String)
  | prompting

namespace Event

def detail : Event → Detail
  | scanned .. => .trace
  | reading _ | prompting => .info
  | _ => .debug

/-- The part of the program an event comes from. -/
def target : Event → String
  | scanned .. => "lumen::interpreter::scanner"
  | parsed _ => "lumen::interpreter::parser::core"
  | recovering _ => "lumen::interpreter::parser::statement"
  | cannotAdd .. => "lumen::interpreter::evaluator::binary::arithmetic"
  | _ => "lumen"

def message : Event → String
  | scanned tokens errors =>
    "scanned " ++ toString tokens ++ " tokens with " ++ toString errors ++ " errors"
  | parsed expr => "parsed expression: " ++ expr.print
  | recovering error => "recovering from syntax error: " ++ error.message
  | cannotAdd left right => "cannot add " ++ left.typeName ++ " and " ++ right.typeName
  | evaluated value => "evaluated to " ++ value.typeName ++ " `" ++ value.text ++ "`"
  | rejected diagnostics => "front end reported " ++ toString diagnostics ++ " diagnostics"
  | stopped lines => "program stopped after " ++ toString lines ++ " printed lines"
  | reading path => "reading " ++ path
  | prompting => "starting interactive prompt"

/-- The event that a fault leaves behind. -/
def ofFault : Fault → List Event
  | .refused ⟨.numbersOrStrings, _⟩ [left, right] => [cannotAdd left right]
  | _ => []

end Event

end Reckon
