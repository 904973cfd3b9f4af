import Reckon.Evaluation.Program
import Reckon.Event
import Reckon.Parse.Program
import Reckon.Source.Scan

/-!
# Running a source text

A source text can be evaluated as an expression, shown as a tree, or run as a
program. It is always scanned and parsed in full, so that everything wrong with
it is reported together; only a text without errors is evaluated. Nothing carries
over from one text to the next.
-/
namespace Reckon

/-- How a run ends. -/
inductive Verdict (α : Type) where
  | done (result : α)
  | failed (failure : Failure)
  | misused (misuse : Misuse)
  deriving BEq

def Verdict.map {α β : Type} (f : α → β) : Verdict α → Verdict β
  | done a => .done (f a)
  | failed failure => .failed failure
  | misused misuse => .misused misuse

/-- A result with the events on the way to it. -/
structure Traced (α : Type) where
  result : α
  events : List Event

namespace Session

/-- How a run ends at a fault after printing some lines. -/
def stop {α : Type} (output : List String) : Fault → Verdict α
  | .refused error _ => .failed { diagnostics := [.runtime error], output }
  | .unsupported misuse => .misused misuse

/-- A text is refused with all its scan errors followed by its syntax errors. -/
def refusal (scanErrors : List ScanError) (syntaxErrors : List SyntaxError) : Failure where
  diagnostics := scanErrors.map .lexical ++ syntaxErrors.map .syntactic

/-- The tree of a text that is one expression. -/
def expression (source : String) : Traced (Except Failure Expr) :=
  let scan := scan source
  let scanned := Event.scanned scan.tokens.length scan.errors.length
  let reject (failure : Failure) := Event.rejected failure.diagnostics.length
  match Parse.expression scan.tokens with
  | .ok expr =>
    if scan.isClean then ⟨.ok expr, [scanned, .parsed expr]⟩
    else
      let failure := refusal scan.errors []
      ⟨.error failure, [scanned, .parsed expr, reject failure]⟩
  | .error error =>
    let failure := refusal scan.errors [error]
    ⟨.error failure, [scanned, reject failure]⟩

/-- The statements of a text that is a program. -/
def statements (source : String) : Traced (Except Failure (List Statement)) :=
  let scan := scan source
  let scanned := Event.scanned scan.tokens.length scan.errors.length
  match Parse.program scan.tokens with
  | .ok statements =>
    if scan.isClean then ⟨.ok statements, [scanned]⟩
    else ⟨.error (refusal scan.errors []), [scanned]⟩
  | .error errors =>
    ⟨.error (refusal scan.errors errors), scanned :: errors.map .recovering⟩

/-- The value of a text as an expression. -/
def evaluate (source : String) : Traced (Verdict Value) :=
  let front := expression source
  match front.result with
  | .error failure => ⟨.failed failure, front.events⟩
  | .ok expr =>
    match expr.evaluate with
    | .ok value => ⟨.done value, front.events ++ [.evaluated value]⟩
    | .error fault => ⟨stop [] fault, front.events ++ Event.ofFault fault⟩

/-- The printed tree of a text as an expression. -/
def render (source : String) : Traced (Verdict String) :=
  let front := expression source
  match front.result with
  | .error failure => ⟨.failed failure, front.events⟩
  | .ok expr => ⟨.done expr.print, front.events⟩

/-- The lines that a text prints as a program. -/
def run (source : String) : Traced (Verdict (List String)) :=
  let front := statements source
  match front.result with
  | .error failure => ⟨.failed failure, front.events⟩
  | .ok statements =>
    let run := interpret [] statements
    match run.fault with
    | none => ⟨.done run.output, front.events⟩
    | some fault =>
      ⟨stop run.output fault, front.events ++ Event.ofFault fault ++ [.stopped run.output.length]⟩

end Session

end Reckon
