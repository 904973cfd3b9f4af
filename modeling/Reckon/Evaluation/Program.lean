import Reckon.Evaluation.Expression

/-!
# Running statements

Statements extend the lines printed so far. A statement that ends in a fault adds
nothing, and a run stops there.
-/
namespace Reckon

/-- The end of a run: the lines printed by then, also if a fault ended it. -/
structure Run where
  output : List String
  /-- What stopped the run early. -/
  fault : Option Fault := none

/-- Runs one statement on top of the lines printed so far. -/
def Statement.execute (output : List String) : Statement → Run
  | .expression e =>
    match e.evaluate with
    | .ok _ => { output }
    | .error fault => { output, fault := some fault }
  | .print e =>
    match e.evaluate with
    | .ok value => { output := output ++ [value.text] }
    | .error fault => { output, fault := some fault }

/-- Runs statements in order on top of the lines printed so far, up to the first that ends
in a fault. -/
def interpret (output : List String) : List Statement → Run
  | [] => { output }
  | s :: rest =>
    let run := s.execute output
    match run.fault with
    | none => interpret run.output rest
    | some _ => run

@[simp] theorem interpret_nil (output : List String) : interpret output [] = { output } := rfl

end Reckon
