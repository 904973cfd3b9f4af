import Reckon.Evaluation.Operator
import Reckon.Expr

/-!
# Evaluating expressions

Operands are evaluated before their operator and from left to right. Of a
conditional only the branch that the condition selects is evaluated. The first
fault ends the evaluation.
-/
namespace Reckon.Expr

def evaluate : Expr → Except Fault Value
  | literal value => .ok value
  | grouping inner => inner.evaluate
  | unary operator operand => do
    let value ← operand.evaluate
    Operator.unary operator value
  | binary left operator right => do
    let l ← left.evaluate
    let r ← right.evaluate
    Operator.binary operator l r
  | ternary condition thenBranch elseBranch => do
    let c ← condition.evaluate
    if c.isTruthy then thenBranch.evaluate else elseBranch.evaluate

end Reckon.Expr
