import Reckon.Value

/-!
# Expressions and statements

Operator nodes keep the token they were read from. A tree built by hand may hold
any token there; evaluation says what becomes of those that are no operators.
-/
namespace Reckon

inductive Expr where
  | literal (value : Value)
  | unary (operator : Token) (operand : Expr)
  | binary (left : Expr) (operator : Token) (right : Expr)
  | grouping (inner : Expr)
  | ternary (condition thenBranch elseBranch : Expr)
  deriving BEq

inductive Statement where
  | expression (expr : Expr)
  | print (expr : Expr)
  deriving BEq

def Statement.expr : Statement → Expr
  | expression e => e
  | print e => e

end Reckon
