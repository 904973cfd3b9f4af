import Reckon.Expr

/-!
# The parenthesized form of a tree

Every node that is not a literal is written in parentheses with its name first.
Operator nodes are named by the text of their token. Strings keep their quotes.
-/
namespace Reckon

/-- A literal as it stands in a tree. -/
def Value.quoted : Value → String
  | .string s => "\"" ++ s ++ "\""
  | value => value.text

namespace Expr

/-- A named node with its printed children. -/
def node (name : String) (children : List String) : String :=
  "(" ++ name ++ " " ++ " ".intercalate children ++ ")"

def print : Expr → String
  | literal value => value.quoted
  | unary operator operand => node operator.lexeme [operand.print]
  | binary left operator right => node operator.lexeme [left.print, right.print]
  | grouping inner => node "group" [inner.print]
  | ternary condition thenBranch elseBranch =>
    node "ternary" [condition.print, thenBranch.print, elseBranch.print]

end Expr

end Reckon
