import Reckon.Expr
import Reckon.Parse.Outcome

/-!
# Parsing expressions

From loosest to tightest: the conditional `? :`, which groups to the right; four
levels of left-associative binary operators; prefixed operators; and literals and
parenthesized expressions. One token decides at every point how to go on.

A rule may hand the same tokens on to a tighter rule, and otherwise works on fewer.
So the recursion descends on twelve times the number of tokens plus the place of
the rule, which is below twelve.
-/
namespace Reckon.Parse

/-- Levels of binary operators. -/
inductive Level where
  | equality | comparison | term | factor
  deriving DecidableEq, Repr

namespace Level

def operators : Level → List Kind
  | equality => [.bangEqual, .equalEqual]
  | comparison => [.greater, .greaterEqual, .less, .lessEqual]
  | term => [.plus, .minus]
  | factor => [.star, .slash]

/-- The level of the operands, if they are binary themselves. -/
def tighter? : Level → Option Level
  | equality => some comparison
  | comparison => some term
  | term => some factor
  | factor => none

/-- Number of levels from here to the tightest, this one included. -/
def height : Level → Nat
  | equality => 4
  | comparison => 3
  | term => 2
  | factor => 1

theorem height_pos (level : Level) : 0 < level.height := by cases level <;> decide

theorem height_le (level : Level) : level.height ≤ 4 := by cases level <;> decide

theorem height_lt_of_tighter? {l k : Level} (h : l.tighter? = some k) : k.height < l.height := by
  cases l <;> simp [tighter?] at h <;> subst h <;> decide

end Level

/-- Operators that stand before their operand. -/
def unaryOperators : List Kind := [.bang, .minus]

mutual

/-- A full expression: `equality ("?" ternary ":" ternary)?`. -/
def ternary (tokens : List Token) : Outcome Expr tokens.length :=
  (chain .equality tokens).andThen (self_le tokens) fun condition rest h =>
    match rest with
    | [] => .success condition [] h
    | t :: branches =>
      if t.kind = .question then
        have h₀ := shorter_of_cons h
        (ternary branches).andThen (le_of_shorter h₀) fun thenBranch rest₁ h₁ =>
          have h₁ := shorter_trans h₁ h₀
          (expect .colon .ternaryColon rest₁).andThen (le_of_shorter h₁) fun _ rest₂ h₂ =>
            have h₂ := shorter_trans h₂ h₁
            (ternary rest₂).andThen (le_of_shorter h₂) fun elseBranch rest₃ h₃ =>
              have h₃ := shorter_trans h₃ h₂
              .success (.ternary condition thenBranch elseBranch) rest₃ h₃
      else .success condition (t :: branches) h
termination_by 12 * tokens.length + 11
decreasing_by
  · simp only [Level.height]
    omega
  · omega
  · omega

/-- Operands of one level joined by its operators, folded to the left. -/
def chain (level : Level) (tokens : List Token) : Outcome Expr tokens.length :=
  (operand level tokens).andThen (self_le tokens) fun left rest h =>
    (links level left rest).widen h
termination_by 12 * tokens.length + (2 * level.height + 2)
decreasing_by
  · omega
  · omega

/-- The operators and operands that follow a left side. -/
def links (level : Level) (left : Expr) (tokens : List Token) : Outcome Expr (tokens.length + 1) :=
  match tokens with
  | [] => .success left [] Nat.zero_lt_one
  | t :: rest =>
    if t.kind ∈ level.operators then
      (operand level rest).andThen (tail_le_succ t rest) fun right rest₁ h₁ =>
        (links level (.binary left t right) rest₁).widen (succ_le_succ_cons t h₁)
    else .success left (t :: rest) (cons_lt t rest)
termination_by 12 * tokens.length
decreasing_by
  · have := level.height_le
    simp only [List.length_cons]
    omega
  · simp only [List.length_cons]
    omega

/-- What stands on either side of an operator of a level. -/
def operand (level : Level) (tokens : List Token) : Outcome Expr tokens.length :=
  match _h : level.tighter? with
  | some tighter => chain tighter tokens
  | none => unary tokens
termination_by 12 * tokens.length + (2 * level.height + 1)
decreasing_by
  · have := Level.height_lt_of_tighter? _h
    omega
  · have := level.height_pos
    omega

/-- Operators before an operand: `("!" | "-") unary | primary`. -/
def unary (tokens : List Token) : Outcome Expr tokens.length :=
  match tokens with
  | [] => .failure .exhausted [] nil_le
  | t :: rest =>
    if t.kind ∈ unaryOperators then
      (unary rest).andThen (tail_le t rest) fun inner rest₁ h₁ =>
        .success (.unary t inner) rest₁ (shorter_cons t h₁)
    else primary (t :: rest)
termination_by 12 * tokens.length + 2
decreasing_by
  · simp only [List.length_cons]
    omega
  · omega

/-- Literals and expressions in parentheses. -/
def primary (tokens : List Token) : Outcome Expr tokens.length :=
  match tokens with
  | [] => .failure .exhausted [] nil_le
  | t :: rest =>
    match t.kind with
    | .falseWord => .success (.literal (.boolean false)) rest (tail_lt t rest)
    | .trueWord => .success (.literal (.boolean true)) rest (tail_lt t rest)
    | .nilWord => .success (.literal .nil) rest (tail_lt t rest)
    | .number | .string =>
      match t.literal with
      | some literal => .success (.literal literal.value) rest (tail_lt t rest)
      | none => .failure (.expected .expression t) (t :: rest) (cons_le t rest)
    | .leftParen =>
      (ternary rest).andThen (tail_le t rest) fun inner rest₁ h₁ =>
        (expect .rightParen .closingParen rest₁).andThen (le_cons_of_shorter t h₁)
          fun _ rest₂ h₂ => .success (.grouping inner) rest₂ (shorter_cons_trans t h₂ h₁)
    | _ => .failure (.expected .expression t) (t :: rest) (cons_le t rest)
termination_by 12 * tokens.length + 1
decreasing_by
  simp only [List.length_cons]
  omega

end

/-- Reads the tokens up to the first `eof` as one expression. -/
def expression (tokens : List Token) : Except SyntaxError Expr :=
  match ternary tokens with
  | .failure e _ _ => .error e
  | .success _ [] _ => .error .exhausted
  | .success e (t :: _) _ => if t.kind = .eof then .ok e else .error (.expected .endOfExpression t)

end Reckon.Parse
