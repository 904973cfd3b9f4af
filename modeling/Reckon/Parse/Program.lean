import Reckon.Parse.Expression

/-!
# Parsing programs

A program is a sequence of statements up to the first `eof`. After a broken
statement the parser drops tokens up to the end of that statement and goes on, so
that every broken statement is reported.
-/
namespace Reckon.Parse

/-- An expression as a statement: `ternary ";"`. -/
def bareStatement (tokens : List Token) : Outcome Statement tokens.length :=
  (ternary tokens).andThen (self_le tokens) fun value rest₁ h₁ =>
    (expect .semicolon .semicolonAfterExpression rest₁).andThen (le_of_shorter h₁)
      fun _ rest₂ h₂ => .success (.expression value) rest₂ (shorter_trans h₂ h₁)

/-- One statement: `"print" ternary ";"` or `ternary ";"`. -/
def statement (tokens : List Token) : Outcome Statement tokens.length :=
  match tokens with
  | [] => bareStatement []
  | t :: rest =>
    if t.kind = .printWord then
      (ternary rest).andThen (tail_le t rest) fun value rest₁ h₁ =>
        (expect .semicolon .semicolonAfterValue rest₁).andThen (le_cons_of_shorter t h₁)
          fun _ rest₂ h₂ => .success (.print value) rest₂ (shorter_cons_trans t h₂ h₁)
    else bareStatement (t :: rest)

/-- Whether nothing is left before the closing token. -/
def atEnd : List Token → Bool
  | [] => true
  | t :: _ => t.kind == .eof

/-- Drops tokens through the next semicolon, stopping before a word that begins a
statement and before the closing token. -/
def skipStatement : List Token → List Token
  | [] => []
  | t :: rest =>
    if t.kind = .eof ∨ t.kind.startsStatement then t :: rest
    else if t.kind = .semicolon then rest
    else skipStatement rest

/-- Recovers from a broken statement. The token at which it broke is always dropped,
unless it closes the sequence. -/
def synchronize : List Token → List Token
  | [] => []
  | t :: rest =>
    if t.kind = .eof then t :: rest
    else if t.kind = .semicolon then rest
    else skipStatement rest

theorem length_skipStatement_le (tokens : List Token) :
    (skipStatement tokens).length ≤ tokens.length := by
  induction tokens with
  | nil => simp [skipStatement]
  | cons t rest ih =>
    simp only [skipStatement]
    split
    · exact Nat.le_refl _
    · split
      · simp
      · exact Nat.le_succ_of_le ih

theorem length_synchronize_lt {tokens : List Token} (h : atEnd tokens = false) :
    (synchronize tokens).length < tokens.length := by
  cases tokens with
  | nil => simp [atEnd] at h
  | cons t rest =>
    have hk : t.kind ≠ .eof := by simpa [atEnd] using h
    simp only [synchronize, hk, if_false]
    split
    · simp
    · exact Nat.lt_succ_of_le (length_skipStatement_le rest)

/-- The statements of a program in order, each read or reported. -/
def rounds (tokens : List Token) : List (Except SyntaxError Statement) :=
  match atEnd tokens with
  | true => []
  | false =>
    match statement tokens with
    | .success s rest _ => .ok s :: rounds rest
    | .failure e rest _ =>
      .error e ::
        match _h : atEnd rest with
        | true => []
        | false => rounds (synchronize rest)
termination_by tokens.length
decreasing_by
  · assumption
  · have := length_synchronize_lt _h
    omega

def errorsOf (results : List (Except SyntaxError Statement)) : List SyntaxError :=
  results.filterMap fun
    | .error e => some e
    | .ok _ => none

def statementsOf (results : List (Except SyntaxError Statement)) : List Statement :=
  results.filterMap fun
    | .ok s => some s
    | .error _ => none

/-- All statements of a program, or everything that is wrong with them. -/
def program (tokens : List Token) : Except (List SyntaxError) (List Statement) :=
  match errorsOf (rounds tokens) with
  | [] => .ok (statementsOf (rounds tokens))
  | errors => .error errors

end Reckon.Parse
