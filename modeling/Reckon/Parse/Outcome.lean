import Reckon.Diagnostic

/-!
# Parsing steps

A step reads tokens from the front of a sequence and leaves the rest, whether it
succeeds or fails. Its outcome carries a bound on what is left: fewer tokens than
the limit after a success, and no more than the limit after a failure. Later
steps work on what is left, so the bounds are what recursion descends on.
-/
namespace Reckon.Parse

section Bounds
variable {a b c : List Token}

theorem nil_le : ([] : List Token).length ≤ ([] : List Token).length := Nat.le_refl _

theorem self_le (tokens : List Token) : tokens.length ≤ tokens.length := Nat.le_refl _

theorem cons_le (t : Token) (rest : List Token) : (t :: rest).length ≤ (t :: rest).length :=
  Nat.le_refl _

theorem cons_lt (t : Token) (rest : List Token) : (t :: rest).length < (t :: rest).length + 1 :=
  Nat.lt_succ_self _

theorem tail_lt (t : Token) (rest : List Token) : rest.length < (t :: rest).length :=
  Nat.lt_succ_self _

theorem tail_le (t : Token) (rest : List Token) : rest.length ≤ (t :: rest).length :=
  Nat.le_succ _

theorem tail_le_succ (t : Token) (rest : List Token) : rest.length ≤ (t :: rest).length + 1 :=
  Nat.le_trans (Nat.le_succ _) (Nat.le_succ _)

theorem le_of_shorter (h : a.length < b.length) : a.length ≤ b.length := Nat.le_of_lt h

theorem shorter_trans (h : a.length < b.length) (h' : b.length < c.length) :
    a.length < c.length :=
  Nat.lt_trans h h'

theorem shorter_cons (t : Token) (h : a.length < b.length) : a.length < (t :: b).length :=
  Nat.lt_succ_of_lt h

theorem le_cons_of_shorter (t : Token) (h : a.length < b.length) : a.length ≤ (t :: b).length :=
  Nat.le_succ_of_le (Nat.le_of_lt h)

theorem shorter_cons_trans (t : Token) (h : a.length < b.length) (h' : b.length < c.length) :
    a.length < (t :: c).length :=
  Nat.lt_succ_of_lt (Nat.lt_trans h h')

theorem shorter_of_cons {t : Token} (h : (t :: a).length < b.length) : a.length < b.length :=
  Nat.lt_of_succ_lt h

theorem succ_le_succ_cons (t : Token) (h : a.length < b.length) :
    a.length + 1 ≤ (t :: b).length + 1 :=
  Nat.le_succ_of_le (Nat.succ_le_succ (Nat.le_of_lt h))

end Bounds

inductive Outcome (α : Type) (limit : Nat) where
  | success (value : α) (rest : List Token) (shorter : rest.length < limit)
  | failure (error : SyntaxError) (rest : List Token) (within : rest.length ≤ limit)

namespace Outcome
variable {α β : Type} {n m : Nat}

/-- The tokens left, in either case. -/
def rest : Outcome α n → List Token
  | success _ rest _ => rest
  | failure _ rest _ => rest

/-- The outcome without what is left. -/
def result : Outcome α n → Except SyntaxError α
  | success a _ _ => .ok a
  | failure e _ _ => .error e

/-- The same outcome under a larger limit. -/
def widen (h : n ≤ m) : Outcome α n → Outcome α m
  | success a rest lt => .success a rest (Nat.lt_of_lt_of_le lt h)
  | failure e rest le => .failure e rest (Nat.le_trans le h)

/-- Continues after a success and passes a failure on. -/
def andThen (o : Outcome α n) (h : n ≤ m)
    (next : α → (rest : List Token) → rest.length < n → Outcome β m) : Outcome β m :=
  match o with
  | success a rest lt => next a rest lt
  | failure e rest le => .failure e rest (Nat.le_trans le h)

@[simp] theorem rest_widen (h : n ≤ m) (o : Outcome α n) : (o.widen h).rest = o.rest := by
  cases o <;> rfl

@[simp] theorem result_widen (h : n ≤ m) (o : Outcome α n) : (o.widen h).result = o.result := by
  cases o <;> rfl

end Outcome

/-- Reads one token of the given kind. Any other token is left and reported. -/
def expect (kind : Kind) (what : Expectation) : (tokens : List Token) → Outcome Unit tokens.length
  | [] => .failure .exhausted [] nil_le
  | t :: rest =>
    if t.kind = kind then .success () rest (tail_lt t rest)
    else .failure (.expected what t) (t :: rest) (cons_le t rest)

end Reckon.Parse
