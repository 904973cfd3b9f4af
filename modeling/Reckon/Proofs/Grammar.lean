import Reckon.Parse.Expression

/-!
# The expression grammar

The grammar that expressions are written in, stated without the parser. Its seven
symbols are the conditional, four levels of binary operators, prefixed operators,
and what stands by itself. A derivation relates a symbol to the tokens it covers
and to the tree they stand for; operator nodes hold the token they come from.
-/
namespace Reckon.Grammar
open Parse (Level)

inductive Symbol where
  | ternary
  | binary (level : Level)
  | unary
  | primary
  deriving DecidableEq, Repr

/-- The operators that join operands of a level. -/
def joiners : Level → List Kind
  | .equality => [.bangEqual, .equalEqual]
  | .comparison => [.greater, .greaterEqual, .less, .lessEqual]
  | .term => [.plus, .minus]
  | .factor => [.star, .slash]

/-- What the operators of a level join. -/
def operandOf : Level → Symbol
  | .equality => .binary .comparison
  | .comparison => .binary .term
  | .term => .binary .factor
  | .factor => .unary

/-- Tokens that stand for a value. Numbers and strings do so only with a literal. -/
inductive Atom : Token → Value → Prop
  | falsehood {t} (kind : t.kind = .falseWord) : Atom t (.boolean false)
  | truth {t} (kind : t.kind = .trueWord) : Atom t (.boolean true)
  | nothing {t} (kind : t.kind = .nilWord) : Atom t .nil
  | literal {t l} (kind : t.kind = .number ∨ t.kind = .string) (carried : t.literal = some l) :
      Atom t l.value

/-- `Derives s p e`: the tokens `p` form an `s` whose tree is `e`. -/
inductive Derives : Symbol → List Token → Expr → Prop
  | unconditional {p e} : Derives (.binary .equality) p e → Derives .ternary p e
  | conditional {p q r c a b} {question colon : Token} :
      Derives (.binary .equality) p c → question.kind = .question →
      Derives .ternary q a → colon.kind = .colon → Derives .ternary r b →
      Derives .ternary (p ++ question :: (q ++ colon :: r)) (.ternary c a b)
  | single {level p e} : Derives (operandOf level) p e → Derives (.binary level) p e
  | joined {level p q a b} {o : Token} :
      Derives (.binary level) p a → o.kind ∈ joiners level → Derives (operandOf level) q b →
      Derives (.binary level) (p ++ o :: q) (.binary a o b)
  | prefixed {p e} {o : Token} :
      o.kind = .bang ∨ o.kind = .minus → Derives .unary p e → Derives .unary (o :: p) (.unary o e)
  | unprefixed {p e} : Derives .primary p e → Derives .unary p e
  | atom {t v} : Atom t v → Derives .primary [t] (.literal v)
  | group {p e} {l r : Token} :
      l.kind = .leftParen → Derives .ternary p e → r.kind = .rightParen →
      Derives .primary (l :: (p ++ [r])) (.grouping e)

/-- What forms a level of binary operators forms an expression. -/
theorem Derives.ternary_of_binary {level : Level} {p : List Token} {e : Expr}
    (h : Derives (.binary level) p e) : Derives .ternary p e := by
  cases level with
  | equality => exact .unconditional h
  | comparison => exact .unconditional (.single h)
  | term => exact .unconditional (.single (.single h))
  | factor => exact .unconditional (.single (.single (.single h)))

/-- What stands by itself forms every symbol. -/
theorem Derives.of_primary {p : List Token} {e : Expr} (h : Derives .primary p e) (s : Symbol) :
    Derives s p e := by
  have hunary : Derives .unary p e := .unprefixed h
  have hfactor : Derives (.binary .factor) p e := .single hunary
  have hterm : Derives (.binary .term) p e := .single hfactor
  have hcomparison : Derives (.binary .comparison) p e := .single hterm
  cases s with
  | ternary => exact hfactor.ternary_of_binary
  | unary => exact hunary
  | primary => exact h
  | binary level =>
    cases level with
    | equality => exact .single hcomparison
    | comparison => exact hcomparison
    | term => exact hterm
    | factor => exact hfactor

/-- Kinds of tokens an expression begins with. -/
def firstKinds : List Kind :=
  [.falseWord, .trueWord, .nilWord, .number, .string, .leftParen, .bang, .minus]

theorem Derives.head_kind {s : Symbol} {p : List Token} {e : Expr} (h : Derives s p e) :
    ∃ t q, p = t :: q ∧ t.kind ∈ firstKinds := by
  induction h with
  | unconditional _ ih | single _ ih | unprefixed _ ih => exact ih
  | conditional _ _ _ _ _ ih _ _ | joined _ _ _ ih _ =>
    obtain ⟨t, q, rfl, ht⟩ := ih
    exact ⟨t, _, List.cons_append, ht⟩
  | prefixed ho _ _ => exact ⟨_, _, rfl, by rcases ho with h | h <;> simp [h, firstKinds]⟩
  | atom ha =>
    exact ⟨_, _, rfl, by rcases ha with h | h | h | ⟨h | h, _⟩ <;> simp [h, firstKinds]⟩
  | group hl _ _ _ => exact ⟨_, _, rfl, by simp [hl, firstKinds]⟩

end Reckon.Grammar
