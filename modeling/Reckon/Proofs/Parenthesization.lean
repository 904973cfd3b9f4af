import Reckon.Proofs.Safety

/-!
# Writing trees down

Every tree whose operators are supported can be written as tokens: in infix order, with
parentheses around each node that is not a literal. So written it is parsed whatever the
precedence of its operators, and what comes back is the tree with more groupings in it.
Groupings carry no meaning: without them a tree evaluates to the same value or ends in the
same fault, so trees that differ only in groupings evaluate alike.
-/
namespace Reckon
open Grammar

namespace Expr

/-- A tree without its grouping nodes. -/
def ungrouped : Expr → Expr
  | literal value => literal value
  | unary operator operand => unary operator operand.ungrouped
  | binary left operator right => binary left.ungrouped operator right.ungrouped
  | grouping inner => inner.ungrouped
  | ternary condition thenBranch elseBranch =>
    ternary condition.ungrouped thenBranch.ungrouped elseBranch.ungrouped

/-- A tree with a grouping around each node that is neither a literal nor a grouping. -/
def grouped : Expr → Expr
  | literal value => literal value
  | unary operator operand => grouping (unary operator operand.grouped)
  | binary left operator right => grouping (binary left.grouped operator right.grouped)
  | grouping inner => grouping inner.grouped
  | ternary condition thenBranch elseBranch =>
    grouping (ternary condition.grouped thenBranch.grouped elseBranch.grouped)

theorem ungrouped_grouped (e : Expr) : e.grouped.ungrouped = e.ungrouped := by
  induction e with
  | literal value => rfl
  | unary operator operand ih => simp only [grouped, ungrouped, ih]
  | binary left operator right ihl ihr => simp only [grouped, ungrouped, ihl, ihr]
  | grouping inner ih => simp only [grouped, ungrouped, ih]
  | ternary condition thenBranch elseBranch ihc iha ihb =>
    simp only [grouped, ungrouped, ihc, iha, ihb]

theorem evaluate_ungrouped (e : Expr) : e.ungrouped.evaluate = e.evaluate := by
  induction e with
  | literal value => rfl
  | unary operator operand ih => simp only [ungrouped, evaluate, ih]
  | binary left operator right ihl ihr => simp only [ungrouped, evaluate, ihl, ihr]
  | grouping inner ih => simp only [ungrouped, evaluate, ih]
  | ternary condition thenBranch elseBranch ihc iha ihb =>
    simp only [ungrouped, evaluate, ihc, iha, ihb]

/-- Trees that differ only in groupings evaluate alike. -/
theorem evaluate_eq_of_ungrouped {e e' : Expr} (h : e'.ungrouped = e.ungrouped) :
    e'.evaluate = e.evaluate := by
  rw [← evaluate_ungrouped e', h, evaluate_ungrouped]

end Expr

/-- `Encloses p q`: the tokens `q` are `p` in parentheses. -/
inductive Encloses : List Token → List Token → Prop
  | intro {p} {left right : Token} :
      left.kind = .leftParen → right.kind = .rightParen → Encloses p (left :: (p ++ [right]))

/-- `Written e p`: the tokens `p` are the tree `e`, fully parenthesized. A literal is one
token; every other node is in parentheses, with its operators and its children in infix
order. -/
inductive Written : Expr → List Token → Prop
  | literal {v t} : Atom t v → Written (.literal v) [t]
  | unary {o e p q} : Written e p → Encloses (o :: p) q → Written (.unary o e) q
  | binary {o a b p q r} :
      Written a p → Written b q → Encloses (p ++ o :: q) r → Written (.binary a o b) r
  | grouping {e p q} : Written e p → Encloses p q → Written (.grouping e) q
  | ternary {c a b p q r s} {question colon : Token} :
      Written c p → question.kind = .question → Written a q → colon.kind = .colon →
      Written b r → Encloses (p ++ question :: (q ++ colon :: r)) s → Written (.ternary c a b) s

/-- The token that stands for a value. -/
def Value.token (value : Value) : Token :=
  let ofKind (kind : Kind) (literal : Option Literal) : Token :=
    { kind, lexeme := value.quoted, literal, line := 1 }
  match value with
  | nil => ofKind .nilWord none
  | boolean true => ofKind .trueWord none
  | boolean false => ofKind .falseWord none
  | number x => ofKind .number (some (.number x))
  | string s => ofKind .string (some (.string s))

theorem Value.atom_token (value : Value) : Atom value.token value := by
  cases value with
  | nil => exact .nothing rfl
  | boolean b =>
    cases b with
    | false => exact .falsehood rfl
    | true => exact .truth rfl
  | number x => exact .literal (l := .number x) (.inl rfl) rfl
  | string s => exact .literal (l := .string s) (.inr rfl) rfl

/-- Tokens in parentheses on the first line. -/
def enclosed (p : List Token) : List Token :=
  { kind := .leftParen, lexeme := "(", line := 1 } ::
    (p ++ [{ kind := .rightParen, lexeme := ")", line := 1 }])

theorem encloses_enclosed (p : List Token) : Encloses p (enclosed p) := .intro rfl rfl

namespace Expr

/-- A tree as tokens, fully parenthesized. All tokens but those of operators are on the first
line. -/
def written : Expr → List Token
  | literal value => [value.token]
  | unary operator operand => enclosed (operator :: operand.written)
  | binary left operator right => enclosed (left.written ++ operator :: right.written)
  | grouping inner => enclosed inner.written
  | ternary condition thenBranch elseBranch =>
    enclosed (condition.written ++ { kind := .question, lexeme := "?", line := 1 } ::
      (thenBranch.written ++ { kind := .colon, lexeme := ":", line := 1 } :: elseBranch.written))

theorem written_written (e : Expr) : Written e e.written := by
  induction e with
  | literal value => exact .literal value.atom_token
  | unary operator operand ih => exact .unary ih (encloses_enclosed _)
  | binary left operator right ihl ihr => exact .binary ihl ihr (encloses_enclosed _)
  | grouping inner ih => exact .grouping ih (encloses_enclosed _)
  | ternary condition thenBranch elseBranch ihc iha ihb =>
    exact .ternary ihc rfl iha rfl ihb (encloses_enclosed _)

end Expr

theorem exists_joiners {kind : Kind} (h : kind ∈ binaryKinds) : ∃ level, kind ∈ joiners level := by
  have hlevels : ∀ k ∈ binaryKinds, ∃ level ∈ Parse.levelsFrom .equality, k ∈ joiners level := by
    decide
  obtain ⟨level, -, hlevel⟩ := hlevels kind h
  exact ⟨level, hlevel⟩

theorem Encloses.derives {p q : List Token} {e : Expr} (h : Encloses p q)
    (hp : Derives .ternary p e) : Derives .primary q (.grouping e) := by
  cases h with
  | intro hl hr => exact .group hl hp hr

/-- What is written stands by itself, so precedence does not matter. -/
theorem Written.derives {e : Expr} {p : List Token} (h : Written e p) (he : e.Supported) :
    Derives .primary p e.grouped := by
  induction h with
  | literal ha => exact .atom ha
  | @unary o e p q _ hq ih =>
    have ho : o.kind = .bang ∨ o.kind = .minus := by
      simpa [unaryKinds, or_comm] using he.1
    have hunary : Derives .unary (o :: p) (.unary o e.grouped) :=
      .prefixed ho ((ih he.2).of_primary .unary)
    have hfactor : Derives (.binary .factor) (o :: p) (.unary o e.grouped) := .single hunary
    exact hq.derives hfactor.ternary_of_binary
  | @binary o a b p q r _ _ hr iha ihb =>
    obtain ⟨level, ho⟩ := exists_joiners he.1
    have hbinary : Derives (.binary level) (p ++ o :: q) (.binary a.grouped o b.grouped) :=
      .joined ((iha he.2.1).of_primary _) ho ((ihb he.2.2).of_primary _)
    exact hr.derives hbinary.ternary_of_binary
  | grouping _ hq ih => exact hq.derives ((ih he).of_primary .ternary)
  | ternary _ hquestion _ hcolon _ hs ihc iha ihb =>
    have hc := (ihc he.1).of_primary (.binary .equality)
    have ha := (iha he.2.1).of_primary .ternary
    have hb := (ihb he.2.2).of_primary .ternary
    exact hs.derives (.conditional hc hquestion ha hcolon hb)

theorem Written.expression_eq {e : Expr} {p : List Token} (h : Written e p) (he : e.Supported)
    {z : Token} (hz : z.kind = .eof) : Parse.expression (p ++ [z]) = .ok e.grouped := by
  have hderives := (h.derives he).of_primary .ternary
  exact Parse.expression_eq_ok_iff.mpr
    ⟨z, [], Parse.reads_of_derives hderives (.inl hz) [], hz⟩

/-- Every supported tree can be written down, and parentheses carry no meaning. However a
tree is written with full parentheses, it is parsed as a tree that differs from it only in
groupings, and both evaluate like the tree without any groupings. -/
theorem expression_of_written {e : Expr} (he : e.Supported) :
    Written e e.written ∧
    ∀ p z, Written e p → z.kind = .eof →
      ∃ e', Parse.expression (p ++ [z]) = .ok e' ∧ e'.ungrouped = e.ungrouped ∧
        e'.evaluate = e.evaluate ∧ e.evaluate = e.ungrouped.evaluate := by
  refine ⟨e.written_written, fun p z hp hz => ?_⟩
  have hgroupings := e.ungrouped_grouped
  exact ⟨e.grouped, hp.expression_eq he hz, hgroupings, Expr.evaluate_eq_of_ungrouped hgroupings,
    e.evaluate_ungrouped.symm⟩

/-- A negated sum times a conditional, without any grouping, so that no expression without
parentheses has this tree. It is written with five pairs, and evaluation ends at the same
operator. -/
theorem expression_of_written_product :
    let operator (kind : Kind) (lexeme : String) : Token := { kind, lexeme, line := 7 }
    let plus := operator .plus "+"
    let sum := Expr.binary (.literal (.string "a")) plus (.literal .nil)
    let choice := Expr.ternary (.literal .nil) sum (.literal (.boolean true))
    let e := Expr.binary (.unary (operator .minus "-") sum) (operator .star "*") choice
    e.Supported ∧ Written e e.written ∧
    e.written.map Token.kind =
      [.leftParen, .leftParen, .minus, .leftParen, .string, .plus, .nilWord, .rightParen,
        .rightParen, .star, .leftParen, .nilWord, .question, .leftParen, .string, .plus, .nilWord,
        .rightParen, .colon, .trueWord, .rightParen, .rightParen] ∧
    e.evaluate = .error (.refused ⟨.number, operator .minus "-"⟩ [.string "anil"]) ∧
    ∃ e', Parse.expression (e.written ++ [.eof 1]) = .ok e' ∧ e'.ungrouped = e.ungrouped ∧
      e'.evaluate = e.evaluate := by
  intro operator plus sum choice e
  have he : e.Supported := by
    simp [e, sum, choice, Expr.Supported, operator, plus, unaryKinds, binaryKinds]
  obtain ⟨hwritten, hparse⟩ := expression_of_written he
  obtain ⟨e', hexpr, hgroupings, hvalue, -⟩ := hparse e.written (.eof 1) hwritten rfl
  exact ⟨he, hwritten, by decide, by rfl, e', hexpr, hgroupings, hvalue⟩

end Reckon
