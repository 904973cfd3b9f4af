import Reckon.Evaluation.Expression
import Reckon.Proofs.StatementGrammar

/-!
# The operators that are refused

An evaluation that is refused reports an operator of its tree, and a demand which that
operator makes. The operators of a tree are among the tokens that the tree was read from.
-/
namespace Reckon
open Grammar Parse

/-- The operators that make a demand of their operands. -/
def Requirement.kinds : Requirement → List Kind
  | number => [.minus]
  | numbers => [.minus, .star, .slash, .greater, .greaterEqual, .less, .lessEqual]
  | numbersOrStrings => [.plus]

/-- If an outcome is a refusal, then of one of the given operators, for a demand that this
operator makes. -/
def Charges {α : Type} (operators : List Token) (outcome : Except Fault α) : Prop :=
  ∀ error operands, outcome = .error (.refused error operands) →
    error.operator ∈ operators ∧ error.operator.kind ∈ error.requirement.kinds

section Charges
variable {α β : Type} {operators others : List Token}

theorem charges_ok (a : α) : Charges operators (.ok a) := fun _ _ heq => nomatch heq

theorem charges_unsupported (misuse : Misuse) :
    Charges operators (.error (.unsupported misuse) : Except Fault α) :=
  fun _ _ heq => nomatch heq

theorem charges_refused {requirement : Requirement} {operator : Token}
    (h : operator.kind ∈ requirement.kinds) (operands : List Value) :
    Charges [operator] (.error (.refused ⟨requirement, operator⟩ operands) : Except Fault α) := by
  intro error operands' heq
  cases heq
  exact ⟨List.mem_singleton.mpr rfl, h⟩

theorem Charges.mono {x : Except Fault α} (h : Charges operators x) (hsub : operators ⊆ others) :
    Charges others x := by
  intro error operands heq
  obtain ⟨hmem, hkind⟩ := h error operands heq
  exact ⟨hsub hmem, hkind⟩

theorem Charges.bind {x : Except Fault α} {f : α → Except Fault β} (hx : Charges operators x)
    (hf : ∀ a, Charges operators (f a)) : Charges operators (x >>= f) := by
  cases x with
  | ok a => exact hf a
  | error fault =>
    intro error operands heq
    cases heq
    exact hx error operands rfl

end Charges

namespace Operator

theorem charges_numbers {operator : Token} (h : operator.kind ∈ Requirement.numbers.kinds)
    (left right : Value) : Charges [operator] (numbers operator left right) := by
  unfold numbers
  split
  · exact charges_ok _
  · exact charges_refused h _

theorem charges_arithmetic {operator : Token} (h : operator.kind ∈ Requirement.numbers.kinds)
    (left right : Value) : Charges [operator] (arithmetic operator left right) := by
  refine (charges_numbers h left right).bind fun ⟨x, y⟩ => ?_
  dsimp only
  split
  · exact charges_ok _
  · exact charges_ok _
  · exact charges_ok _
  · exact charges_unsupported _

theorem charges_comparison {operator : Token} (h : operator.kind ∈ Requirement.numbers.kinds)
    (left right : Value) : Charges [operator] (comparison operator left right) := by
  refine (charges_numbers h left right).bind fun ⟨x, y⟩ => ?_
  dsimp only
  split
  · exact charges_ok _
  · exact charges_ok _
  · exact charges_ok _
  · exact charges_ok _
  · exact charges_unsupported _

theorem charges_addition {operator : Token} (h : operator.kind = .plus) (left right : Value) :
    Charges [operator] (addition operator left right) := by
  unfold addition
  split
  · exact charges_ok _
  · split
    · exact charges_ok _
    · exact charges_refused (by simp [h, Requirement.kinds]) _

theorem charges_equality (operators : List Token) (kind : Kind) (left right : Value) :
    Charges operators (equality kind left right) := by
  unfold equality
  split
  · exact charges_ok _
  · exact charges_ok _
  · exact charges_unsupported _

theorem charges_unary (operator : Token) (value : Value) :
    Charges [operator] (unary operator value) := by
  unfold unary
  split
  · next hk =>
    split
    · exact charges_ok _
    · exact charges_refused (by simp [hk, Requirement.kinds]) _
  · exact charges_ok _
  · exact charges_unsupported _

theorem charges_binary (operator : Token) (left right : Value) :
    Charges [operator] (binary operator left right) := by
  have hnumbers : ∀ {kind}, operator.kind = kind → kind ∈ Requirement.numbers.kinds →
      operator.kind ∈ Requirement.numbers.kinds := fun hk hmem => hk ▸ hmem
  unfold binary
  split
  · next hk => exact charges_addition hk left right
  · next hk => exact charges_arithmetic (hnumbers hk (by decide)) left right
  · next hk => exact charges_arithmetic (hnumbers hk (by decide)) left right
  · next hk => exact charges_arithmetic (hnumbers hk (by decide)) left right
  · next hk => exact charges_comparison (hnumbers hk (by decide)) left right
  · next hk => exact charges_comparison (hnumbers hk (by decide)) left right
  · next hk => exact charges_comparison (hnumbers hk (by decide)) left right
  · next hk => exact charges_comparison (hnumbers hk (by decide)) left right
  · exact charges_equality _ _ left right
  · exact charges_equality _ _ left right
  · exact charges_unsupported _

end Operator

/-- The operators of a tree, from left to right. -/
def Expr.operators : Expr → List Token
  | literal _ => []
  | unary operator operand => operator :: operand.operators
  | binary left operator right => left.operators ++ operator :: right.operators
  | grouping inner => inner.operators
  | ternary condition thenBranch elseBranch =>
    condition.operators ++ thenBranch.operators ++ elseBranch.operators

theorem Expr.charges_evaluate (e : Expr) : Charges e.operators e.evaluate := by
  induction e with
  | literal value => exact charges_ok value
  | grouping inner ih => exact ih
  | unary operator operand ih =>
    have hoperator : [operator] ⊆ operator :: operand.operators := by simp
    have hoperand : operand.operators ⊆ operator :: operand.operators := by simp
    exact (ih.mono hoperand).bind fun v => (Operator.charges_unary operator v).mono hoperator
  | binary left operator right ihl ihr =>
    have hoperator : [operator] ⊆ left.operators ++ operator :: right.operators := by simp
    have hleft : left.operators ⊆ left.operators ++ operator :: right.operators := by simp
    have hright : right.operators ⊆ left.operators ++ operator :: right.operators := by simp
    exact (ihl.mono hleft).bind fun l => (ihr.mono hright).bind fun r =>
      (Operator.charges_binary operator l r).mono hoperator
  | ternary condition thenBranch elseBranch ihc iha ihb =>
    refine (ihc.mono (by simp [operators])).bind fun c => ?_
    split
    · exact iha.mono (by simp [operators])
    · exact ihb.mono (by simp [operators])

theorem Grammar.Derives.operators_subset {s : Symbol} {p : List Token} {e : Expr}
    (h : Derives s p e) : e.operators ⊆ p := by
  induction h with
  | unconditional _ ih | single _ ih | unprefixed _ ih => exact ih
  | conditional _ _ _ _ _ ihc iha ihb =>
    intro t ht
    simp only [Expr.operators, List.mem_append] at ht
    rcases ht with (ht | ht) | ht
    · simp [ihc ht]
    · simp [iha ht]
    · simp [ihb ht]
  | joined _ _ _ iha ihb =>
    intro t ht
    simp only [Expr.operators, List.mem_append, List.mem_cons] at ht
    rcases ht with ht | rfl | ht
    · simp [iha ht]
    · simp
    · simp [ihb ht]
  | prefixed _ _ ih => exact List.cons_subset_cons _ ih
  | atom _ => exact List.nil_subset _
  | group _ _ _ ih =>
    intro t ht
    simp [ih ht]

namespace Parse

theorem operators_subset_of_expression {ts : List Token} {e : Expr} (h : expression ts = .ok e) :
    e.operators ⊆ ts := by
  obtain ⟨t, rest, hr, -⟩ := expression_eq_ok_iff.mp h
  obtain ⟨p, hp, hderives⟩ := hr.covers
  rw [hp]
  exact List.subset_append_of_subset_left _ (Derives.operators_subset hderives)

theorem operators_subset_of_derives {ps : List (List Token)} {ss : List Statement}
    (h : List.Forall₂ DerivesStatement ps ss) {s : Statement} (hs : s ∈ ss) :
    s.expr.operators ⊆ ps.flatten := by
  induction h with
  | nil => cases hs
  | cons hp _ ih =>
    rw [List.flatten_cons]
    rcases List.mem_cons.mp hs with rfl | hs
    · obtain ⟨q, hq, hderives⟩ := hp.exists_expr
      exact List.subset_append_of_subset_left _ (List.Subset.trans hderives.operators_subset hq)
    · exact List.subset_append_of_subset_right _ (ih hs)

theorem operators_subset_of_program {ts : List Token} {ss : List Statement}
    (h : program ts = .ok ss) {s : Statement} (hs : s ∈ ss) : s.expr.operators ⊆ ts := by
  obtain ⟨herrors, rfl⟩ := program_eq_ok_iff.mp h
  obtain ⟨ps, hps, hall⟩ := exists_derives_of_rounds ts herrors
  have hsub := operators_subset_of_derives hall hs
  rw [← hps] at hsub
  exact List.Subset.trans hsub (beforeEof_subset ts)

end Parse

end Reckon
