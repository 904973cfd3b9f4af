import Reckon.Proofs.RefusedOperators
import Reckon.Proofs.Safety

/-!
# The order of evaluation

Evaluation performs one application after another. The operands of an operator come before
it, the left one before the right one, and the condition of a conditional before the branch
that it selects. Each application is accepted or fails, by the types of its operands alone.
The list of what is performed ends with the first application that fails, and this is the
one that evaluation reports.
-/
namespace Reckon

/-- An operator with the values it is applied to. -/
inductive Application where
  | before (operator : Token) (value : Value)
  | between (operator : Token) (left right : Value)

namespace Application

def operator : Application → Token
  | before operator _ => operator
  | between operator _ _ => operator

def operands : Application → List Value
  | before _ value => [value]
  | between _ left right => [left, right]

/-- What applying the operator gives. -/
def outcome : Application → Except Fault Value
  | before operator value => Operator.unary operator value
  | between operator left right => Operator.binary operator left right

/-- The operator is of a kind that can stand at its place. -/
def Supported : Application → Prop
  | before operator _ => operator.kind ∈ unaryKinds
  | between operator _ _ => operator.kind ∈ binaryKinds

/-- `Fails a demand`: the operands are not what the operator demands. Logical negation,
equality and inequality demand nothing. -/
inductive Fails : Application → Requirement → Prop
  | number {operator value} :
      operator.kind ∈ Requirement.number.kinds → value.asNumber? = none →
      Fails (before operator value) .number
  | numbers {operator left right} :
      operator.kind ∈ Requirement.numbers.kinds →
      left.asNumber? = none ∨ right.asNumber? = none →
      Fails (between operator left right) .numbers
  | numbersOrStrings {operator left right} :
      operator.kind ∈ Requirement.numbersOrStrings.kinds →
      left.asNumber? = none ∨ right.asNumber? = none →
      left.isString = false → right.isString = false →
      Fails (between operator left right) .numbersOrStrings

/-- The operands meet every demand of the operator. -/
def Succeeds (a : Application) : Prop := ∀ demand, ¬ a.Fails demand

end Application

namespace Operator
variable {operator : Token} {left right : Value}

theorem numbers_of_none (operator : Token) (h : left.asNumber? = none ∨ right.asNumber? = none) :
    numbers operator left right = .error (.refused ⟨.numbers, operator⟩ [left, right]) := by
  unfold numbers
  split
  · rcases h with h | h <;> cases h
  · rfl

theorem none_or_numbers (left right : Value) :
    (left.asNumber? = none ∨ right.asNumber? = none) ∨
      ∃ x y, left = .number x ∧ right = .number y := by
  cases left with
  | number x =>
    cases right with
    | number y => exact .inr ⟨x, y, rfl, rfl⟩
    | nil | boolean _ | string _ => exact .inl (.inr rfl)
  | nil | boolean _ | string _ => exact .inl (.inl rfl)

theorem addition_of_none (operator : Token) (h : left.asNumber? = none ∨ right.asNumber? = none)
    (hleft : left.isString = false) (hright : right.isString = false) :
    addition operator left right =
      .error (.refused ⟨.numbersOrStrings, operator⟩ [left, right]) := by
  unfold addition
  split
  · rcases h with h | h <;> cases h
  · simp [hleft, hright]

theorem none_of_addition {error : RuntimeError} {operands : List Value}
    (h : addition operator left right = .error (.refused error operands)) :
    (left.asNumber? = none ∨ right.asNumber? = none) ∧
      left.isString = false ∧ right.isString = false := by
  refine ⟨(none_or_numbers left right).resolve_right ?_, ?_⟩
  · rintro ⟨x, y, rfl, rfl⟩
    cases h
  · unfold addition at h
    split at h
    · cases h
    · split at h
      · cases h
      · next hstrings => simpa using hstrings

theorem arithmetic_eq (operator : Token) (left right : Value) :
    ∃ f : Float × Float → Except Fault Value, (∀ p, Charges [] (f p)) ∧
      arithmetic operator left right = numbers operator left right >>= f := by
  refine ⟨_, fun p => ?_, rfl⟩
  dsimp only
  split
  · exact charges_ok _
  · exact charges_ok _
  · exact charges_ok _
  · exact charges_unsupported _

theorem comparison_eq (operator : Token) (left right : Value) :
    ∃ f : Float × Float → Except Fault Value, (∀ p, Charges [] (f p)) ∧
      comparison operator left right = numbers operator left right >>= f := by
  refine ⟨_, fun p => ?_, rfl⟩
  dsimp only
  split
  · exact charges_ok _
  · exact charges_ok _
  · exact charges_ok _
  · exact charges_ok _
  · exact charges_unsupported _

/-- Operators between operands are additions, or ask for two numbers first, or refuse nothing. -/
theorem binary_cases (operator : Token) (left right : Value) :
    operator.kind ∈ Requirement.numbersOrStrings.kinds ∧
      binary operator left right = addition operator left right ∨
    operator.kind ∈ Requirement.numbers.kinds ∧
      (∃ f : Float × Float → Except Fault Value, (∀ p, Charges [] (f p)) ∧
        binary operator left right = numbers operator left right >>= f) ∨
    (operator.kind ∉ Requirement.numbersOrStrings.kinds ∧
      operator.kind ∉ Requirement.numbers.kinds) ∧ Charges [] (binary operator left right) := by
  have hkinds : ∀ {kind}, operator.kind = kind → kind ∈ Requirement.numbers.kinds →
      operator.kind ∈ Requirement.numbers.kinds := fun hk hmem => hk ▸ hmem
  unfold binary
  split
  · next hk => exact .inl ⟨by simp [hk, Requirement.kinds], rfl⟩
  · next hk => exact .inr (.inl ⟨hkinds hk (by decide), arithmetic_eq operator left right⟩)
  · next hk => exact .inr (.inl ⟨hkinds hk (by decide), arithmetic_eq operator left right⟩)
  · next hk => exact .inr (.inl ⟨hkinds hk (by decide), arithmetic_eq operator left right⟩)
  · next hk => exact .inr (.inl ⟨hkinds hk (by decide), comparison_eq operator left right⟩)
  · next hk => exact .inr (.inl ⟨hkinds hk (by decide), comparison_eq operator left right⟩)
  · next hk => exact .inr (.inl ⟨hkinds hk (by decide), comparison_eq operator left right⟩)
  · next hk => exact .inr (.inl ⟨hkinds hk (by decide), comparison_eq operator left right⟩)
  · next hk => exact .inr (.inr ⟨by simp [hk, Requirement.kinds], hk ▸ charges_ok _⟩)
  · next hk => exact .inr (.inr ⟨by simp [hk, Requirement.kinds], hk ▸ charges_ok _⟩)
  · exact .inr (.inr ⟨by simp_all [Requirement.kinds], charges_unsupported _⟩)

end Operator

namespace Application

theorem Fails.outcome_eq {a : Application} {demand : Requirement} (h : a.Fails demand) :
    a.outcome = .error (.refused ⟨demand, a.operator⟩ a.operands) := by
  cases h with
  | @number operator value hk hvalue =>
    have hk : operator.kind = .minus := List.mem_singleton.mp hk
    simp only [outcome, Operator.unary, hk]
    split
    · cases hvalue
    · rfl
  | @numbers operator left right hk hnone =>
    rcases Operator.binary_cases operator left right with ⟨hplus, -⟩ | ⟨-, f, -, hf⟩ | ⟨hnot, -⟩
    · rw [List.mem_singleton.mp hplus] at hk
      exact absurd hk (by decide)
    · rw [outcome, hf, Operator.numbers_of_none operator hnone]
      rfl
    · exact absurd hk hnot.2
  | @numbersOrStrings operator left right hk hnone hleft hright =>
    have hk : operator.kind = .plus := List.mem_singleton.mp hk
    simp only [outcome, Operator.binary, hk]
    exact Operator.addition_of_none operator hnone hleft hright

/-- An operator refuses its operands for no other reasons. -/
theorem exists_fails {a : Application} {error : RuntimeError} {operands : List Value}
    (h : a.outcome = .error (.refused error operands)) : ∃ demand, a.Fails demand := by
  cases a with
  | before operator value =>
    simp only [outcome, Operator.unary] at h
    split at h
    · next hk =>
      refine ⟨.number, .number (List.mem_singleton.mpr hk) ?_⟩
      cases value with
      | number x => cases h
      | nil | boolean _ | string _ => rfl
    · cases h
    · cases h
  | between operator left right =>
    rw [outcome] at h
    rcases Operator.binary_cases operator left right with ⟨hk, hb⟩ | ⟨hk, f, hf, hb⟩ | ⟨-, hb⟩
    · rw [hb] at h
      obtain ⟨hnone, hleft, hright⟩ := Operator.none_of_addition h
      exact ⟨.numbersOrStrings, .numbersOrStrings hk hnone hleft hright⟩
    · refine ⟨.numbers, .numbers hk ((Operator.none_or_numbers left right).resolve_right ?_)⟩
      rintro ⟨x, y, rfl, rfl⟩
      rw [hb] at h
      exact absurd (hf (x, y) error operands h).1 List.not_mem_nil
    · exact absurd (hb error operands h).1 List.not_mem_nil

theorem Supported.settles {a : Application} (h : a.Supported) : Settles a.outcome := by
  cases a with
  | before operator value => exact Operator.settles_unary h value
  | between operator left right => exact Operator.settles_binary h left right

/-- What an application comes to: a value, or nothing if it fails. -/
inductive Yields : Application → Option Value → Prop
  | value {a v} : a.outcome = .ok v → Yields a (some v)
  | nothing {a demand} : a.Fails demand → Yields a none

theorem Succeeds.of_outcome {a : Application} {v : Value} (h : a.outcome = .ok v) :
    a.Succeeds := by
  intro demand hfails
  rw [hfails.outcome_eq] at h
  cases h

theorem Yields.unique {a : Application} {out out' : Option Value} (h : a.Yields out)
    (h' : a.Yields out') : out = out' := by
  cases h with
  | value hv =>
    cases h' with
    | value hv' => rw [Except.ok.inj (hv.symm.trans hv')]
    | nothing hfails => exact absurd hfails (Succeeds.of_outcome hv _)
  | nothing hfails =>
    cases h' with
    | value hv => exact absurd hfails (Succeeds.of_outcome hv _)
    | nothing _ => rfl

theorem Supported.exists_yields {a : Application} (h : a.Supported) : ∃ out, a.Yields out := by
  rcases settles_iff.mp h.settles with ⟨v, hv⟩ | ⟨error, operands, hrefused⟩
  · exact ⟨some v, .value hv⟩
  · obtain ⟨demand, hfails⟩ := exists_fails hrefused
    exact ⟨none, .nothing hfails⟩

theorem Supported.outcome_eq_error_iff {a : Application} (h : a.Supported) (fault : Fault) :
    a.outcome = .error fault ↔
      ∃ demand, a.Fails demand ∧ fault = .refused ⟨demand, a.operator⟩ a.operands := by
  constructor
  · intro hfault
    obtain ⟨out, hyields⟩ := h.exists_yields
    cases hyields with
    | value hv => cases hfault.symm.trans hv
    | nothing hfails =>
      exact ⟨_, hfails, Except.error.inj (hfault.symm.trans hfails.outcome_eq)⟩
  · rintro ⟨demand, hfails, rfl⟩
    exact hfails.outcome_eq

theorem succeeds_of_kind (a : Application)
    (h : a.operator.kind ∈ [Kind.bang, .equalEqual, .bangEqual]) : a.Succeeds := by
  have hkinds : ∀ demand : Requirement, ∀ kind ∈ demand.kinds,
      kind ∉ [Kind.bang, .equalEqual, .bangEqual] := by
    intro demand
    cases demand <;> decide
  intro demand hfails
  cases hfails with
  | number hk _ | numbers hk _ | numbersOrStrings hk _ _ _ => exact hkinds _ _ hk h

end Application

/-- `Performs e as out`: to evaluate `e`, the applications `as` are performed in this order.
They come to `out`, which is nothing if the last of them fails. -/
inductive Performs : Expr → List Application → Option Value → Prop
  | literal {v} : Performs (.literal v) [] (some v)
  | grouping {e as out} : Performs e as out → Performs (.grouping e) as out
  | operand {o e as} : Performs e as none → Performs (.unary o e) as none
  | unary {o e as v out} :
      Performs e as (some v) → (Application.before o v).Yields out →
      Performs (.unary o e) (as ++ [.before o v]) out
  | left {o l r as} : Performs l as none → Performs (.binary l o r) as none
  | right {o l r as bs x} :
      Performs l as (some x) → Performs r bs none → Performs (.binary l o r) (as ++ bs) none
  | binary {o l r as bs x y out} :
      Performs l as (some x) → Performs r bs (some y) → (Application.between o x y).Yields out →
      Performs (.binary l o r) (as ++ (bs ++ [.between o x y])) out
  | condition {c a b as} : Performs c as none → Performs (.ternary c a b) as none
  | branch {c a b as bs v out} :
      Performs c as (some v) → Performs (if v.isTruthy then a else b) bs out →
      Performs (.ternary c a b) (as ++ bs) out

theorem Performs.unique {e : Expr} {as as' : List Application} {out out' : Option Value}
    (h : Performs e as out) (h' : Performs e as' out') : as = as' ∧ out = out' := by
  -- Two rules for the same node differ in what some part comes to, which is the same for both.
  induction h generalizing as' out' with
  | literal =>
    cases h'
    exact ⟨rfl, rfl⟩
  | grouping _ ih =>
    cases h' with
    | grouping h' => exact ih h'
  | operand _ ih =>
    cases h' with
    | operand h' => exact ih h'
    | unary h' _ => cases (ih h').2
  | unary _ ha ih =>
    cases h' with
    | operand h' => cases (ih h').2
    | unary h' ha' =>
      obtain ⟨rfl, heq⟩ := ih h'
      cases heq
      exact ⟨rfl, ha.unique ha'⟩
  | left _ ih =>
    cases h' with
    | left h' => exact ih h'
    | right h' _ => cases (ih h').2
    | binary h' _ _ => cases (ih h').2
  | right _ _ ihl ihr =>
    cases h' with
    | left h' => cases (ihl h').2
    | right hl' hr' => exact ⟨by rw [(ihl hl').1, (ihr hr').1], rfl⟩
    | binary _ hr' _ => cases (ihr hr').2
  | binary _ _ ha ihl ihr =>
    cases h' with
    | left h' => cases (ihl h').2
    | right _ hr' => cases (ihr hr').2
    | binary hl' hr' ha' =>
      obtain ⟨rfl, heq⟩ := ihl hl'
      cases heq
      obtain ⟨rfl, heq⟩ := ihr hr'
      cases heq
      exact ⟨rfl, ha.unique ha'⟩
  | condition _ ih =>
    cases h' with
    | condition h' => exact ih h'
    | branch h' _ => cases (ih h').2
  | branch _ _ ihc ihb =>
    cases h' with
    | condition h' => cases (ihc h').2
    | branch hc' hb' =>
      obtain ⟨rfl, heq⟩ := ihc hc'
      cases heq
      obtain ⟨rfl, rfl⟩ := ihb hb'
      exact ⟨rfl, rfl⟩

theorem Expr.Supported.exists_performs {e : Expr} (h : e.Supported) :
    ∃ as out, Performs e as out := by
  induction e with
  | literal value => exact ⟨[], some value, .literal⟩
  | grouping inner ih =>
    obtain ⟨as, out, hinner⟩ := ih h
    exact ⟨as, out, .grouping hinner⟩
  | unary operator operand ih =>
    obtain ⟨as, out, hoperand⟩ := ih h.2
    cases out with
    | none => exact ⟨as, none, .operand hoperand⟩
    | some v =>
      obtain ⟨out, hyields⟩ :=
        Application.Supported.exists_yields (a := .before operator v) h.1
      exact ⟨_, out, .unary hoperand hyields⟩
  | binary left operator right ihl ihr =>
    obtain ⟨as, out, hleft⟩ := ihl h.2.1
    obtain ⟨bs, out', hright⟩ := ihr h.2.2
    cases out with
    | none => exact ⟨as, none, .left hleft⟩
    | some l =>
      cases out' with
      | none => exact ⟨as ++ bs, none, .right hleft hright⟩
      | some r =>
        obtain ⟨out, hyields⟩ :=
          Application.Supported.exists_yields (a := .between operator l r) h.1
        exact ⟨_, out, .binary hleft hright hyields⟩
  | ternary condition thenBranch elseBranch ihc iha ihb =>
    obtain ⟨as, out, hcondition⟩ := ihc h.1
    cases out with
    | none => exact ⟨as, none, .condition hcondition⟩
    | some v =>
      have hbranch : ∃ bs out, Performs (if v.isTruthy then thenBranch else elseBranch) bs out := by
        split
        · exact iha h.2.1
        · exact ihb h.2.2
      obtain ⟨bs, out, hbranch⟩ := hbranch
      exact ⟨as ++ bs, out, .branch hcondition hbranch⟩

/-- `StopsAt as fault`: the last of the applications is the first that fails, and the fault
names its operator, its demand and its operands. -/
def StopsAt (as : List Application) (fault : Fault) : Prop :=
  ∃ before a demand, as = before ++ [a] ∧ (∀ b ∈ before, b.Succeeds) ∧ a.Fails demand ∧
    fault = .refused ⟨demand, a.operator⟩ a.operands

theorem StopsAt.unique {as : List Application} {fault fault' : Fault} (h : StopsAt as fault)
    (h' : StopsAt as fault') : fault = fault' := by
  obtain ⟨before, a, demand, rfl, -, hfails, rfl⟩ := h
  obtain ⟨before', a', demand', heq, -, hfails', rfl⟩ := h'
  obtain ⟨-, hlast⟩ := List.append_inj' heq rfl
  cases hlast
  exact Except.error.inj (hfails.outcome_eq.symm.trans hfails'.outcome_eq)

/-- What performed applications say about an outcome: it is a value and none of them fails, or
they stop at the fault in which it ends. -/
def Tells (as : List Application) (outcome : Except Fault Value) : Option Value → Prop
  | some v => (∀ a ∈ as, a.Succeeds) ∧ outcome = .ok v
  | none => ∃ fault, StopsAt as fault ∧ outcome = .error fault

section Tells
variable {as bs : List Application} {x : Except Fault Value} {f : Value → Except Fault Value}
  {v : Value} {out : Option Value}

theorem Application.Yields.tells {a : Application} (h : a.Yields out) :
    Tells [a] a.outcome out := by
  cases h with
  | value hv => exact ⟨List.forall_mem_singleton.mpr (.of_outcome hv), hv⟩
  | nothing hfails =>
    have hstops : StopsAt [a] _ := ⟨[], a, _, rfl, List.forall_mem_nil _, hfails, rfl⟩
    exact ⟨_, hstops, hfails.outcome_eq⟩

/-- A failure is not made up for by what would come next. -/
theorem Tells.stop (h : Tells as x none) : Tells as (x >>= f) none := by
  obtain ⟨fault, hstops, rfl⟩ := h
  exact ⟨fault, hstops, rfl⟩

theorem Tells.bind (hx : Tells as x (some v)) (hf : Tells bs (f v) out) :
    Tells (as ++ bs) (x >>= f) out := by
  obtain ⟨has, rfl⟩ := hx
  cases out with
  | some w =>
    obtain ⟨hbs, hw⟩ := hf
    exact ⟨List.forall_mem_append.mpr ⟨has, hbs⟩, hw⟩
  | none =>
    obtain ⟨fault, ⟨before, a, demand, rfl, hbefore, hfails, hfault⟩, hw⟩ := hf
    refine ⟨fault, ⟨as ++ before, a, demand, ?_, ?_, hfails, hfault⟩, hw⟩
    · rw [List.append_assoc]
    · exact List.forall_mem_append.mpr ⟨has, hbefore⟩

theorem Tells.exists_error_iff (h : Tells as x out) :
    (∃ fault, x = .error fault) ↔ ∃ a ∈ as, ∃ demand, a.Fails demand := by
  cases out with
  | some v =>
    obtain ⟨hsucceeds, rfl⟩ := h
    constructor
    · rintro ⟨fault, hfault⟩
      cases hfault
    · rintro ⟨a, ha, demand, hfails⟩
      exact absurd hfails (hsucceeds a ha demand)
  | none =>
    obtain ⟨fault, ⟨before, a, demand, rfl, -, hfails, -⟩, hx⟩ := h
    exact ⟨fun _ => ⟨a, List.mem_concat_self, demand, hfails⟩, fun _ => ⟨fault, hx⟩⟩

theorem Tells.ok_iff (h : Tells as x out) (v : Value) : x = .ok v ↔ out = some v := by
  cases out with
  | some w =>
    obtain ⟨-, rfl⟩ := h
    exact ⟨fun hv => congrArg some (Except.ok.inj hv), fun hv => congrArg _ (Option.some.inj hv)⟩
  | none =>
    obtain ⟨fault, -, rfl⟩ := h
    exact ⟨nofun, nofun⟩

theorem Tells.error_iff (h : Tells as x out) (fault : Fault) :
    x = .error fault ↔ StopsAt as fault := by
  cases out with
  | some v =>
    obtain ⟨hsucceeds, rfl⟩ := h
    constructor
    · intro hfault
      cases hfault
    · rintro ⟨before, a, demand, rfl, -, hfails, -⟩
      exact absurd hfails (hsucceeds a List.mem_concat_self demand)
  | none =>
    obtain ⟨fault', hstops, rfl⟩ := h
    constructor
    · intro hfault
      cases hfault
      exact hstops
    · intro hstops'
      rw [hstops.unique hstops']

end Tells

/-- The applications performed tell how evaluation ends. -/
theorem Performs.tells {e : Expr} {as : List Application} {out : Option Value}
    (h : Performs e as out) : Tells as e.evaluate out := by
  induction h with
  | literal => exact ⟨List.forall_mem_nil _, rfl⟩
  | grouping _ ih => exact ih
  | operand _ ih => exact ih.stop
  | unary _ ha ih => exact ih.bind ha.tells
  | left _ ih => exact ih.stop
  | right _ _ ihl ihr => exact ihl.bind ihr.stop
  | binary _ _ ha ihl ihr => exact ihl.bind (ihr.bind ha.tells)
  | condition _ ih => exact ih.stop
  | branch _ _ ihc ihb =>
    rw [apply_ite Expr.evaluate] at ihb
    exact ihc.bind ihb

/-- Evaluation reports the first operator that fails in the order of evaluation. A supported
operator refuses its operands if and only if they fail its demand, and some operators demand
nothing. A supported tree determines the applications that are performed and what they come
to. Evaluation ends in a fault if and only if one of them fails, and the fault is that of the
first one that does, with the operator of its node. -/
theorem evaluate_reports_first_failure :
    (∀ a : Application, a.Supported →
      (∀ fault, a.outcome = .error fault ↔
        ∃ demand, a.Fails demand ∧ fault = .refused ⟨demand, a.operator⟩ a.operands) ∧
      (a.operator.kind ∈ [Kind.bang, .equalEqual, .bangEqual] → a.Succeeds)) ∧
    ∀ e : Expr, e.Supported →
      ∃ as out, Performs e as out ∧ (∀ as' out', Performs e as' out' → as' = as ∧ out' = out) ∧
        (∀ v, e.evaluate = .ok v ↔ out = some v) ∧
        ((∃ fault, e.evaluate = .error fault) ↔ ∃ a ∈ as, ∃ demand, a.Fails demand) ∧
        ∀ fault, e.evaluate = .error fault ↔ StopsAt as fault := by
  refine ⟨fun a ha => ⟨ha.outcome_eq_error_iff, a.succeeds_of_kind⟩, fun e he => ?_⟩
  obtain ⟨as, out, hperforms⟩ := he.exists_performs
  have htells := hperforms.tells
  exact ⟨as, out, hperforms, fun as' out' h' => h'.unique hperforms, htells.ok_iff,
    htells.exists_error_iff, htells.error_iff⟩

/-- A conditional with an operator that would fail on each side of its comparison and one in
the branch that is not selected. Three applications are performed, and the third is reported. -/
theorem evaluate_reports_first_failure_negated_text :
    let operator (kind : Kind) (lexeme : String) : Token := { kind, lexeme, line := 7 }
    let bang := operator .bang "!"
    let plus := operator .plus "+"
    let minus := operator .minus "-"
    let sum := Expr.binary (.literal (.string "a")) plus (.literal .nil)
    let product := Expr.binary (.literal .nil) (operator .star "*") (.literal (.boolean true))
    let order := Expr.binary (.unary minus sum) (operator .less "<") product
    let e := Expr.ternary (.unary bang (.literal .nil)) order (.unary minus (.literal .nil))
    let performed := [Application.before bang .nil, .between plus (.string "a") .nil,
      .before minus (.string "anil")]
    e.Supported ∧ Performs e performed none ∧
    (Application.before bang .nil).Supported ∧ (Application.before bang .nil).Succeeds ∧
    e.evaluate = .error (.refused ⟨.number, minus⟩ [.string "anil"]) := by
  intro operator bang plus minus sum product order e performed
  obtain ⟨happlications, htrees⟩ := evaluate_reports_first_failure
  have he : e.Supported := by
    simp [e, order, sum, product, Expr.Supported, operator, bang, plus, minus, unaryKinds,
      binaryKinds]
  have hbang : (Application.before bang .nil).Supported :=
    List.mem_cons_of_mem _ List.mem_cons_self
  have hfails : (Application.before minus (.string "anil")).Fails .number :=
    .number (List.mem_singleton.mpr rfl) rfl
  have hsum : Performs sum [.between plus (.string "a") .nil] (some (.string "anil")) :=
    .binary .literal .literal (.value rfl)
  have hcondition : Performs (.unary bang (.literal .nil)) [.before bang .nil]
      (some (.boolean true)) := .unary .literal (.value rfl)
  have horder : Performs order [.between plus (.string "a") .nil, .before minus (.string "anil")]
      none := .left (.unary hsum (.nothing hfails))
  have hperformed : Performs e performed none := .branch hcondition horder
  obtain ⟨as, out, -, hunique, -, -, hfault⟩ := htrees e he
  obtain ⟨rfl, rfl⟩ := hunique _ _ hperformed
  have hsucceeds := (happlications _ hbang).2 (by decide)
  refine ⟨he, hperformed, hbang, hsucceeds, (hfault _).mpr ?_⟩
  refine ⟨[.before bang .nil, .between plus (.string "a") .nil], _, .number, rfl, ?_, hfails, rfl⟩
  exact List.forall_mem_cons.mpr ⟨hsucceeds, List.forall_mem_singleton.mpr (.of_outcome rfl)⟩

end Reckon
