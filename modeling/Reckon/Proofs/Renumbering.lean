import Reckon.Evaluation.Program
import Reckon.Proofs.StatementReading
import Reckon.Source.Scan

/-!
# Renumbering lines

Tokens, trees and errors with their lines changed by a function. Reading, recovery and
evaluation commute with every such change: they look at kinds and literals, pass lines
on, and decide nothing by them.
-/
namespace Reckon
open Grammar

variable (f : Nat → Nat)

def Token.renumber (t : Token) : Token := { t with line := f t.line }

def ScanError.renumber : ScanError → ScanError
  | unexpectedCharacter c n => .unexpectedCharacter c (f n)
  | unterminatedString n => .unterminatedString (f n)

def Scan.renumber (scan : Scan) : Scan where
  tokens := scan.tokens.map (Token.renumber f)
  errors := scan.errors.map (ScanError.renumber f)

def SyntaxError.renumber : SyntaxError → SyntaxError
  | expected what found => .expected what (found.renumber f)
  | exhausted => .exhausted

def RuntimeError.renumber (e : RuntimeError) : RuntimeError :=
  { e with operator := e.operator.renumber f }

def Diagnostic.renumber : Diagnostic → Diagnostic
  | lexical e => .lexical (e.renumber f)
  | syntactic e => .syntactic (e.renumber f)
  | runtime e => .runtime (e.renumber f)

def Failure.renumber (failure : Failure) : Failure :=
  { failure with diagnostics := failure.diagnostics.map (Diagnostic.renumber f) }

def Expr.renumber : Expr → Expr
  | literal value => .literal value
  | unary operator operand => .unary (operator.renumber f) operand.renumber
  | binary left operator right => .binary left.renumber (operator.renumber f) right.renumber
  | grouping inner => .grouping inner.renumber
  | ternary condition thenBranch elseBranch =>
    .ternary condition.renumber thenBranch.renumber elseBranch.renumber

def Statement.renumber : Statement → Statement
  | expression e => .expression (e.renumber f)
  | print e => .print (e.renumber f)

def Fault.renumber : Fault → Fault
  | refused error operands => .refused (error.renumber f) operands
  | unsupported misuse => .unsupported misuse

def Run.renumber (run : Run) : Run := { run with fault := run.fault.map (Fault.renumber f) }

@[simp] theorem Token.kind_renumber (t : Token) : (t.renumber f).kind = t.kind := rfl

@[simp] theorem Token.renumber_eof (line : Nat) : (Token.eof line).renumber f = .eof (f line) := rfl

theorem Grammar.Atom.renumber {t : Token} {v : Value} (h : Atom t v) : Atom (t.renumber f) v := by
  cases h with
  | falsehood hk => exact .falsehood hk
  | truth hk => exact .truth hk
  | nothing hk => exact .nothing hk
  | literal hk hl => exact .literal hk hl

theorem Grammar.Atom.of_renumber {t : Token} {v : Value} (h : Atom (t.renumber f) v) :
    Atom t v := by
  cases h with
  | falsehood hk => exact .falsehood hk
  | truth hk => exact .truth hk
  | nothing hk => exact .nothing hk
  | literal hk hl => exact .literal hk hl

namespace Parse

/-- A result of reading with its lines renumbered. -/
def renumberResult {α : Type} (g : α → α) : Except SyntaxError α → Except SyntaxError α
  | .ok a => .ok (g a)
  | .error x => .error (x.renumber f)

def Goal.renumber : Goal → Goal
  | whole s => .whole s
  | more level left => .more level (left.renumber f)

variable {f}

theorem Avoids.renumber {P : Token → Prop} {ts : List Token} (h : Avoids P ts)
    (hP : ∀ t, P (t.renumber f) → P t) : Avoids P (ts.map (Token.renumber f)) := by
  cases ts with
  | nil => exact avoids_nil P
  | cons t ts =>
    rw [List.map_cons, avoids_cons]
    exact mt (hP t) ((avoids_cons P t ts).mp h)

theorem renumber_blame (what : Expectation) (ts : List Token) :
    (blame what ts).renumber f = blame what (ts.map (Token.renumber f)) := by
  cases ts <;> rfl

theorem startsPrimary_of_renumber {t : Token} (h : StartsPrimary (t.renumber f)) :
    StartsPrimary t := by
  rcases h with ⟨v, hv⟩ | hk
  · exact .inl ⟨v, hv.of_renumber⟩
  · exact .inr hk

/-- Renumbered tokens are read in the same way. -/
theorem Reads.renumber {g : Goal} {ts left : List Token} {out : Except SyntaxError Expr}
    (h : Reads g ts out left) :
    Reads (g.renumber f) (ts.map (Token.renumber f)) (renumberResult f (Expr.renumber f) out)
      (left.map (Token.renumber f)) := by
  induction h with
  | conditionFails _ ih => exact .conditionFails ih
  | unconditional _ hq ih => exact .unconditional ih (hq.renumber fun _ => id)
  | thenFails _ hq _ ihc iha => exact .thenFails ihc hq iha
  | colonMissing _ hq _ hk ihc iha =>
    rw [renumberResult, renumber_blame]
    exact .colonMissing ihc hq iha (hk.renumber fun _ => id)
  | elseFails _ hq _ hu _ ihc iha ihb => exact .elseFails ihc hq iha hu ihb
  | conditional _ hq _ hu _ ihc iha ihb => exact .conditional ihc hq iha hu ihb
  | firstFails _ ih => exact .firstFails ih
  | chain _ _ iha ih => exact .chain iha ih
  | stop hs => exact .stop (hs.renumber fun _ => id)
  | linkFails ht _ ih => exact .linkFails ht ih
  | link ht _ _ ihb ih => exact .link ht ihb ih
  | prefixedFails ht _ ih => exact .prefixedFails ht ih
  | prefixed ht _ ih => exact .prefixed ht ih
  | unprefixed hs _ ih => exact .unprefixed (hs.renumber fun _ => id) ih
  | nothingStarts hs =>
    rw [renumberResult, renumber_blame]
    exact .nothingStarts (hs.renumber fun _ => startsPrimary_of_renumber)
  | atom ha => exact .atom (ha.renumber f)
  | innerFails hk _ ih => exact .innerFails hk ih
  | parenMissing hk _ hr ih =>
    rw [renumberResult, renumber_blame]
    exact .parenMissing hk ih (hr.renumber fun _ => id)
  | group hk _ hu ih => exact .group hk ih hu

theorem Opens.renumber {ts us : List Token} {wrap : Expr → Statement} {what : Expectation}
    (h : Opens ts wrap what us) :
    Opens (ts.map (Token.renumber f)) wrap what (us.map (Token.renumber f)) := by
  cases h with
  | print ht => exact .print ht
  | bare hs => exact .bare (hs.renumber fun _ => id)

theorem Opens.renumber_wrap {ts us : List Token} {wrap : Expr → Statement} {what : Expectation}
    (h : Opens ts wrap what us) (e : Expr) :
    (wrap e).renumber f = wrap (e.renumber f) := by
  cases h <;> rfl

theorem ReadsStatement.renumber {ts left : List Token} {out : Except SyntaxError Statement}
    (h : ReadsStatement ts out left) :
    ReadsStatement (ts.map (Token.renumber f)) (renumberResult f (Statement.renumber f) out)
      (left.map (Token.renumber f)) := by
  cases h with
  | valueFails ho hx => exact .valueFails ho.renumber hx.renumber
  | semicolonMissing ho he hs =>
    rw [renumberResult, renumber_blame]
    exact .semicolonMissing ho.renumber he.renumber (hs.renumber fun _ => id)
  | complete ho he hu =>
    rw [renumberResult, ho.renumber_wrap]
    exact .complete ho.renumber he.renumber hu

theorem atEnd_renumber (ts : List Token) : atEnd (ts.map (Token.renumber f)) = atEnd ts := by
  cases ts <;> rfl

theorem skipStatement_renumber (ts : List Token) :
    skipStatement (ts.map (Token.renumber f)) = (skipStatement ts).map (Token.renumber f) := by
  induction ts with
  | nil => rfl
  | cons t ts ih =>
    simp only [List.map_cons, skipStatement, Token.kind_renumber, ih]
    split_ifs <;> rfl

theorem synchronize_renumber (ts : List Token) :
    synchronize (ts.map (Token.renumber f)) = (synchronize ts).map (Token.renumber f) := by
  cases ts with
  | nil => rfl
  | cons t ts =>
    simp only [List.map_cons, synchronize, Token.kind_renumber, skipStatement_renumber]
    split_ifs <;> rfl

theorem rounds_renumber (ts : List Token) :
    rounds (ts.map (Token.renumber f)) =
      (rounds ts).map (renumberResult f (Statement.renumber f)) := by
  cases hts : atEnd ts with
  | true =>
    have hts' : atEnd (ts.map (Token.renumber f)) = true := by rw [atEnd_renumber, hts]
    rw [rounds_of_atEnd hts, rounds_of_atEnd hts', List.map_nil]
  | false =>
    have hts' : atEnd (ts.map (Token.renumber f)) = false := by rw [atEnd_renumber, hts]
    rcases readsStatement_total ts with ⟨s, rest, h, hlt⟩ | ⟨x, left, h, hle⟩
    · rw [rounds_of_ok h, rounds_of_ok h.renumber, rounds_renumber rest, List.map_cons]
      rfl
    · cases hleft : atEnd left with
      | true =>
        have hleft' : atEnd (left.map (Token.renumber f)) = true := by rw [atEnd_renumber, hleft]
        rw [rounds_of_error h hts, rounds_of_error h.renumber hts', synchronize_of_atEnd hleft,
          synchronize_of_atEnd hleft', rounds_of_atEnd hleft, rounds_of_atEnd hleft']
        rfl
      | false =>
        have hshorter := length_synchronize_lt hleft
        rw [rounds_of_error h hts, rounds_of_error h.renumber hts', synchronize_renumber,
          rounds_renumber (synchronize left), List.map_cons]
        rfl
termination_by ts.length

theorem errorsOf_map_renumber (rs : List (Except SyntaxError Statement)) :
    errorsOf (rs.map (renumberResult f (Statement.renumber f))) =
      (errorsOf rs).map (SyntaxError.renumber f) := by
  induction rs with
  | nil => rfl
  | cons r rs ih =>
    cases r with
    | error x => exact congrArg (x.renumber f :: ·) ih
    | ok s => exact ih

theorem statementsOf_map_renumber (rs : List (Except SyntaxError Statement)) :
    statementsOf (rs.map (renumberResult f (Statement.renumber f))) =
      (statementsOf rs).map (Statement.renumber f) := by
  induction rs with
  | nil => rfl
  | cons r rs ih =>
    cases r with
    | error x => exact ih
    | ok s => exact congrArg (s.renumber f :: ·) ih

end Parse

theorem mapError_bind {α β : Type} (x : Except Fault α) (g : α → Except Fault β)
    (h : Fault → Fault) :
    (x >>= g).mapError h = x.mapError h >>= fun a => (g a).mapError h := by
  cases x <;> rfl

namespace Operator
variable {f}

theorem numbers_renumber (t : Token) (l r : Value) :
    numbers (t.renumber f) l r = (numbers t l r).mapError (Fault.renumber f) := by
  unfold numbers
  split <;> rfl

theorem arithmetic_renumber (t : Token) (l r : Value) :
    arithmetic (t.renumber f) l r = (arithmetic t l r).mapError (Fault.renumber f) := by
  unfold arithmetic
  rw [numbers_renumber, mapError_bind]
  congr 1
  funext pair
  simp only [Token.kind_renumber]
  split <;> rfl

theorem addition_renumber (t : Token) (l r : Value) :
    addition (t.renumber f) l r = (addition t l r).mapError (Fault.renumber f) := by
  unfold addition
  split
  · rfl
  · split <;> rfl

theorem comparison_renumber (t : Token) (l r : Value) :
    comparison (t.renumber f) l r = (comparison t l r).mapError (Fault.renumber f) := by
  unfold comparison
  rw [numbers_renumber, mapError_bind]
  congr 1
  funext pair
  simp only [Token.kind_renumber]
  split <;> rfl

theorem equality_renumber (kind : Kind) (l r : Value) :
    equality kind l r = (equality kind l r).mapError (Fault.renumber f) := by
  unfold equality
  split <;> rfl

theorem unary_renumber (t : Token) (value : Value) :
    unary (t.renumber f) value = (unary t value).mapError (Fault.renumber f) := by
  unfold unary
  simp only [Token.kind_renumber]
  split
  · split <;> rfl
  · rfl
  · rfl

theorem binary_renumber (t : Token) (l r : Value) :
    binary (t.renumber f) l r = (binary t l r).mapError (Fault.renumber f) := by
  unfold binary
  simp only [Token.kind_renumber, addition_renumber, arithmetic_renumber, comparison_renumber]
  split
  case h_9 | h_10 => exact equality_renumber _ l r
  all_goals rfl

end Operator

variable {f}

theorem Expr.evaluate_renumber (e : Expr) :
    (e.renumber f).evaluate = e.evaluate.mapError (Fault.renumber f) := by
  induction e with
  | literal value => rfl
  | grouping inner ih => exact ih
  | unary operator operand ih =>
    simp only [renumber, evaluate, ih, mapError_bind, Operator.unary_renumber]
  | binary left operator right ihl ihr =>
    simp only [renumber, evaluate, ihl, ihr, mapError_bind, Operator.binary_renumber]
  | ternary condition thenBranch elseBranch ihc iha ihb =>
    simp only [renumber, evaluate, ihc, iha, ihb, mapError_bind]
    congr 1
    funext c
    split <;> rfl

theorem Statement.execute_renumber (s : Statement) (output : List String) :
    (s.renumber f).execute output = (s.execute output).renumber f := by
  cases s with
  | expression e | print e =>
    simp only [renumber, execute, Expr.evaluate_renumber]
    cases e.evaluate <;> rfl

/-- Renumbered statements print the same lines and stop at the same fault, renumbered. -/
theorem interpret_renumber (ss : List Statement) (output : List String) :
    interpret output (ss.map (Statement.renumber f)) = (interpret output ss).renumber f := by
  induction ss generalizing output with
  | nil => rfl
  | cons s ss ih =>
    simp only [List.map_cons, interpret, Statement.execute_renumber]
    obtain ⟨output', fault⟩ := s.execute output
    cases fault with
    | none => exact ih output'
    | some fault => rfl

end Reckon
