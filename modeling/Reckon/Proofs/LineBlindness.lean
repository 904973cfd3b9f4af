import Reckon.Proofs.Concatenation

/-!
# What depends on lines

Two texts whose scans differ only in lines are treated alike. What becomes of a text is
a function of its scan, and that function commutes with every change of lines. Changing
all lines to the same one forgets them, so texts with the same tokens and errors end in
the same way, up to the lines in their diagnostics.
-/
namespace Reckon

variable {f : Nat → Nat}

theorem Parse.expression_renumber (ts : List Token) :
    Parse.expression (ts.map (Token.renumber f)) =
      renumberResult f (Expr.renumber f) (Parse.expression ts) := by
  cases h : Parse.expression ts with
  | ok e =>
    obtain ⟨t, rest, hr, ht⟩ := expression_eq_ok_iff.mp h
    exact expression_eq_ok_iff.mpr ⟨t.renumber f, rest.map (Token.renumber f), hr.renumber, ht⟩
  | error x =>
    apply expression_eq_error_iff.mpr
    rcases expression_eq_error_iff.mp h with ⟨left, hr⟩ | ⟨e, left, hr, hs, rfl⟩
    · exact .inl ⟨left.map (Token.renumber f), hr.renumber⟩
    · exact .inr ⟨e.renumber f, left.map (Token.renumber f), hr.renumber,
        hs.renumber fun _ => id, renumber_blame _ left⟩

theorem Expr.print_renumber (e : Expr) : (e.renumber f).print = e.print := by
  induction e with
  | literal value => rfl
  | unary operator operand ih => simp only [renumber, print, ih, Token.renumber]
  | binary left operator right ihl ihr => simp only [renumber, print, ihl, ihr, Token.renumber]
  | grouping inner ih => simp only [renumber, print, ih]
  | ternary condition thenBranch elseBranch ihc iha ihb =>
    simp only [renumber, print, ihc, iha, ihb]

def Verdict.renumber {α : Type} (f : Nat → Nat) : Verdict α → Verdict α
  | done result => .done result
  | failed failure => .failed (failure.renumber f)
  | misused misuse => .misused misuse

theorem Scan.isClean_renumber (scan : Scan) : (scan.renumber f).isClean = scan.isClean :=
  List.isEmpty_map

namespace Session
open Parse

/-- A result of the front end with its lines renumbered. -/
def renumberFront {α : Type} (f : Nat → Nat) (g : α → α) : Except Failure α → Except Failure α
  | .ok a => .ok (g a)
  | .error failure => .error (failure.renumber f)

/-- The tree of a scanned text. -/
def treeOf (scan : Scan) : Except Failure Expr :=
  match Parse.expression scan.tokens with
  | .ok e => if scan.isClean then .ok e else .error (refusal scan.errors [])
  | .error x => .error (refusal scan.errors [x])

/-- The statements of a scanned text. -/
def programOf (scan : Scan) : Except Failure (List Statement) :=
  if scan.errors = [] ∧ errorsOf (rounds scan.tokens) = [] then
    .ok (statementsOf (rounds scan.tokens))
  else .error (refusal scan.errors (errorsOf (rounds scan.tokens)))

theorem expression_result (source : String) :
    (expression source).result = treeOf (scan source) := by
  unfold expression treeOf
  dsimp only
  cases Parse.expression (scan source).tokens with
  | error x => rfl
  | ok e =>
    dsimp only
    split <;> rfl

theorem treeOf_eq_ok_iff {scan : Scan} {e : Expr} :
    treeOf scan = .ok e ↔ Parse.expression scan.tokens = .ok e ∧ scan.errors = [] := by
  rw [← List.isEmpty_iff, ← Scan.isClean]
  unfold treeOf
  cases Parse.expression scan.tokens with
  | error x => simp
  | ok a => cases scan.isClean <;> simp

theorem treeOf_renumber (scan : Scan) :
    treeOf (scan.renumber f) = renumberFront f (Expr.renumber f) (treeOf scan) := by
  unfold treeOf
  rw [Scan.isClean_renumber, Scan.renumber, Parse.expression_renumber]
  cases Parse.expression scan.tokens with
  | error x => exact congrArg Except.error (renumber_refusal f _ [x]).symm
  | ok e =>
    dsimp only [Parse.renumberResult]
    split
    · rfl
    · exact congrArg Except.error (renumber_refusal f _ []).symm

theorem programOf_renumber (scan : Scan) :
    programOf (scan.renumber f) =
      renumberFront f (List.map (Statement.renumber f)) (programOf scan) := by
  simp only [programOf, Scan.renumber, rounds_renumber, errorsOf_map_renumber,
    statementsOf_map_renumber, List.map_eq_nil_iff]
  split
  · rfl
  · exact congrArg Except.error (renumber_refusal f _ _).symm

theorem stop_renumber {α : Type} (output : List String) (fault : Fault) :
    (stop output (fault.renumber f) : Verdict α) = (stop output fault).renumber f := by
  cases fault <;> rfl

/-- What a tree is shown as. -/
def shown : Except Failure Expr → Verdict String
  | .ok e => .done e.print
  | .error failure => .failed failure

/-- What a tree evaluates to. -/
def valued : Except Failure Expr → Verdict Value
  | .ok e =>
    match e.evaluate with
    | .ok value => .done value
    | .error fault => stop [] fault
  | .error failure => .failed failure

/-- What statements print. -/
def printed : Except Failure (List Statement) → Verdict (List String)
  | .ok ss => verdict (interpret [] ss)
  | .error failure => .failed failure

theorem render_result (source : String) :
    (render source).result = shown (treeOf (scan source)) := by
  rw [← expression_result]
  unfold render
  cases h : (expression source).result <;> simp only [h, shown]

theorem evaluate_result (source : String) :
    (evaluate source).result = valued (treeOf (scan source)) := by
  rw [← expression_result]
  unfold evaluate
  cases h : (expression source).result with
  | error failure => simp only [h, valued]
  | ok e =>
    simp only [h, valued]
    cases e.evaluate <;> rfl

theorem run_result (source : String) :
    (run source).result = printed (programOf (scan source)) := by
  have hs : (statements source).result = programOf (scan source) := statements_result source
  rw [← hs]
  cases h : (statements source).result with
  | error failure => exact run_of_error h
  | ok ss => exact run_of_ok h

theorem shown_renumber (tree : Except Failure Expr) :
    shown (renumberFront f (Expr.renumber f) tree) = (shown tree).renumber f := by
  cases tree with
  | error failure => rfl
  | ok e => exact congrArg Verdict.done e.print_renumber

theorem valued_renumber (tree : Except Failure Expr) :
    valued (renumberFront f (Expr.renumber f) tree) = (valued tree).renumber f := by
  cases tree with
  | error failure => rfl
  | ok e =>
    simp only [renumberFront, valued, Expr.evaluate_renumber]
    cases e.evaluate with
    | ok value => rfl
    | error fault => exact stop_renumber [] fault

theorem printed_renumber (program : Except Failure (List Statement)) :
    printed (renumberFront f (List.map (Statement.renumber f)) program) =
      (printed program).renumber f := by
  cases program with
  | error failure => rfl
  | ok ss =>
    simp only [renumberFront, printed, interpret_renumber]
    obtain ⟨output, fault⟩ := interpret [] ss
    cases fault with
    | none => rfl
    | some fault => exact stop_renumber output fault

end Session

/-- Two verdicts that differ at most in the lines of their diagnostics. -/
inductive Verdict.Alike {α : Type} : Verdict α → Verdict α → Prop
  | done (result : α) : Alike (.done result) (.done result)
  | failed {f g : Failure} (output : f.output = g.output)
      (diagnostics : f.diagnostics.map (Diagnostic.renumber fun _ => 0) =
        g.diagnostics.map (Diagnostic.renumber fun _ => 0)) :
      Alike (.failed f) (.failed g)

theorem Verdict.alike_of_renumber {α : Type} {v w : Verdict α} (hv : ∀ m, v ≠ .misused m)
    (h : v.renumber (fun _ => 0) = w.renumber fun _ => 0) : v.Alike w := by
  cases v with
  | misused m => exact absurd rfl (hv m)
  | done result =>
    cases w with
    | done result' =>
      cases h
      exact .done result
    | failed _ | misused _ => cases h
  | failed failure =>
    cases w with
    | failed failure' =>
      have houtput := congrArg Failure.output (Verdict.failed.inj h)
      have hdiagnostics := congrArg Failure.diagnostics (Verdict.failed.inj h)
      exact .failed houtput hdiagnostics
    | done _ | misused _ => cases h

/-- A token with a given content on line 0. -/
def Token.ofContent (content : Kind × String × Option Literal) : Token :=
  { kind := content.1, lexeme := content.2.1, literal := content.2.2, line := 0 }

def ScanError.ofCause : Option Char → ScanError
  | some c => .unexpectedCharacter c 0
  | none => .unterminatedString 0

/-- Tokens and errors without their lines are those on line 0. -/
theorem Scan.renumber_zero (scan : Scan) :
    scan.renumber (fun _ => 0) =
      ⟨(scan.tokens.map Token.content).map Token.ofContent,
        (scan.errors.map ScanError.cause).map ScanError.ofCause⟩ := by
  have herror : ScanError.renumber (fun _ => 0) = ScanError.ofCause ∘ ScanError.cause := by
    funext e
    cases e <;> rfl
  rw [Scan.renumber, List.map_map, List.map_map, herror]
  rfl

namespace Session

/-- Nothing but the lines in diagnostics depends on lines. Texts with the same tokens and
errors, each taken without its line, are shown as the same tree, have the same value and
print the same lines, or fail in the same way. -/
theorem alike_of_same_tokens {a b : String}
    (htokens : (scan a).tokens.map Token.content = (scan b).tokens.map Token.content)
    (herrors : (scan a).errors.map ScanError.cause = (scan b).errors.map ScanError.cause) :
    (render a).result.Alike (render b).result ∧
    (evaluate a).result.Alike (evaluate b).result ∧
    (run a).result.Alike (run b).result := by
  have hscan : (scan a).renumber (fun _ => 0) = (scan b).renumber fun _ => 0 := by
    rw [Scan.renumber_zero, Scan.renumber_zero, htokens, herrors]
  refine ⟨Verdict.alike_of_renumber (render_ne_misused a) ?_,
    Verdict.alike_of_renumber (evaluate_ne_misused a) ?_,
    Verdict.alike_of_renumber (run_ne_misused a) ?_⟩
  · rw [render_result, render_result, ← shown_renumber, ← shown_renumber, ← treeOf_renumber,
      ← treeOf_renumber, hscan]
  · rw [evaluate_result, evaluate_result, ← valued_renumber, ← valued_renumber,
      ← treeOf_renumber, ← treeOf_renumber, hscan]
  · rw [run_result, run_result, ← printed_renumber, ← printed_renumber, ← programOf_renumber,
      ← programOf_renumber, hscan]

/-- A sum in one line, and the same sum spread over two with a comment. Both are refused, on
different lines. -/
theorem alike_of_same_tokens_two_lines :
    let plus (line : Nat) : Token := { kind := .plus, lexeme := "+", line }
    (scan "nil+nil").tokens.map Token.content =
      (scan "nil //\n+nil").tokens.map Token.content ∧
    (scan "nil+nil").errors.map ScanError.cause =
      (scan "nil //\n+nil").errors.map ScanError.cause ∧
    (evaluate "nil+nil").result =
      .failed { diagnostics := [.runtime ⟨.numbersOrStrings, plus 1⟩] } ∧
    (evaluate "nil //\n+nil").result =
      .failed { diagnostics := [.runtime ⟨.numbersOrStrings, plus 2⟩] } ∧
    (evaluate "nil+nil").result.Alike (evaluate "nil //\n+nil").result := by
  let contents : List (Kind × String × Option Literal) :=
    [(.nilWord, "nil", none), (.plus, "+", none), (.nilWord, "nil", none), (.eof, "", none)]
  have hnarrow : (scan "nil+nil").tokens.map Token.content = contents := by with_unfolding_all rfl
  have hwide : (scan "nil //\n+nil").tokens.map Token.content = contents := by
    with_unfolding_all rfl
  have hclean : (scan "nil+nil").errors = [] := by with_unfolding_all rfl
  have hclean' : (scan "nil //\n+nil").errors = [] := by with_unfolding_all rfl
  have htokens := hnarrow.trans hwide.symm
  have herrors : (scan "nil+nil").errors.map ScanError.cause =
      (scan "nil //\n+nil").errors.map ScanError.cause := by rw [hclean, hclean']
  exact ⟨htokens, herrors, by with_unfolding_all rfl, by with_unfolding_all rfl,
    (alike_of_same_tokens htokens herrors).2.1⟩

end Session

end Reckon
