import Reckon.Proofs.LineBlindness
import Reckon.Proofs.Spacing

/-!
# An expression as a print statement

A text with `print` in front and a semicolon on a further line. The tokens of the text
stand in between as they are and on the same lines, also if it ends in a comment. So a text
that is an expression becomes a program of one statement, which prints the value of the
expression or stops where its evaluation stops.
-/
namespace Reckon
open Grammar Parse

/-- A text as a print statement. -/
def printing (source : String) : String := "print " ++ source ++ "\n;"

def printToken : Token := { kind := .printWord, lexeme := "print", line := 1 }

theorem scan_print (source : String) :
    scan ("print " ++ source) =
      ⟨printToken :: (scan source).tokens, (scan source).errors⟩ := by
  have htext : ("print " ++ source).toList = "print".toList ++ ' ' :: source.toList := by simp
  have hword : Segment.leading 'p' "rint".toList =
      (.token .printWord none, "rint".toList.length) := rfl
  have hapart : Segment.Apart (' ' :: source.toList) := by
    rintro d ⟨⟩
    rfl
  have hlines : lineBreaks ('p' :: "rint".toList) = 0 := by decide
  have hscan := Scan.ofChars_token hword hapart.separated
  rw [Scan.ofChars_blank rfl, hlines, Scan.renumber_add_zero] at hscan
  rw [scan, htext]
  exact hscan

/-- The line break also ends a comment at the end of the text. -/
theorem scan_semicolon {source : String} {ts : List Token} {line : Nat}
    (hclean : (scan source).errors = []) (hts : (scan source).tokens = ts ++ [.eof line]) :
    ∃ u last, u.kind = .semicolon ∧ scan (source ++ "\n;") = ⟨ts ++ [u, .eof last], []⟩ := by
  have hclosed : ∀ n, .unterminatedString n ∉ (scan source).errors := by simp [hclean]
  have htext : scan (source ++ "\n;") = Scan.ofChars (source.toList ++ ['\n', ';']) := by
    rw [scan, String.toList_append]
    rfl
  have hsemicolon : Scan.ofChars [';'] =
      ⟨[{ kind := .semicolon, lexeme := ";", line := 1 }, .eof 1], []⟩ := by
    with_unfolding_all rfl
  obtain ⟨htokens, herrors⟩ := Scan.ofChars_append hclosed [';']
  rw [← htext, ← scan, hsemicolon] at htokens herrors
  rw [hts, List.dropLast_concat] at htokens
  rw [hclean] at herrors
  exact ⟨_, _, rfl, congrArg₂ Scan.mk htokens herrors⟩

theorem rounds_print {ts : List Token} {e : Expr} {u : Token} (last : Nat)
    (h : Derives .ternary ts e) (hu : u.kind = .semicolon) :
    rounds (printToken :: (ts ++ [u, .eof last])) = [.ok (.print e)] := by
  have hreads := reads_of_derives h (.inr hu) [.eof last]
  rw [rounds_of_ok (.complete (.print rfl) hreads hu), rounds_of_atEnd rfl]

namespace Session

/-- An expression with a semicolon behind it is a program of one statement when it is
printed. -/
theorem programOf_print {source : String} {ts : List Token} {e : Expr} {u : Token} {last : Nat}
    (hscan : scan source = ⟨ts ++ [u, .eof last], []⟩) (h : Derives .ternary ts e)
    (hu : u.kind = .semicolon) : programOf (scan ("print " ++ source)) = .ok [.print e] := by
  rw [programOf, scan_print, hscan, rounds_print last h hu]
  rfl

/-- A text that is an expression is a program of one statement when it is printed. -/
theorem programOf_printing {source : String} {e : Expr} (h : treeOf (scan source) = .ok e) :
    programOf (scan (printing source)) = .ok [.print e] := by
  obtain ⟨ts, line, htokens, hts⟩ := scan_tokens source
  obtain ⟨hparse, hclean⟩ := treeOf_eq_ok_iff.mp h
  rw [htokens] at hparse
  obtain ⟨u, last, hu, hscan⟩ := scan_semicolon hclean htokens
  rw [printing, String.append_assoc]
  exact programOf_print hscan (derives_of_expression hts hparse) hu

/-- A print statement alone does what evaluating its expression does. -/
theorem printed_print (e : Expr) :
    printed (.ok [.print e]) = (valued (.ok e)).map fun value => [value.text] := by
  simp only [printed, valued, verdict, interpret, Statement.execute]
  cases e.evaluate with
  | ok value => rfl
  | error fault => cases fault <;> rfl

theorem hadRuntimeError_refusal (es : List ScanError) (xs : List SyntaxError) :
    (refusal es xs).hadRuntimeError = false := by
  simp [Failure.hadRuntimeError, refusal, Diagnostic.isRuntime]

/-- A text that is no expression is not refused for a runtime error. -/
theorem hadRuntimeError_of_treeOf {scan : Scan} {failure : Failure}
    (h : treeOf scan = .error failure) : failure.hadRuntimeError = false := by
  unfold treeOf at h
  split at h
  · split at h
    · cases h
    · cases h
      exact hadRuntimeError_refusal _ _
  · cases h
    exact hadRuntimeError_refusal _ _

theorem output_of_valued {e : Expr} {failure : Failure} (h : valued (.ok e) = .failed failure) :
    failure.output = [] := by
  simp only [valued] at h
  split at h
  · cases h
  · next fault _ =>
    cases fault <;> cases h
    rfl

/-- Expressions and programs agree. A text with a value prints that value, and one whose
evaluation stops at run time stops in the same way, with nothing printed. -/
theorem run_printing (source : String) :
    (∀ value, (evaluate source).result = .done value →
      (run (printing source)).result = .done [value.text]) ∧
    (∀ failure, (evaluate source).result = .failed failure → failure.hadRuntimeError →
      (run (printing source)).result = .failed failure ∧ failure.output = []) := by
  rw [evaluate_result, run_result]
  cases htree : treeOf (scan source) with
  | error refused =>
    refine ⟨nofun, fun failure h hruntime => ?_⟩
    cases h
    rw [hadRuntimeError_of_treeOf htree] at hruntime
    cases hruntime
  | ok e =>
    rw [programOf_printing htree, printed_print]
    refine ⟨fun value h => ?_, fun failure h _ => ⟨?_, output_of_valued h⟩⟩
    · rw [h, Verdict.map]
    · rw [h, Verdict.map]

/-- A string over two lines and a comment, and a sum that is refused on its second line. -/
theorem run_printing_two_lines :
    let plus : Token := { kind := .plus, lexeme := "+", line := 2 }
    let failure : Failure := { diagnostics := [.runtime ⟨.numbersOrStrings, plus⟩] }
    (evaluate "\"\n\"//").result = .done (.string "\n") ∧
    (run "print \"\n\"//\n;").result = .done ["\n"] ∧
    (evaluate "nil\n+nil").result = .failed failure ∧ failure.hadRuntimeError ∧
    (run "print nil\n+nil\n;").result = .failed failure := by
  intro plus failure
  have hvalue : (evaluate "\"\n\"//").result = .done (.string "\n") := by
    with_unfolding_all rfl
  have hfailed : (evaluate "nil\n+nil").result = .failed failure := by with_unfolding_all rfl
  have hprint := (run_printing _).1 _ hvalue
  have hstop := ((run_printing _).2 _ hfailed rfl).1
  have hfirst : printing "\"\n\"//" = "print \"\n\"//\n;" := by decide
  have hsecond : printing "nil\n+nil" = "print nil\n+nil\n;" := by decide
  rw [hfirst] at hprint
  rw [hsecond] at hstop
  exact ⟨hvalue, hprint, hfailed, rfl, hstop⟩

end Session

end Reckon
