import Reckon.Proofs.BlamedTokens
import Reckon.Proofs.FailureShape
import Reckon.Proofs.Lines
import Reckon.Proofs.RefusedOperators

/-!
# Diagnostics point into the source

Whatever is reported about a text is on one of its lines. Syntax errors and refusals carry a
token of the text, because the closing `eof` is never consumed and trees hold the tokens
they were read from. The errors of a stage are reported in the order of their lines.
-/
namespace Reckon
open Parse

/-- Lines are counted from 1, and each line break begins another one. -/
def IsLineOf (source : String) (line : Nat) : Prop :=
  1 ≤ line ∧ line ≤ 1 + lineBreaks source.toList

/-- What is read off a text piece by piece, and stays on the lines of the pieces, is on lines
of the text that never decrease. -/
theorem layout_lines {α : Type} {read : Placed → Option α} {line : α → Nat}
    (hread : ∀ p a, read p = some a → line a = p.line) (source : String) :
    (∀ a ∈ (Source.layout source.toList 1).filterMap read, IsLineOf source (line a)) ∧
    ((Source.layout source.toList 1).filterMap read).Pairwise fun a b => line a ≤ line b := by
  constructor
  · intro a ha
    obtain ⟨p, hp, hpa⟩ := List.mem_filterMap.mp ha
    rw [hread p a hpa]
    exact ⟨Placed.le_line_of_mem_along hp, line_le_of_mem_layout hp⟩
  · have hlines := Placed.pairwise_line_along 0 1 (Segment.split source.toList)
    refine hlines.filterMap _ fun p q hpq a ha b hb => ?_
    rwa [hread p a ha, hread q b hb]

theorem scan_errors_lines (source : String) :
    (∀ x ∈ (scan source).errors, IsLineOf source x.line) ∧
    (scan source).errors.Pairwise fun x y => x.line ≤ y.line :=
  layout_lines (fun _ _ => Placed.line_of_error?) source

theorem scan_tokens_lines (source : String) :
    (∀ t ∈ (scan source).tokens, IsLineOf source t.line) ∧
    (scan source).tokens.Pairwise fun t u => t.line ≤ u.line := by
  obtain ⟨hlines, hpairwise⟩ := layout_lines (fun _ _ => Placed.line_of_token?) source
  -- The closing `eof` is on the last line.
  have heof : IsLineOf source (1 + lineBreaks source.toList) := ⟨Nat.le_add_right 1 _, le_rfl⟩
  rw [scan, Scan.tokens_ofChars]
  constructor
  · exact List.forall_mem_append.mpr ⟨hlines, List.forall_mem_singleton.mpr heof⟩
  · refine List.pairwise_append.mpr ⟨hpairwise, List.pairwise_singleton _ _, ?_⟩
    intro t ht
    exact List.forall_mem_singleton.mpr (hlines t ht).2

def Diagnostic.scanError? : Diagnostic → Option ScanError
  | lexical x => some x
  | _ => none

def Diagnostic.syntaxError? : Diagnostic → Option SyntaxError
  | syntactic x => some x
  | _ => none

/-- What holds of diagnostics that are about a text. -/
structure PointsInto (source : String) (diagnostics : List Diagnostic) : Prop where
  lines : ∀ d ∈ diagnostics, IsLineOf source d.line
  blamed : ∀ x, .syntactic x ∈ diagnostics → ∃ t ∈ (scan source).tokens, x.token? = some t
  refused : ∀ x, .runtime x ∈ diagnostics →
    x.operator ∈ (scan source).tokens ∧ x.operator.kind ∈ x.requirement.kinds
  scan_ordered : (diagnostics.filterMap Diagnostic.scanError?).Pairwise fun x y => x.line ≤ y.line
  syntax_ordered :
    (diagnostics.filterMap Diagnostic.syntaxError?).Pairwise fun x y => x.line ≤ y.line

namespace CommandLine

/-- The syntax errors of a text blame its tokens, in their order. -/
theorem exists_blamed (mode : Mode) (source : String) :
    ∃ blamed : List Token, blamed.Sublist (scan source).tokens ∧
      (mode.syntaxErrors (scan source).tokens).map SyntaxError.token? = blamed.map some := by
  obtain ⟨ts, line, htokens, -⟩ := Session.scan_tokens source
  have heof : Token.eof line ∈ (scan source).tokens := by simp [htokens]
  have hblame : Blame (mode.syntaxErrors (scan source).tokens) (scan source).tokens := by
    cases mode with
    | program =>
      rw [Mode.syntaxErrors, problems_eq]
      exact blame_rounds _
    | value | tree =>
      rw [Mode.syntaxErrors]
      split
      · exact blame_none _
      · next hparse => exact blame_expression hparse
  exact hblame.exists_sublist heof rfl

theorem syntaxErrors_lines (mode : Mode) (source : String) :
    (∀ x ∈ mode.syntaxErrors (scan source).tokens, IsLineOf source x.line) ∧
    (mode.syntaxErrors (scan source).tokens).Pairwise fun x y => x.line ≤ y.line := by
  obtain ⟨hlines, hordered⟩ := scan_tokens_lines source
  obtain ⟨blamed, hsub, hblamed⟩ := exists_blamed mode source
  have hsame := map_line_of_blamed hblamed
  constructor
  · intro x hx
    have hmem : x.line ∈ blamed.map Token.line := hsame ▸ List.mem_map_of_mem hx
    obtain ⟨t, ht, hline⟩ := List.mem_map.mp hmem
    rw [← hline]
    exact hlines t (hsub.subset ht)
  · have hpairwise := List.pairwise_map.mpr (hordered.sublist hsub)
    rw [← hsame] at hpairwise
    exact List.pairwise_map.mp hpairwise

theorem Mode.pointsInto_errors (mode : Mode) (source : String) :
    PointsInto source (mode.errors source) := by
  obtain ⟨hscanlines, hscanordered⟩ := scan_errors_lines source
  obtain ⟨hsyntaxlines, hsyntaxordered⟩ := syntaxErrors_lines mode source
  obtain ⟨blamed, hsub, hblamed⟩ := exists_blamed mode source
  refine { lines := ?_, blamed := ?_, refused := ?_, scan_ordered := ?_, syntax_ordered := ?_ }
  · intro d hd
    simp only [Mode.errors, List.mem_append, List.mem_map] at hd
    rcases hd with ⟨x, hx, rfl⟩ | ⟨x, hx, rfl⟩
    · exact hscanlines x hx
    · exact hsyntaxlines x hx
  · intro x hx
    have hmem : x ∈ mode.syntaxErrors (scan source).tokens := by simpa [Mode.errors] using hx
    have htoken : x.token? ∈ blamed.map some := hblamed ▸ List.mem_map_of_mem hmem
    obtain ⟨t, ht, heq⟩ := List.mem_map.mp htoken
    exact ⟨t, hsub.subset ht, heq.symm⟩
  · intro x hx
    simp [Mode.errors] at hx
  · have hsame : (mode.errors source).filterMap Diagnostic.scanError? = (scan source).errors := by
      simp [Mode.errors, List.filterMap_map, Function.comp_def, Diagnostic.scanError?]
    rwa [hsame]
  · have hsame : (mode.errors source).filterMap Diagnostic.syntaxError? =
        mode.syntaxErrors (scan source).tokens := by
      simp [Mode.errors, List.filterMap_map, Function.comp_def, Diagnostic.syntaxError?]
    rwa [hsame]

theorem Mode.HasTree.operators_subset {mode : Mode} {ts : List Token} {e : Expr}
    (h : mode.HasTree ts e) : e.operators ⊆ ts := by
  cases mode with
  | value | tree => exact operators_subset_of_expression h
  | program =>
    obtain ⟨ss, hprogram, s, hs, rfl⟩ := h
    exact operators_subset_of_program hprogram hs

theorem Mode.HasTree.pointsInto_refused {mode : Mode} {source : String} {e : Expr}
    {error : RuntimeError} {operands : List Value} (h : mode.HasTree (scan source).tokens e)
    (hstop : e.evaluate = .error (.refused error operands)) :
    PointsInto source [.runtime error] := by
  obtain ⟨hoperator, hkind⟩ := e.charges_evaluate error operands hstop
  have hmem : error.operator ∈ (scan source).tokens := h.operators_subset hoperator
  exact {
    lines := List.forall_mem_singleton.mpr ((scan_tokens_lines source).1 _ hmem)
    blamed := fun x hx => nomatch List.mem_singleton.mp hx
    refused := fun x hx => by
      cases List.mem_singleton.mp hx
      exact ⟨hmem, hkind⟩
    scan_ordered := .nil
    syntax_ordered := .nil }

/-- Every diagnostic of a failure points into the source. It is on one of the lines of the
text, a syntax error carries a token of the text, and a refusal carries an operator of the
text that makes the reported demand. Neither the lines of scan errors decrease nor those of
syntax errors. -/
theorem diagnostics_in_source (mode : Mode) (source : String) {failure : Failure}
    (h : mode.Fails source failure) : PointsInto source failure.diagnostics := by
  cases h.concludes with
  | refused _ => exact mode.pointsInto_errors source
  | stopped _ htree hstop _ _ => exact htree.pointsInto_refused hstop

/-- A program with a stray character and two broken statements, and a sum that is refused on
its second line. -/
theorem diagnostics_in_source_three_lines :
    let text := "@\nprint ;\n(;"
    let semicolon (line : Nat) : Token := { kind := .semicolon, lexeme := ";", line }
    let plus : Token := { kind := .plus, lexeme := "+", line := 2 }
    let stray : ScanError := .unexpectedCharacter '@' 1
    let first : SyntaxError := .expected .expression (semicolon 2)
    let second : SyntaxError := .expected .expression (semicolon 3)
    let refused : Failure :=
      { diagnostics := [.lexical stray, .syntactic first, .syntactic second] }
    let stopped : Failure := { diagnostics := [.runtime ⟨.numbersOrStrings, plus⟩] }
    Mode.Fails .program text refused ∧ second.line ≤ 1 + lineBreaks text.toList ∧
    (∃ t ∈ (scan text).tokens, second.token? = some t) ∧ first.line ≤ second.line ∧
    Mode.Fails .value "nil\n+nil" stopped ∧ plus ∈ (scan "nil\n+nil").tokens := by
  intro text semicolon plus stray first second refused stopped
  have hrefused : (Session.run "@\nprint ;\n(;").result = .failed refused := by
    with_unfolding_all rfl
  have hstopped : (Session.evaluate "nil\n+nil").result = .failed stopped := by
    with_unfolding_all rfl
  have hprogram := diagnostics_in_source .program text hrefused
  have hsum := diagnostics_in_source .value "nil\n+nil" hstopped
  have hsecond : .syntactic second ∈ refused.diagnostics := by simp [refused]
  have hordered : first.line ≤ second.line :=
    List.rel_of_pairwise_cons hprogram.syntax_ordered List.mem_cons_self
  exact ⟨hrefused, (hprogram.lines _ hsecond).2, hprogram.blamed second hsecond,
    hordered, hstopped, (hsum.refused _ List.mem_cons_self).1⟩

end CommandLine

end Reckon
