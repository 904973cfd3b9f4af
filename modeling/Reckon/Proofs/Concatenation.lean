import Reckon.Proofs.Consumption
import Reckon.Proofs.LineJoin
import Reckon.Proofs.Safety

/-!
# Running texts joined by a line break

A text that is a program by itself, a line break and a second text. Scanning and parsing
pass from one text to the other at the line break, so what is wrong with the joined text
is what is wrong with the second one, on later lines. If nothing is, the statements of
the first text run before those of the second, and their lines are printed first.
-/
namespace Reckon

namespace Parse

theorem errorsOf_append (rs ts : List (Except SyntaxError Statement)) :
    errorsOf (rs ++ ts) = errorsOf rs ++ errorsOf ts := List.filterMap_append

theorem statementsOf_append (rs ts : List (Except SyntaxError Statement)) :
    statementsOf (rs ++ ts) = statementsOf rs ++ statementsOf ts := List.filterMap_append

/-- The statements of a program without errors are read in the same way when other tokens
stand in place of the closing one. -/
theorem rounds_append (ts : List Token) (hts : ∀ t ∈ ts, t.kind ≠ .eof) {z : Token}
    (hz : z.kind = .eof) (h : errorsOf (rounds (ts ++ [z])) = []) (rest : List Token) :
    rounds (ts ++ rest) = rounds (ts ++ [z]) ++ rounds rest := by
  cases hend : atEnd (ts ++ [z]) with
  | true =>
    cases ts with
    | nil => rw [rounds_of_atEnd hend, List.nil_append, List.nil_append]
    | cons t ts =>
      have ht : t.kind = .eof := by simpa [atEnd] using hend
      exact absurd ht (hts t List.mem_cons_self)
  | false =>
    rcases readsStatement_total (ts ++ [z]) with ⟨s, left, hr, -⟩ | ⟨x, left, hr, -⟩
    · obtain ⟨p, u, hsplit, hp, hu, hdetached⟩ := hr.consumed_of_ok
      have hzp : z ∉ p ++ [u] := by
        simp only [List.mem_append, List.mem_singleton, not_or]
        refine ⟨fun hmem => hp.kind_ne (by decide) z hmem hz, ?_⟩
        rintro rfl
        rw [hz] at hu
        cases hu
      have hsplit : ts ++ z :: [] = p ++ [u] ++ left := by simpa using hsplit
      obtain ⟨r, rfl, rfl⟩ := left_of_not_mem hsplit hzp
      rw [rounds_of_ok hr, errorsOf_ok] at h
      have hrest : ∀ t ∈ r, t.kind ≠ .eof := fun t ht => hts t (List.mem_append_right _ ht)
      have ih := rounds_append r hrest hz h rest
      have hr' := hdetached (r ++ rest)
      rw [rounds_of_ok hr, List.cons_append, ← ih, ← rounds_of_ok hr']
      simp
    · rw [rounds_of_error hr hend] at h
      cases h
termination_by ts.length

end Parse

theorem interpret_append (output : List String) (xs ys : List Statement) :
    interpret output (xs ++ ys) =
      match (interpret output xs).fault with
      | none => interpret (interpret output xs).output ys
      | some _ => interpret output xs := by
  induction xs generalizing output with
  | nil => rfl
  | cons s xs ih =>
    simp only [List.cons_append, interpret]
    obtain ⟨output', fault⟩ := s.execute output
    cases fault with
    | none => exact ih output'
    | some fault => rfl

theorem Statement.execute_printed (s : Statement) (printed output : List String) :
    s.execute (printed ++ output) =
      { s.execute output with output := printed ++ (s.execute output).output } := by
  cases s with
  | expression e =>
    simp only [execute]
    cases e.evaluate <;> rfl
  | print e =>
    simp only [execute]
    cases e.evaluate with
    | error fault => rfl
    | ok value => simp only [List.append_assoc]

/-- Lines that are printed already stay in front and have no influence. -/
theorem interpret_printed (printed output : List String) (ss : List Statement) :
    interpret (printed ++ output) ss =
      { interpret output ss with output := printed ++ (interpret output ss).output } := by
  induction ss generalizing output with
  | nil => rfl
  | cons s ss ih =>
    simp only [interpret, Statement.execute_printed]
    obtain ⟨output', fault⟩ := s.execute output
    cases fault with
    | none => exact ih output'
    | some fault => rfl

namespace Session
open Parse

/-- How a run of statements ends. -/
def verdict (run : Run) : Verdict (List String) :=
  match run.fault with
  | none => .done run.output
  | some fault => stop run.output fault

theorem run_of_ok {source : String} {ss : List Statement}
    (h : (statements source).result = .ok ss) :
    (run source).result = verdict (interpret [] ss) := by
  unfold run verdict
  simp only [h]
  cases (interpret [] ss).fault <;> rfl

theorem run_of_error {source : String} {failure : Failure}
    (h : (statements source).result = .error failure) :
    (run source).result = .failed failure := by
  unfold run
  simp only [h]

theorem statements_result (source : String) :
    (statements source).result =
      if (scan source).errors = [] ∧ errorsOf (rounds (scan source).tokens) = [] then
        .ok (statementsOf (rounds (scan source).tokens))
      else
        .error (refusal (scan source).errors (errorsOf (rounds (scan source).tokens))) := by
  unfold statements
  dsimp only
  split
  · next ss hss =>
    obtain ⟨herrors, rfl⟩ := program_eq_ok_iff.mp hss
    by_cases hclean : (scan source).errors = []
    · simp [hclean, herrors, Scan.isClean]
    · simp [hclean, herrors, Scan.isClean]
  · next xs hxs =>
    obtain ⟨rfl, hne⟩ := program_eq_error_iff.mp hxs
    simp [hne]

theorem hadError_refusal {es : List ScanError} {xs : List SyntaxError} (h : ¬ (es = [] ∧ xs = [])) :
    (refusal es xs).hadError = true := by
  cases es with
  | cons e es => rfl
  | nil =>
    cases xs with
    | cons x xs => rfl
    | nil => exact absurd ⟨rfl, rfl⟩ h

theorem renumber_refusal (f : Nat → Nat) (es : List ScanError) (xs : List SyntaxError) :
    (refusal es xs).renumber f =
      refusal (es.map (ScanError.renumber f)) (xs.map (SyntaxError.renumber f)) := by
  simp only [refusal, Failure.renumber, List.map_append, List.map_map]
  rfl

/-- A failed run was refused for what is wrong with the text, or stopped at run time. -/
theorem run_failed_cases {source : String} {failure : Failure}
    (h : (run source).result = .failed failure) :
    ((statements source).result = .error failure ∧ failure.hadError = true ∧
      failure.output = []) ∨
    ∃ ss, (statements source).result = .ok ss ∧ failure.hadError = false := by
  cases hs : (statements source).result with
  | error other =>
    rw [run_of_error hs] at h
    cases h
    rw [statements_result] at hs
    split at hs
    · cases hs
    · next hne =>
      cases hs
      exact .inl ⟨rfl, hadError_refusal hne, rfl⟩
  | ok ss =>
    rw [run_of_ok hs] at h
    unfold verdict at h
    split at h
    · cases h
    · next fault _ =>
      cases fault with
      | unsupported misuse => cases h
      | refused error operands =>
        cases h
        exact .inr ⟨ss, rfl, rfl⟩

theorem run_done_or_failed (source : String) :
    (∃ output, (run source).result = .done output) ∨
      ∃ failure, (run source).result = .failed failure := by
  cases h : (run source).result with
  | done output => exact .inl ⟨output, rfl⟩
  | failed failure => exact .inr ⟨failure, rfl⟩
  | misused misuse => exact absurd h (run_ne_misused source misuse)

/-- A text with nothing wrong in it is a program. -/
theorem exists_statements {source : String}
    (h : ¬ ∃ failure, (run source).result = .failed failure ∧ failure.hadError) :
    ∃ ss, (statements source).result = .ok ss := by
  cases hs : (statements source).result with
  | ok ss => exact ⟨ss, rfl⟩
  | error failure =>
    have hfailed := run_of_error hs
    rcases run_failed_cases hfailed with ⟨-, herror, -⟩ | ⟨_, hok, -⟩
    · exact absurd ⟨failure, hfailed, herror⟩ h
    · cases hs.symm.trans hok

/-- Nothing is wrong with a program, even if it fails. -/
theorem hadError_of_statements {source : String} {ss : List Statement} {failure : Failure}
    (hs : (statements source).result = .ok ss) (h : (run source).result = .failed failure) :
    failure.hadError = false := by
  rcases run_failed_cases h with ⟨herror, -, -⟩ | ⟨_, -, hnone⟩
  · cases hs.symm.trans herror
  · exact hnone

theorem scan_tokens (source : String) :
    ∃ ts line, (scan source).tokens = ts ++ [.eof line] ∧ ∀ t ∈ ts, t.kind ≠ .eof := by
  obtain ⟨pieces, hmunch, -⟩ := munch_split source.toList
  refine ⟨_, _, rfl, fun t ht => ?_⟩
  obtain ⟨p, hkind, hw, -⟩ := hmunch.exists_pattern ht
  exact kind_ne_eof hw hkind

/-- The statements of joined texts, of which the first is a program by itself. -/
theorem statements_append {a : String} (b : String) (hclean : (scan a).isClean)
    (hparse : ∃ ss, program (scan a).tokens = .ok ss) :
    ∃ ss, (statements a).result = .ok ss ∧
      (statements (a ++ "\n" ++ b)).result =
        match (statements b).result with
        | .ok ss' => .ok (ss ++ ss'.map (Statement.renumber (· + (1 + lineBreaks a.toList))))
        | .error failure => .error (failure.renumber (· + (1 + lineBreaks a.toList))) := by
  have hnone : (scan a).errors = [] := List.isEmpty_iff.mp hclean
  have hclosed : ∀ n, .unterminatedString n ∉ (scan a).errors := by simp [hnone]
  have hjoin : scan (a ++ "\n" ++ b) = Scan.ofChars (a.toList ++ '\n' :: b.toList) := by
    simp [scan]
  obtain ⟨htokens, herrors⟩ := Scan.ofChars_append hclosed b.toList
  rw [← hjoin, ← scan, ← scan] at htokens herrors
  obtain ⟨ts, line, ha, hts⟩ := scan_tokens a
  obtain ⟨ss, hss⟩ := hparse
  rw [ha] at hss
  obtain ⟨hgood, rfl⟩ := program_eq_ok_iff.mp hss
  have hrounds := rounds_append ts hts rfl hgood
    ((scan b).tokens.map (Token.renumber (· + (1 + lineBreaks a.toList))))
  rw [ha, List.dropLast_concat] at htokens
  rw [hnone, List.nil_append] at herrors
  rw [← htokens, rounds_renumber] at hrounds
  refine ⟨statementsOf (rounds (ts ++ [.eof line])), ?_, ?_⟩
  · rw [statements_result, ha, if_pos ⟨hnone, hgood⟩]
  · rw [statements_result, statements_result b, herrors, hrounds, errorsOf_append, hgood,
      List.nil_append, errorsOf_map_renumber, statementsOf_append, statementsOf_map_renumber]
    simp only [List.map_eq_nil_iff]
    split_ifs
    · rfl
    · simp only [renumber_refusal]

/-- A run that fails does not get to further statements. -/
theorem verdict_append_of_failed {xs : List Statement} {failure : Failure}
    (h : verdict (interpret [] xs) = .failed failure) (ys : List Statement) :
    verdict (interpret [] (xs ++ ys)) = .failed failure := by
  rw [interpret_append]
  cases hfault : (interpret [] xs).fault with
  | none =>
    rw [verdict, hfault] at h
    cases h
  | some fault => exact h

/-- A run that is done goes on with further statements, here on later lines. -/
theorem verdict_append_of_done {xs : List Statement} {printed : List String}
    (h : verdict (interpret [] xs) = .done printed) (ys : List Statement) (f : Nat → Nat) :
    verdict (interpret [] (xs ++ ys.map (Statement.renumber f))) =
      match verdict (interpret [] ys) with
      | .done output => .done (printed ++ output)
      | .failed failure =>
        .failed { failure.renumber f with output := printed ++ failure.output }
      | .misused misuse => .misused misuse := by
  have hdone : (interpret [] xs).fault = none ∧ (interpret [] xs).output = printed := by
    unfold verdict at h
    split at h
    · next hnone => exact ⟨hnone, Verdict.done.inj h⟩
    · next fault _ => cases fault <;> cases h
  have hnext := interpret_printed printed [] ys
  rw [List.append_nil] at hnext
  rw [interpret_append, hdone.1, hdone.2]
  dsimp only
  rw [interpret_renumber, hnext]
  obtain ⟨output, fault⟩ := interpret [] ys
  rcases fault with _ | ⟨error, operands⟩ | misuse <;> rfl

/-- Running a program, a line break and a second text. What is wrong with the second text is
reported, on later lines, before anything runs. Otherwise the program runs first, and if
it does not stop at run time, the second text runs after it. -/
theorem run_append_lineBreak {a : String} (b : String) (hclean : (scan a).isClean)
    (hparse : ∃ ss, program (scan a).tokens = .ok ss) :
    let shift := Failure.renumber (· + (1 + lineBreaks a.toList))
    let whole := (run (a ++ "\n" ++ b)).result
    (∀ failure, (run b).result = .failed failure → failure.hadError →
      whole = .failed (shift failure) ∧ (shift failure).output = []) ∧
    ((¬ ∃ failure, (run b).result = .failed failure ∧ failure.hadError) →
      (∀ failure, (run a).result = .failed failure →
        failure.hadError = false ∧ whole = .failed failure) ∧
      ((¬ ∃ failure, (run a).result = .failed failure) →
        ∃ output, (run a).result = .done output ∧
          ((∃ output', (run b).result = .done output' ∧ whole = .done (output ++ output')) ∨
            ∃ failure, (run b).result = .failed failure ∧ failure.hadError = false ∧
              whole = .failed { shift failure with output := output ++ failure.output }))) := by
  intro shift whole
  obtain ⟨ss, ha, hjoined⟩ := statements_append b hclean hparse
  refine ⟨fun failure hb herror => ?_, fun hb => ?_⟩
  · rcases run_failed_cases hb with ⟨hb, -, houtput⟩ | ⟨_, -, hnone⟩
    · rw [hb] at hjoined
      exact ⟨run_of_error hjoined, houtput⟩
    · rw [hnone] at herror
      cases herror
  · obtain ⟨ss', hb'⟩ := exists_statements hb
    rw [hb'] at hjoined
    have hwhole : whole = verdict (interpret [] (ss ++ ss'.map _)) := run_of_ok hjoined
    rw [hwhole]
    refine ⟨fun failure hfailed => ⟨hadError_of_statements ha hfailed, ?_⟩, fun hnot => ?_⟩
    · rw [run_of_ok ha] at hfailed
      exact verdict_append_of_failed hfailed _
    · obtain ⟨output, hdone⟩ := (run_done_or_failed a).resolve_right hnot
      refine ⟨output, hdone, ?_⟩
      rw [run_of_ok ha] at hdone
      rw [verdict_append_of_done hdone, ← run_of_ok hb']
      rcases run_done_or_failed b with ⟨output', h⟩ | ⟨failure, h⟩
      · exact .inl ⟨output', h, by rw [h]⟩
      · exact .inr ⟨failure, h, hadError_of_statements hb' h, by rw [h]⟩

/-- A program with a line break in a string, before a text that is no program and before one
that stops at run time. Both failures are on the third line. -/
theorem run_append_lineBreak_third_line :
    let semicolon (line : Nat) : Token := { kind := .semicolon, lexeme := ";", line }
    let minus (line : Nat) : Token := { kind := .minus, lexeme := "-", line }
    (scan "print \"\n\";").isClean ∧
    (∃ ss, program (scan "print \"\n\";").tokens = .ok ss) ∧
    (run ("print \"\n\";" ++ "\n" ++ ";")).result =
      .failed { diagnostics := [.syntactic (.expected .expression (semicolon 3))] } ∧
    (run ("print \"\n\";" ++ "\n" ++ "print nil; -nil;")).result =
      .failed { diagnostics := [.runtime ⟨.number, minus 3⟩], output := ["\n", "nil"] } := by
  intro semicolon minus
  have hclean : (scan "print \"\n\";").isClean := by decide +kernel
  have hparse : program (scan "print \"\n\";").tokens =
      .ok [.print (.literal (.string "\n"))] := by with_unfolding_all rfl
  have hlines : lineBreaks "print \"\n\";".toList = 1 := by decide +kernel
  have hdone : (run "print \"\n\";").result = .done ["\n"] := by with_unfolding_all rfl
  have hrefused : (run ";").result =
      .failed { diagnostics := [.syntactic (.expected .expression (semicolon 1))] } := by
    with_unfolding_all rfl
  have hstopped : (run "print nil; -nil;").result =
      .failed { diagnostics := [.runtime ⟨.number, minus 1⟩], output := ["nil"] } := by
    with_unfolding_all rfl
  refine ⟨hclean, ⟨_, hparse⟩, ?_, ?_⟩
  · have hwhole := ((run_append_lineBreak ";" hclean ⟨_, hparse⟩).1 _ hrefused rfl).1
    rwa [hlines] at hwhole
  · obtain ⟨-, hotherwise⟩ := run_append_lineBreak "print nil; -nil;" hclean ⟨_, hparse⟩
    have hprogram : ¬ ∃ failure,
        (run "print nil; -nil;").result = .failed failure ∧ failure.hadError := by
      rintro ⟨failure, h, herror⟩
      cases hstopped.symm.trans h
      cases herror
    have hruns : ¬ ∃ failure, (run "print \"\n\";").result = .failed failure := by
      rintro ⟨failure, h⟩
      cases hdone.symm.trans h
    obtain ⟨output, ha, ⟨output', hb, -⟩ | ⟨failure, hb, -, hwhole⟩⟩ :=
      (hotherwise hprogram).2 hruns
    · cases hstopped.symm.trans hb
    · cases hdone.symm.trans ha
      cases hstopped.symm.trans hb
      rwa [hlines] at hwhole

end Session

end Reckon
