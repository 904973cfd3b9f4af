import Reckon.CommandLine.Run
import Reckon.Proofs.LostReport
import Reckon.Proofs.PrintStatement

/-!
# How runs fail

A run of a text ends in one of three ways, whatever the mode. If anything is wrong with the
text, it is refused with all of that and nothing else. Otherwise it is done, or it stops
at the first operator that refuses its operands. Which of the three it is decides the shape
of a failure, and from it the exit code and what is written.
-/
namespace Reckon

theorem Statement.evaluate_of_execute {s : Statement} {output : List String} {fault : Fault}
    (h : (s.execute output).fault = some fault) : s.expr.evaluate = .error fault := by
  cases s with
  | expression e | print e =>
    simp only [execute] at h
    cases he : e.evaluate <;> rw [he] at h <;> cases h
    exact he

theorem exists_of_interpret_fault {ss : List Statement} {output : List String} {fault : Fault}
    (h : (interpret output ss).fault = some fault) :
    ∃ s ∈ ss, s.expr.evaluate = .error fault := by
  induction ss generalizing output with
  | nil => cases h
  | cons s ss ih =>
    simp only [interpret] at h
    split at h
    · obtain ⟨s', hmem, hs'⟩ := ih h
      exact ⟨s', List.mem_cons_of_mem s hmem, hs'⟩
    · exact ⟨s, List.mem_cons_self, s.evaluate_of_execute h⟩

theorem Verdict.map_eq_failed_iff {α β : Type} {f : α → β} {v : Verdict α} {failure : Failure} :
    v.map f = .failed failure ↔ v = .failed failure := by
  cases v <;> simp [Verdict.map]

theorem Verdict.map_eq_done_iff {α β : Type} {f : α → β} {v : Verdict α} {b : β} :
    v.map f = .done b ↔ ∃ a, v = .done a ∧ b = f a := by
  cases v <;> simp [Verdict.map, eq_comm]

namespace CommandLine
open Parse

namespace Mode

/-- The syntax errors of tokens that are read in a mode. -/
def syntaxErrors (mode : Mode) (ts : List Token) : List SyntaxError :=
  match mode with
  | program => problems ts
  | value | tree =>
    match Parse.expression ts with
    | .ok _ => []
    | .error x => [x]

/-- Everything that is wrong with a text: its scan errors, and then its syntax errors. -/
def errors (mode : Mode) (source : String) : List Diagnostic :=
  (scan source).errors.map .lexical ++ (mode.syntaxErrors (scan source).tokens).map .syntactic

/-- Tokens are read as a tree, or as statements of which one has that tree. -/
def HasTree (mode : Mode) (ts : List Token) (e : Expr) : Prop :=
  match mode with
  | program => ∃ ss, Parse.program ts = .ok ss ∧ ∃ s ∈ ss, s.expr = e
  | value | tree => Parse.expression ts = .ok e

/-- A text fails in a mode. -/
def Fails (mode : Mode) (source : String) (failure : Failure) : Prop :=
  match mode with
  | value => (Session.evaluate source).result = .failed failure
  | tree => (Session.render source).result = .failed failure
  | program => (Session.run source).result = .failed failure

/-- A text gives results in a mode. -/
def Returns (mode : Mode) (source : String) (results : List String) : Prop :=
  match mode with
  | value => ∃ v, (Session.evaluate source).result = .done v ∧ results = [v.text]
  | tree => ∃ text, (Session.render source).result = .done text ∧ results = [text]
  | program => (Session.run source).result = .done results

theorem errors_ne_nil_iff {mode : Mode} {source : String} :
    mode.errors source ≠ [] ↔
      ¬ (scan source).isClean ∨ mode.syntaxErrors (scan source).tokens ≠ [] := by
  rw [← not_and_or, Ne]
  simp [errors, Scan.isClean]

theorem length_syntaxErrors_le {mode : Mode} (h : mode ≠ program) (ts : List Token) :
    (mode.syntaxErrors ts).length ≤ 1 := by
  cases mode with
  | program => exact absurd rfl h
  | value | tree => cases hparse : Parse.expression ts <;> simp [syntaxErrors, hparse]

end Mode

/-- The ways in which a run can end. -/
inductive Concludes {α : Type} (mode : Mode) (source : String) : Verdict α → Prop
  | done (result : α) : mode.errors source = [] → Concludes mode source (.done result)
  | refused : mode.errors source ≠ [] →
      Concludes mode source (.failed { diagnostics := mode.errors source })
  | stopped {e : Expr} {error : RuntimeError} {operands : List Value} {output : List String} :
      mode.errors source = [] → mode.HasTree (scan source).tokens e →
      e.evaluate = .error (.refused error operands) → mode ≠ .tree →
      (mode ≠ .program → output = []) →
      Concludes mode source (.failed { diagnostics := [.runtime error], output })

theorem Concludes.map {α β : Type} {mode : Mode} {source : String} {v : Verdict α}
    (h : Concludes mode source v) (f : α → β) : Concludes mode source (v.map f) := by
  cases h with
  | done result hnone => exact .done (f result) hnone
  | refused hsome => exact .refused hsome
  | stopped hnone htree hstop hmode houtput => exact .stopped hnone htree hstop hmode houtput

/-- What a text that is no expression is refused with, evaluated or shown. -/
theorem treeOf_error {source : String} {failure : Failure}
    (h : Session.treeOf (scan source) = .error failure) :
    Mode.errors .value source ≠ [] ∧ failure = { diagnostics := Mode.errors .value source } := by
  unfold Session.treeOf at h
  cases hparse : Parse.expression (scan source).tokens with
  | ok e =>
    simp only [hparse] at h
    split at h
    · cases h
    · next hclean =>
      cases h
      have hsome : (scan source).errors ≠ [] := by simpa [Scan.isClean] using hclean
      simp [Mode.errors, Mode.syntaxErrors, hparse, hsome, Session.refusal]
  | error x =>
    simp only [hparse] at h
    cases h
    simp [Mode.errors, Mode.syntaxErrors, hparse, Session.refusal]

theorem treeOf_ok {source : String} {e : Expr} (h : Session.treeOf (scan source) = .ok e) :
    Mode.errors .value source = [] ∧ Mode.HasTree .value (scan source).tokens e := by
  obtain ⟨hparse, hclean⟩ := Session.treeOf_eq_ok_iff.mp h
  exact ⟨by simp [Mode.errors, Mode.syntaxErrors, hparse, hclean], hparse⟩

theorem concludes_render (source : String) :
    Concludes .tree source (Session.render source).result := by
  rw [Session.render_result]
  cases htree : Session.treeOf (scan source) with
  | error failure =>
    obtain ⟨hsome, rfl⟩ := treeOf_error htree
    exact .refused hsome
  | ok e => exact .done _ (treeOf_ok htree).1

theorem concludes_evaluate (source : String) :
    Concludes .value source (Session.evaluate source).result := by
  rw [Session.evaluate_result]
  cases htree : Session.treeOf (scan source) with
  | error failure =>
    obtain ⟨hsome, rfl⟩ := treeOf_error htree
    exact .refused hsome
  | ok e =>
    obtain ⟨hnone, hhas⟩ := treeOf_ok htree
    have hsupported : e.Supported := Parse.expression_supported hhas
    simp only [Session.valued]
    rcases settles_iff.mp hsupported.settles with ⟨v, hv⟩ | ⟨error, operands, hstop⟩
    · rw [hv]
      exact .done v hnone
    · rw [hstop]
      exact .stopped hnone hhas hstop (by decide) fun _ => rfl

theorem concludes_run (source : String) :
    Concludes .program source (Session.run source).result := by
  have hrounds := problems_eq (scan source).tokens
  rw [Session.run_result, Session.programOf, ← hrounds]
  split
  · next hnone =>
    obtain ⟨hclean, hproblems⟩ := hnone
    rw [hproblems] at hrounds
    have hprogram := program_eq_ok_iff.mpr ⟨hrounds.symm, rfl⟩
    have herrors : Mode.errors .program source = [] := by
      simp [Mode.errors, Mode.syntaxErrors, hclean, hproblems]
    simp only [Session.printed, Session.verdict]
    split
    · exact .done _ herrors
    · next fault hfault =>
      obtain ⟨s, hs, hstop⟩ := exists_of_interpret_fault hfault
      cases fault with
      | unsupported misuse => exact absurd hstop ((program_supported hprogram s hs).settles misuse)
      | refused error operands =>
        exact .stopped herrors ⟨_, hprogram, s, hs, rfl⟩ hstop (by decide) fun h => absurd rfl h
  · next hsome =>
    refine .refused ?_
    simpa [Mode.errors, Mode.syntaxErrors] using hsome

theorem concludes_runIn (mode : Mode) (source : String) :
    Concludes mode source (runIn mode source).result := by
  cases mode with
  | value => exact (concludes_evaluate source).map _
  | tree => exact (concludes_render source).map _
  | program => exact concludes_run source

theorem runIn_failed_iff {mode : Mode} {source : String} {failure : Failure} :
    (runIn mode source).result = .failed failure ↔ mode.Fails source failure := by
  cases mode with
  | value | tree => exact Verdict.map_eq_failed_iff
  | program => exact Iff.rfl

theorem runIn_done_iff {mode : Mode} {source : String} {results : List String} :
    (runIn mode source).result = .done results ↔ mode.Returns source results := by
  cases mode with
  | value | tree => exact Verdict.map_eq_done_iff
  | program => exact Iff.rfl

theorem Mode.Fails.concludes {mode : Mode} {source : String} {failure : Failure}
    (h : mode.Fails source failure) :
    Concludes mode source (.failed failure : Verdict (List String)) := by
  have hruns := concludes_runIn mode source
  rwa [runIn_failed_iff.mpr h] at hruns

/-- A text with something wrong in it fails with all of that. -/
theorem fails_of_errors {mode : Mode} {source : String} (h : mode.errors source ≠ []) :
    mode.Fails source { diagnostics := mode.errors source } := by
  have hruns := concludes_runIn mode source
  rw [← runIn_failed_iff]
  generalize (runIn mode source).result = v at hruns
  cases hruns with
  | done _ hnone => exact absurd hnone h
  | refused _ => rfl
  | stopped hnone => exact absurd hnone h

theorem hadError_errors {mode : Mode} {source : String} (h : mode.errors source ≠ []) :
    ({ diagnostics := mode.errors source } : Failure).hadError = true := by
  refine Session.hadError_refusal ?_
  simpa [Mode.errors] using h

theorem hadRuntimeError_errors (mode : Mode) (source : String) :
    ({ diagnostics := mode.errors source } : Failure).hadRuntimeError = false :=
  Session.hadRuntimeError_refusal _ _

/-- What a failure looks like. -/
structure IsShaped (mode : Mode) (source : String) (failure : Failure) : Prop where
  reported : failure.diagnostics ≠ []
  one_cause : failure.hadError = true ∧ failure.hadRuntimeError = false ∨
    failure.hadError = false ∧ failure.hadRuntimeError = true
  refused : failure.hadError →
    failure.output = [] ∧
    failure.diagnostics = (scan source).errors.map .lexical ++
      (mode.syntaxErrors (scan source).tokens).map .syntactic ∧
    (mode ≠ .program → (mode.syntaxErrors (scan source).tokens).length ≤ 1)
  stopped : failure.hadRuntimeError →
    failure.diagnostics.length = 1 ∧ mode ≠ .tree ∧ (mode ≠ .program → failure.output = [])

theorem Mode.Fails.isShaped {mode : Mode} {source : String} {failure : Failure}
    (h : mode.Fails source failure) : IsShaped mode source failure := by
  cases h.concludes with
  | refused hsome =>
    have herror := hadError_errors hsome
    have hruntime := hadRuntimeError_errors mode source
    exact {
      reported := hsome
      one_cause := .inl ⟨herror, hruntime⟩
      refused := fun _ => ⟨rfl, rfl, fun hmode => Mode.length_syntaxErrors_le hmode _⟩
      stopped := fun hstop => by simp [hruntime] at hstop }
  | stopped _ _ _ hmode houtput =>
    exact {
      reported := List.cons_ne_nil _ _
      one_cause := .inr ⟨rfl, rfl⟩
      refused := nofun
      stopped := fun _ => ⟨rfl, hmode, houtput⟩ }

theorem exists_hadError_iff {mode : Mode} {source : String} :
    (∃ failure, mode.Fails source failure ∧ failure.hadError) ↔ mode.errors source ≠ [] := by
  constructor
  · rintro ⟨failure, hfails, herror⟩
    cases hfails.concludes with
    | refused hsome => exact hsome
    | stopped => cases herror
  · intro hsome
    exact ⟨_, fails_of_errors hsome, hadError_errors hsome⟩

/-- A text is not shown as a tree exactly when it is refused as an expression. -/
theorem fails_tree_iff {source : String} {failure : Failure} :
    Mode.Fails .tree source failure ↔ Mode.Fails .value source failure ∧ failure.hadError := by
  constructor
  · intro h
    cases h.concludes with
    | refused hsome => exact ⟨fails_of_errors hsome, hadError_errors hsome⟩
    | stopped _ _ _ hmode => exact absurd rfl hmode
  · rintro ⟨h, herror⟩
    cases h.concludes with
    | refused hsome => exact fails_of_errors hsome
    | stopped => cases herror

/-- No event is shown unless more detail is asked for. -/
theorem logLines_warn (stamp : String) (events : List Event) :
    logLines stamp .warn events = "" := by
  have hnone : events.filter (fun e => e.detail.rank ≤ Detail.warn.rank) = [] := by
    refine List.filter_eq_nil_iff.mpr fun e _ => ?_
    cases e <;> simp [Event.detail, Detail.rank]
  rw [logLines, hnone]
  rfl

/-- What is written for one text without any log lines. -/
def quietly (mode : Mode) (source : String) : Response :=
  match (runIn mode source).result with
  | .done results => { stdout := lines results }
  | .failed failure =>
    { stdout := lines failure.output
      stderr := lines [failure.message]
      exit := if failure.hadError then Response.badText else Response.badOperand }
  | .misused misuse => { stderr := lines [misuse.message], exit := Response.badTree }

theorem respond_warn {options : Options} (h : options.detail = .warn) (stamp source : String) :
    respond options stamp source = quietly options.mode source := by
  simp only [respond, quietly, h, logLines_warn]
  cases (runIn options.mode source).result <;> simp only [String.empty_append]

/-- Nothing is written ahead of a response without log lines. -/
theorem Response.empty_append (response : Response) : ({} : Response) ++ response = response := by
  change Response.append _ _ = _
  simp [Response.append]

theorem run_once {arguments : List String} {options : Options} {contents source : String}
    {read : Reader} (hrequest : Request.ofArguments arguments = .once options contents)
    (hdetail : options.detail = .warn)
    (hsource : (if options.file then read contents else .ok contents) = .ok source)
    (input : ByteArray) (stamp : String) :
    run read input stamp arguments = quietly options.mode source := by
  simp only [run, hrequest, once]
  split at hsource
  · next hfile =>
    simp only [hfile, if_true, hsource, hdetail, logLines_warn, respond_warn hdetail]
    exact Response.empty_append _
  · next hfile =>
    cases hsource
    simp only [hfile, Bool.false_eq_true, if_false, respond_warn hdetail]

/-- What the response to one text tells about it. -/
structure Answers (mode : Mode) (source : String) (response : Response) : Prop where
  done : response.exit = 0 ↔ ∃ results, mode.Returns source results
  results : ∀ results, mode.Returns source results →
    response.stdout = lines results ∧ response.stderr = ""
  refused : response.exit = 65 ↔
    ¬ (scan source).isClean ∨ mode.syntaxErrors (scan source).tokens ≠ []
  silent : response.exit = 65 → response.stdout = ""
  stopped : response.exit = 70 ↔ ∃ failure, mode.Fails source failure ∧ failure.hadRuntimeError
  reported : ∀ failure, mode.Fails source failure →
    response.stdout = lines failure.output ∧ response.stderr = lines [failure.message]

theorem answers_quietly (mode : Mode) (source : String) :
    Answers mode source (quietly mode source) := by
  have hreturns : ∀ results, mode.Returns source results ↔
      (runIn mode source).result = .done results := fun _ => runIn_done_iff.symm
  have hfails : ∀ failure, mode.Fails source failure ↔
      (runIn mode source).result = .failed failure := fun _ => runIn_failed_iff.symm
  have hruns := concludes_runIn mode source
  unfold quietly
  generalize (runIn mode source).result = v at hreturns hfails hruns
  cases hruns with
  | done results hnone =>
    exact {
      done := iff_of_true rfl ⟨results, (hreturns results).mpr rfl⟩
      results := fun r hr => by
        cases (hreturns r).mp hr
        exact ⟨rfl, rfl⟩
      refused := iff_of_false nofun fun h => Mode.errors_ne_nil_iff.mpr h hnone
      silent := nofun
      stopped := iff_of_false nofun fun ⟨f, hf, _⟩ => nomatch (hfails f).mp hf
      reported := fun f hf => nomatch (hfails f).mp hf }
  | refused hsome =>
    have hruntime := hadRuntimeError_errors mode source
    simp only [hadError_errors hsome, if_true]
    exact {
      done := iff_of_false nofun fun ⟨r, hr⟩ => nomatch (hreturns r).mp hr
      results := fun r hr => nomatch (hreturns r).mp hr
      refused := iff_of_true rfl (Mode.errors_ne_nil_iff.mp hsome)
      silent := fun _ => rfl
      stopped := iff_of_false nofun fun ⟨f, hf, hstop⟩ => by
        cases (hfails f).mp hf
        rw [hruntime] at hstop
        cases hstop
      reported := fun f hf => by
        cases (hfails f).mp hf
        exact ⟨rfl, rfl⟩ }
  | @stopped e error operands output hnone =>
    have herror : ({ diagnostics := [.runtime error], output } : Failure).hadError = false := rfl
    simp only [herror, Bool.false_eq_true, if_false]
    exact {
      done := iff_of_false nofun fun ⟨r, hr⟩ => nomatch (hreturns r).mp hr
      results := fun r hr => nomatch (hreturns r).mp hr
      refused := iff_of_false nofun fun h => Mode.errors_ne_nil_iff.mpr h hnone
      silent := nofun
      stopped := iff_of_true rfl ⟨_, (hfails _).mpr rfl, rfl⟩
      reported := fun f hf => by
        cases (hfails f).mp hf
        exact ⟨rfl, rfl⟩ }

/-- Every failure has one of two shapes. A text with something wrong in it is refused in all
modes, with all its scan errors and then its syntax errors, and prints nothing; otherwise
only one operator can be reported, and only programs have printed something before. A
tree is shown unless the text is refused as an expression. So the exit code tells how
the run of one text has ended, and what is written is its results or its failure. -/
theorem failures_documented :
    (∀ (mode : Mode) (source : String) (failure : Failure),
      mode.Fails source failure → IsShaped mode source failure) ∧
    (∀ (mode : Mode) (source : String),
      (∃ failure, mode.Fails source failure ∧ failure.hadError) ↔
        ¬ (scan source).isClean ∨ mode.syntaxErrors (scan source).tokens ≠ []) ∧
    (∀ (source : String) (failure : Failure),
      Mode.Fails .tree source failure ↔ Mode.Fails .value source failure ∧ failure.hadError) ∧
    ∀ (read : Reader) (input : ByteArray) (stamp : String) (arguments : List String)
      (options : Options) (contents source : String),
      Request.ofArguments arguments = .once options contents → options.detail = .warn →
      (if options.file then read contents else .ok contents) = .ok source →
      Answers options.mode source (run read input stamp arguments) := by
  refine ⟨fun mode source failure => Mode.Fails.isShaped, fun mode source => ?_,
    fun source failure => fails_tree_iff,
    fun read input stamp arguments options contents source hrequest hdetail hsource => ?_⟩
  · rw [exists_hadError_iff, Mode.errors_ne_nil_iff]
  · rw [run_once hrequest hdetail hsource]
    exact answers_quietly options.mode source

/-- A program that prints a line and stops at its second statement, and a file with an open
parenthesis. The first ends with what it printed, the second without any output. -/
theorem failures_documented_two_ways :
    let text := "print nil; -nil;"
    let minus : Token := { kind := .minus, lexeme := "-", line := 1 }
    let stopped : Failure := { diagnostics := [.runtime ⟨.number, minus⟩], output := ["nil"] }
    let refused : Failure := { diagnostics := [.syntactic (.expected .expression (.eof 1))] }
    let read : Reader := fun _ => .ok "("
    Mode.Fails .program text stopped ∧ stopped.hadRuntimeError ∧ stopped.diagnostics.length = 1 ∧
    Mode.Fails .value "(" refused ∧ refused.hadError ∧ refused.output = [] ∧
    (Mode.syntaxErrors .value (scan "(").tokens).length ≤ 1 ∧
    Request.ofArguments ["-p", "--", text] = .once { mode := .program } text ∧
    Request.ofArguments ["-f", "a"] = .once { file := true } "a" ∧
    (run read .empty "" ["-p", "--", text]).exit = 70 ∧
    (run read .empty "" ["-p", "--", text]).stdout = lines ["nil"] ∧
    (run read .empty "" ["-f", "a"]).exit = 65 ∧ (run read .empty "" ["-f", "a"]).stdout = "" := by
  intro text minus stopped refused read
  obtain ⟨hshape, hrefusal, -, hanswers⟩ := failures_documented
  have hstopped : (Session.run "print nil; -nil;").result = .failed stopped := by
    with_unfolding_all rfl
  have hrefused : (Session.evaluate "(").result = .failed refused := by with_unfolding_all rfl
  have hprogram : Request.ofArguments ["-p", "--", text] = .once { mode := .program } text := by
    cbv
  have hfile : Request.ofArguments ["-f", "a"] = .once { file := true } "a" := by cbv
  have hstopshape := hshape .program text stopped hstopped
  have hrefusalshape := hshape .value "(" refused hrefused
  have hfirst := hanswers read .empty "" _ _ _ text hprogram rfl rfl
  have hsecond := hanswers read .empty "" _ _ _ "(" hfile rfl rfl
  have hexit := hsecond.refused.mpr ((hrefusal .value "(").mp ⟨refused, hrefused, rfl⟩)
  exact ⟨hstopped, rfl, (hstopshape.stopped rfl).1, hrefused, rfl, (hrefusalshape.refused rfl).1,
    (hrefusalshape.refused rfl).2.2 (by decide), hprogram, hfile,
    hfirst.stopped.mpr ⟨stopped, hstopped, rfl⟩, (hfirst.reported stopped hstopped).1, hexit,
    hsecond.silent hexit⟩

end CommandLine

end Reckon
