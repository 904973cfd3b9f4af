import Reckon.Proofs.Concatenation

/-!
# What a run prints

A statement prints at most one line, and one whose expression ends in a fault prints none. So
a run adds to the lines that are there what the statements before the first fault print, in
order, and nothing of the statement that stops it. Calls on one interpreter only add lines at
the end, whatever they are and however they end.
-/
namespace Reckon

/-- The fault in which an expression ends. -/
def Expr.fault? (e : Expr) : Option Fault :=
  match e.evaluate with
  | .ok _ => none
  | .error fault => some fault

namespace Statement

/-- Whether the expression of a statement ends in a fault. -/
def fails (s : Statement) : Bool := s.expr.fault?.isSome

/-- The text of the value of a print statement, if there is a value. -/
def printed : Statement → List String
  | expression _ => []
  | print e =>
    match e.evaluate with
    | .ok value => [value.text]
    | .error _ => []

section
variable {s : Statement} {value : Value} {fault : Fault}

theorem fails_iff : s.fails = true ↔ ∃ fault, s.expr.evaluate = .error fault := by
  unfold fails Expr.fault?
  cases s.expr.evaluate <;> simp

theorem not_fails_iff : s.fails = false ↔ ∃ value, s.expr.evaluate = .ok value := by
  unfold fails Expr.fault?
  cases s.expr.evaluate <;> simp

theorem execute_of_ok (h : s.expr.evaluate = .ok value) (output : List String) :
    s.execute output = { output := output ++ s.printed } := by
  cases s with
  | expression e =>
    have h : e.evaluate = .ok value := h
    rw [execute, h, printed, List.append_nil]
  | print e =>
    have h : e.evaluate = .ok value := h
    simp only [execute, printed, h]

theorem execute_of_error (h : s.expr.evaluate = .error fault) (output : List String) :
    s.execute output = { output, fault := some fault } := by
  cases s with
  | expression e | print e =>
    have h : e.evaluate = .error fault := h
    rw [execute, h]

theorem printed_of_error (h : s.expr.evaluate = .error fault) : s.printed = [] := by
  cases s with
  | expression e => rfl
  | print e =>
    have h : e.evaluate = .error fault := h
    rw [printed, h]

end

end Statement

/-- How many statements are executed before the first one that fails. -/
def faultless (ss : List Statement) : Nat := ss.findIdx Statement.fails

/-- What statements print before the first one that fails. -/
def printedBy (ss : List Statement) : List String :=
  (ss.take (faultless ss)).flatMap Statement.printed

/-- What a run prints and how it ends, in one equation. -/
theorem interpret_eq (output : List String) (ss : List Statement) :
    interpret output ss =
      { output := output ++ printedBy ss
        fault := ss[faultless ss]?.bind fun s => s.expr.fault? } := by
  induction ss generalizing output with
  | nil => simp [faultless, printedBy]
  | cons s ss ih =>
    cases h : s.expr.evaluate with
    | ok value =>
      have hfirst : faultless (s :: ss) = faultless ss + 1 := by
        simp only [faultless, List.findIdx_cons, Statement.not_fails_iff.mpr ⟨value, h⟩,
          cond_false]
      have hprinted : printedBy (s :: ss) = s.printed ++ printedBy ss := by
        rw [printedBy, hfirst, List.take_succ_cons, List.flatMap_cons, printedBy]
      rw [interpret, Statement.execute_of_ok h]
      dsimp only
      rw [ih, hfirst, hprinted, List.getElem?_cons_succ, List.append_assoc]
    | error fault =>
      have hfirst : faultless (s :: ss) = 0 := by
        simp only [faultless, List.findIdx_cons, Statement.fails_iff.mpr ⟨fault, h⟩,
          cond_true]
      have hfault : s.expr.fault? = some fault := by rw [Expr.fault?, h]
      rw [interpret, Statement.execute_of_error h]
      simp [printedBy, hfirst, hfault]

theorem exists_value_of_mem_take {ss : List Statement} {s : Statement}
    (h : s ∈ ss.take (faultless ss)) : ∃ value, s.expr.evaluate = .ok value := by
  obtain ⟨i, hi, rfl⟩ := List.mem_take_iff_getElem.mp h
  have hlt : i < faultless ss := lt_of_lt_of_le hi (Nat.min_le_left _ _)
  exact Statement.not_fails_iff.mp (List.not_of_lt_findIdx hlt)

theorem exists_fault_of_getElem? {ss : List Statement} {s : Statement}
    (h : ss[faultless ss]? = some s) : ∃ fault, s.expr.evaluate = .error fault := by
  obtain ⟨hlt, rfl⟩ := List.getElem?_eq_some_iff.mp h
  exact Statement.fails_iff.mp List.findIdx_getElem

/-- What an interpreter can be asked for. -/
inductive Call where
  | evaluate (expr : Expr)
  | execute (statement : Statement)
  | interpret (statements : List Statement)

namespace Call

/-- The lines after a call on an interpreter that has printed some, and the fault in which the
call ends. -/
def perform (output : List String) : Call → Run
  | evaluate e => { output, fault := e.fault? }
  | execute s => s.execute output
  | interpret ss => Reckon.interpret output ss

/-- The lines that a call adds. -/
def printed : Call → List String
  | evaluate _ => []
  | execute s => s.printed
  | interpret ss => printedBy ss

theorem output_perform (call : Call) (output : List String) :
    (call.perform output).output = output ++ call.printed := by
  cases call with
  | evaluate e => exact (List.append_nil output).symm
  | execute s =>
    cases h : s.expr.evaluate with
    | ok value => rw [perform, Statement.execute_of_ok h, printed]
    | error fault =>
      rw [perform, Statement.execute_of_error h, printed, Statement.printed_of_error h,
        List.append_nil]
  | interpret ss => rw [perform, interpret_eq, printed]

/-- The lines after calls on one interpreter, in order. -/
def performAll (output : List String) (calls : List Call) : List String :=
  calls.foldl (fun output call => (call.perform output).output) output

theorem performAll_eq (output : List String) (calls : List Call) :
    performAll output calls = output ++ calls.flatMap printed := by
  induction calls generalizing output with
  | nil => exact (List.append_nil output).symm
  | cons call calls ih =>
    calc performAll output (call :: calls)
        = performAll (call.perform output).output calls := rfl
      _ = output ++ call.printed ++ calls.flatMap printed := by rw [ih, output_perform]
      _ = output ++ (call :: calls).flatMap printed := by
          rw [List.flatMap_cons, List.append_assoc]

theorem performAll_isPrefix (output : List String) (calls more : List Call) :
    performAll output calls <+: performAll output (calls ++ more) := by
  rw [performAll_eq, performAll_eq, List.flatMap_append, ← List.append_assoc]
  exact List.prefix_append _ _

end Call

/-- A run prints what the statements before the first fault print, and nothing else. It ends in
the fault of the first statement that fails, if there is one. Calls on one interpreter add
lines only at the end, and neither an evaluation nor a statement that fails adds any. Runs of
joined statements are the runs of the parts, one after the other, unless the first stops. -/
theorem interpret_prints_until_fault :
    (∀ output ss,
      (interpret output ss).output =
        output ++ (ss.take (faultless ss)).flatMap Statement.printed ∧
      (∀ s ∈ ss.take (faultless ss), ∃ value, s.expr.evaluate = .ok value) ∧
      (faultless ss = ss.length → (interpret output ss).fault = none) ∧
      ∀ s, ss[faultless ss]? = some s →
        ∃ fault, s.expr.evaluate = .error fault ∧ (interpret output ss).fault = some fault) ∧
    (∀ output calls more, Call.performAll output calls <+: Call.performAll output (calls ++ more)) ∧
    (∀ output s, ((Call.execute s).perform output).fault ≠ none →
      ((Call.execute s).perform output).output = output) ∧
    (∀ output e, ((Call.evaluate e).perform output).output = output) ∧
    ∀ output xs ys,
      interpret output (xs ++ ys) =
        match (interpret output xs).fault with
        | none => interpret (interpret output xs).output ys
        | some _ => interpret output xs := by
  refine ⟨fun output ss => ?_, Call.performAll_isPrefix, fun output s hfault => ?_,
    fun output e => rfl, interpret_append⟩
  · rw [interpret_eq]
    refine ⟨rfl, fun s => exists_value_of_mem_take, fun hall => ?_, fun s hs => ?_⟩
    · rw [hall, List.getElem?_length]
      rfl
    · obtain ⟨fault, hfault⟩ := exists_fault_of_getElem? hs
      refine ⟨fault, hfault, ?_⟩
      rw [hs, Option.bind_some, Expr.fault?, hfault]
  · cases h : s.expr.evaluate with
    | ok value =>
      rw [Call.perform, Statement.execute_of_ok h] at hfault
      exact absurd rfl hfault
    | error fault => rw [Call.perform, Statement.execute_of_error h]

/-- Two lines before a statement that fails, and one after it that is never printed. Asked for
the same statements one by one, the interpreter goes on after the fault. -/
theorem interpret_prints_until_fault_negated_nothing :
    let minus : Token := { kind := .minus, lexeme := "-", line := 3 }
    let text (t : String) := Statement.print (.literal (.string t))
    let broken := Statement.print (.unary minus (.literal .nil))
    let ss := [text "a", .expression (.literal .nil), text "b", broken, text "c"]
    let fault := Fault.refused ⟨.number, minus⟩ [.nil]
    ss[faultless ss]? = some broken ∧
    (interpret ["z"] ss).output = ["z", "a", "b"] ∧ (interpret ["z"] ss).fault = some fault ∧
    faultless [text "c"] = 1 ∧ (interpret ["z"] [text "c"]).fault = none ∧
    ((Call.execute broken).perform ["z"]).fault ≠ none ∧
    ((Call.execute broken).perform ["z"]).output = ["z"] ∧
    Call.performAll ["z"] (ss.map Call.execute) = ["z", "a", "b", "c"] := by
  intro minus text broken ss fault
  obtain ⟨hruns, -, hfailed, -⟩ := interpret_prints_until_fault
  obtain ⟨houtput, -, -, hfault⟩ := hruns ["z"] ss
  obtain ⟨fault', hbroken, hfault'⟩ := hfault broken rfl
  obtain ⟨-, -, hdone, -⟩ := hruns ["z"] [text "c"]
  have hne : ((Call.execute broken).perform ["z"]).fault ≠ none := nofun
  cases hbroken
  exact ⟨rfl, houtput, hfault', rfl, hdone rfl, hne, hfailed ["z"] broken hne, rfl⟩

end Reckon
