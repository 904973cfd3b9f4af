import Reckon.Proofs.PrintedLines

/-!
# Code that is not reached

Evaluation does not come to every part of a tree. It passes over the branch that a condition
does not select, over both branches if the condition ends in a fault, and over the right
operand of an operator whose left operand does. A run passes over every statement after the
one that stops it. Whatever stands in such places, even what no text is parsed to, evaluation
and runs end in the same way.
-/
namespace Reckon

/-- `SameReach e e'`: the trees differ at most in subtrees to which evaluation does not come. -/
inductive Expr.SameReach : Expr → Expr → Prop
  | literal {v} : SameReach (literal v) (literal v)
  | grouping {e e'} : SameReach e e' → SameReach (grouping e) (grouping e')
  | unary {o e e'} : SameReach e e' → SameReach (unary o e) (unary o e')
  | binary {o l l' r r'} :
      SameReach l l' → SameReach r r' → SameReach (binary l o r) (binary l' o r')
  | left {o l l' r r' fault} :
      SameReach l l' → l.evaluate = .error fault → SameReach (binary l o r) (binary l' o r')
  | branch {c c' a a' b b' v} :
      SameReach c c' → c.evaluate = .ok v →
      SameReach (if v.isTruthy then a else b) (if v.isTruthy then a' else b') →
      SameReach (ternary c a b) (ternary c' a' b')
  | condition {c c' a a' b b' fault} :
      SameReach c c' → c.evaluate = .error fault →
      SameReach (ternary c a b) (ternary c' a' b')

namespace Expr.SameReach

theorem evaluate_eq {e e' : Expr} (h : e.SameReach e') : e.evaluate = e'.evaluate := by
  induction h with
  | literal => rfl
  | grouping _ ih => exact ih
  | unary _ ih => simp only [evaluate, ih]
  | binary _ _ ihl ihr => simp only [evaluate, ihl, ihr]
  | left _ hfault ih => simp only [evaluate, ← ih, hfault, bind, Except.bind]
  | branch _ hv _ ihc ihb =>
    rw [apply_ite evaluate, apply_ite evaluate] at ihb
    simp only [evaluate, ← ihc, hv, bind, Except.bind]
    exact ihb
  | condition _ hfault ih => simp only [evaluate, ← ih, hfault, bind, Except.bind]

theorem refl (e : Expr) : e.SameReach e := by
  induction e with
  | literal v => exact .literal
  | grouping inner ih => exact .grouping ih
  | unary o e ih => exact .unary ih
  | binary l o r ihl ihr => exact .binary ihl ihr
  | ternary c a b ihc iha ihb =>
    cases hc : c.evaluate with
    | error fault => exact .condition ihc hc
    | ok v =>
      refine .branch ihc hc ?_
      split
      · exact iha
      · exact ihb

theorem symm {e e' : Expr} (h : e.SameReach e') : e'.SameReach e := by
  induction h with
  | literal => exact .literal
  | grouping _ ih => exact .grouping ih
  | unary _ ih => exact .unary ih
  | binary _ _ ihl ihr => exact .binary ihl ihr
  | left hl hfault ih => exact .left ih (hl.evaluate_eq ▸ hfault)
  | branch hc hv _ ihc ihb => exact .branch ihc (hc.evaluate_eq ▸ hv) ihb
  | condition hc hfault ih => exact .condition ih (hc.evaluate_eq ▸ hfault)

theorem trans {e e' e'' : Expr} (h : e.SameReach e') (h' : e'.SameReach e'') :
    e.SameReach e'' := by
  induction h generalizing e'' with
  | literal => exact h'
  | grouping _ ih =>
    cases h' with
    | grouping h' => exact .grouping (ih h')
  | unary _ ih =>
    cases h' with
    | unary h' => exact .unary (ih h')
  | binary hl _ ihl ihr =>
    cases h' with
    | binary hl' hr' => exact .binary (ihl hl') (ihr hr')
    | left hl' hfault => exact .left (ihl hl') (hl.evaluate_eq ▸ hfault)
  | left _ hfault ih =>
    cases h' with
    | binary hl' _ => exact .left (ih hl') hfault
    | left hl' _ => exact .left (ih hl') hfault
  | branch hc hv _ ihc ihb =>
    cases h' with
    | branch hc' hv' hb' =>
      rw [← hc.evaluate_eq, hv] at hv'
      cases hv'
      exact .branch (ihc hc') hv (ihb hb')
    | condition _ hfault =>
      rw [← hc.evaluate_eq, hv] at hfault
      cases hfault
  | condition _ hfault ih =>
    cases h' with
    | branch hc' _ _ => exact .condition (ih hc') hfault
    | condition hc' _ => exact .condition (ih hc') hfault

theorem equivalence : Equivalence Expr.SameReach := ⟨refl, symm, trans⟩

end Expr.SameReach

/-- Statements of the same form whose expressions differ at most where evaluation does not
come. -/
inductive Statement.SameReach : Statement → Statement → Prop
  | expression {e e'} : e.SameReach e' → SameReach (expression e) (expression e')
  | print {e e'} : e.SameReach e' → SameReach (print e) (print e')

theorem Statement.SameReach.execute_eq {s s' : Statement} (h : s.SameReach s')
    (output : List String) : s.execute output = s'.execute output := by
  cases h with
  | expression he | print he => simp only [execute, he.evaluate_eq]

/-- `SameRun ss ss'`: the statements differ at most where evaluation does not come, up to and
including the first one that fails, and in any way after it. -/
inductive SameRun : List Statement → List Statement → Prop
  | nil : SameRun [] []
  | cons {s s' ss ss'} : s.SameReach s' → SameRun ss ss' → SameRun (s :: ss) (s' :: ss')
  | stopped {s s' ss ss' fault} :
      s.SameReach s' → s.expr.evaluate = .error fault → SameRun (s :: ss) (s' :: ss')

theorem SameRun.interpret_eq {ss ss' : List Statement} (h : SameRun ss ss')
    (output : List String) : interpret output ss = interpret output ss' := by
  induction h generalizing output with
  | nil => rfl
  | cons hs _ ih => simp only [interpret, ← hs.execute_eq, ih]
  | stopped hs hfault =>
    simp only [interpret, ← hs.execute_eq, Statement.execute_of_error hfault]

/-- Code that is not reached has no influence. Which parts of a tree are reached is the same
for trees that differ only in the others, such trees evaluate alike, and so do runs whose
statements differ only in such parts or after the first fault. -/
theorem unreached_irrelevant :
    Equivalence Expr.SameReach ∧
    (∀ e e' : Expr, e.SameReach e' → e.evaluate = e'.evaluate) ∧
    ∀ ss ss', SameRun ss ss' → ∀ output, interpret output ss = interpret output ss' :=
  ⟨Expr.SameReach.equivalence, fun _ _ h => h.evaluate_eq, fun _ _ h => h.interpret_eq⟩

/-- Trees with a token that is no operator in different places that are not reached: a branch
that is not selected, the right operand beside a left one that fails, and the branches of a
condition that fails. The second run has a statement less after the one that fails. -/
theorem unreached_irrelevant_no_operator :
    let minus : Token := { kind := .minus, lexeme := "-", line := 1 }
    let plus : Token := { kind := .plus, lexeme := "+", line := 1 }
    let odd := Expr.unary (.eof 1) (.literal .nil)
    let failing := Expr.unary minus (.literal .nil)
    let choice (unselected : Expr) :=
      Expr.ternary (.literal .nil) unselected (.literal (.string "a"))
    let stopped (right : Expr) := Expr.binary failing plus right
    let e := Expr.ternary (stopped odd) odd (choice odd)
    let e' := Expr.ternary (stopped (choice odd)) (choice failing) odd
    let ss := [.print (choice odd), .expression e, .print odd]
    let ss' := [.print (choice failing), .expression e']
    e.SameReach e' ∧ e.evaluate = e'.evaluate ∧ SameRun ss ss' ∧
    interpret ["z"] ss = interpret ["z"] ss' ∧
    interpret ["z"] ss' =
      { output := ["z", "a"], fault := some (.refused ⟨.number, minus⟩ [.nil]) } := by
  intro minus plus odd failing choice stopped e e' ss ss'
  obtain ⟨hequivalence, htrees, hruns⟩ := unreached_irrelevant
  have hchoice : (choice odd).SameReach (choice failing) := .branch .literal rfl .literal
  have hstopped : (stopped odd).SameReach (stopped (choice odd)) :=
    .left (hequivalence.refl failing) rfl
  have he : e.SameReach e' := .condition hstopped rfl
  have hss : SameRun ss ss' := .cons (.print hchoice) (.stopped (.expression he) rfl)
  exact ⟨he, htrees e e' he, hss, hruns ss ss' hss ["z"], rfl⟩

end Reckon
