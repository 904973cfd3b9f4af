import Reckon.Parse.Program
import Reckon.Proofs.Recognition

/-!
# What the parser reads in a program

The rules for one statement, in the form of those for expressions, and the rounds
of a program in terms of them. A statement ends with its semicolon, so a complete
one is read without looking at what follows.
-/
namespace Reckon.Parse
open Grammar

/-- `Opens ts wrap what us`: a statement at `ts` has its expression at `us`, is made of
it by `wrap`, and without its semicolon is reported as lacking `what`. -/
inductive Opens : List Token → (Expr → Statement) → Expectation → List Token → Prop
  | print {t us} : t.kind = .printWord → Opens (t :: us) .print .semicolonAfterValue us
  | bare {us} : Avoids (·.kind = .printWord) us →
      Opens us .expression .semicolonAfterExpression us

inductive ReadsStatement : List Token → Except SyntaxError Statement → List Token → Prop
  | valueFails {ts wrap what us x rest} :
      Opens ts wrap what us → Reads (.whole .ternary) us (.error x) rest →
      ReadsStatement ts (.error x) rest
  | semicolonMissing {ts wrap what us e rest} :
      Opens ts wrap what us → Reads (.whole .ternary) us (.ok e) rest →
      Avoids (·.kind = .semicolon) rest → ReadsStatement ts (.error (blame what rest)) rest
  | complete {ts wrap what us e u rest} :
      Opens ts wrap what us → Reads (.whole .ternary) us (.ok e) (u :: rest) →
      u.kind = .semicolon → ReadsStatement ts (.ok (wrap e)) rest

theorem Opens.unique {ts us us' : List Token} {wrap wrap' : Expr → Statement}
    {what what' : Expectation} (h : Opens ts wrap what us) (h' : Opens ts wrap' what' us') :
    wrap = wrap' ∧ what = what' ∧ us = us' := by
  cases h with
  | print ht =>
    cases h' with
    | print _ => exact ⟨rfl, rfl, rfl⟩
    | bare hs => exact absurd ht ((avoids_cons _ _ _).mp hs)
  | bare hs =>
    cases h' with
    | print ht => exact absurd ht ((avoids_cons _ _ _).mp hs)
    | bare _ => exact ⟨rfl, rfl, rfl⟩

theorem ReadsStatement.unique {ts r₁ r₂ : List Token} {o₁ o₂ : Except SyntaxError Statement}
    (h₁ : ReadsStatement ts o₁ r₁) (h₂ : ReadsStatement ts o₂ r₂) : o₁ = o₂ ∧ r₁ = r₂ := by
  cases h₁ with
  | valueFails ho hx =>
    cases h₂ with
    | valueFails ho' hx' =>
      obtain ⟨rfl, rfl, rfl⟩ := ho.unique ho'
      obtain ⟨he, rfl⟩ := hx.unique hx'
      cases he
      exact ⟨rfl, rfl⟩
    | semicolonMissing ho' he' _ | complete ho' he' _ =>
      obtain ⟨rfl, rfl, rfl⟩ := ho.unique ho'
      cases (hx.unique he').1
  | semicolonMissing ho he hs =>
    cases h₂ with
    | valueFails ho' hx' =>
      obtain ⟨rfl, rfl, rfl⟩ := ho.unique ho'
      cases (he.unique hx').1
    | semicolonMissing ho' he' _ =>
      obtain ⟨rfl, rfl, rfl⟩ := ho.unique ho'
      obtain ⟨-, rfl⟩ := he.unique he'
      exact ⟨rfl, rfl⟩
    | complete ho' he' hu =>
      obtain ⟨rfl, rfl, rfl⟩ := ho.unique ho'
      obtain ⟨-, rfl⟩ := he.unique he'
      exact absurd hu ((avoids_cons _ _ _).mp hs)
  | complete ho he hu =>
    cases h₂ with
    | valueFails ho' hx' =>
      obtain ⟨rfl, rfl, rfl⟩ := ho.unique ho'
      cases (he.unique hx').1
    | semicolonMissing ho' he' hs =>
      obtain ⟨rfl, rfl, rfl⟩ := ho.unique ho'
      obtain ⟨-, rfl⟩ := he.unique he'
      exact absurd hu ((avoids_cons _ _ _).mp hs)
    | complete ho' he' _ =>
      obtain ⟨rfl, rfl, rfl⟩ := ho.unique ho'
      obtain ⟨h, hr⟩ := he.unique he'
      cases h
      cases hr
      exact ⟨rfl, rfl⟩

/-- The common end of both forms: the expression, then its semicolon. -/
theorem readsStatement_closed {n : Nat} {ts us : List Token} {wrap : Expr → Statement}
    {what : Expectation} (ho : Opens ts wrap what us) (hn : us.length ≤ n)
    (hr : ∀ r : List Token, r.length < us.length → r.length ≤ n)
    (hl : ∀ r q : List Token, r.length < q.length → q.length < us.length → r.length < n) :
    let o : Outcome Statement n := (ternary us).andThen hn fun value rest₁ h₁ =>
      (expect .semicolon what rest₁).andThen (hr rest₁ h₁) fun _ rest₂ h₂ =>
        .success (wrap value) rest₂ (hl rest₂ rest₁ h₂ h₁)
    ReadsStatement ts o.result o.rest := by
  have he := reads_ternary us
  intro o
  cases h : ternary us with
  | failure x rest le =>
    rw [h] at he
    simp only [o, h]
    exact .valueFails ho he
  | success e rest lt =>
    rw [h] at he
    simp only [o, h, Outcome.andThen]
    cases rest with
    | nil => exact .semicolonMissing ho he (avoids_nil _)
    | cons u rest =>
      by_cases hu : u.kind = .semicolon
      · simp only [expect_of_kind hu]
        exact .complete ho he hu
      · simp only [expect, hu, if_false]
        exact .semicolonMissing ho he ((avoids_cons _ _ _).mpr hu)

theorem readsStatement_statement (ts : List Token) :
    ReadsStatement ts (statement ts).result (statement ts).rest := by
  cases ts with
  | nil =>
    exact readsStatement_closed (.bare (avoids_nil _)) (self_le _) (fun _ => le_of_shorter)
      (fun _ _ => shorter_trans)
  | cons t us =>
    rw [statement]
    split
    · next ht => exact readsStatement_closed (.print ht) _ _ _
    · next ht => exact readsStatement_closed (.bare ((avoids_cons _ _ _).mpr ht)) _ _ _

theorem statement_gives_iff {ts rest : List Token} {out : Except SyntaxError Statement} :
    (statement ts).Gives out rest ↔ ReadsStatement ts out rest := by
  constructor
  · rintro ⟨rfl, rfl⟩
    exact readsStatement_statement ts
  · intro h
    exact (readsStatement_statement ts).unique h

/-- A statement is read or fails, and what is left is shorter or no longer. -/
theorem readsStatement_total (ts : List Token) :
    (∃ s rest, ReadsStatement ts (.ok s) rest ∧ rest.length < ts.length) ∨
      ∃ x left, ReadsStatement ts (.error x) left ∧ left.length ≤ ts.length := by
  have hr := readsStatement_statement ts
  cases h : statement ts with
  | success s rest lt =>
    rw [h] at hr
    exact .inl ⟨s, rest, hr, lt⟩
  | failure x left le =>
    rw [h] at hr
    exact .inr ⟨x, left, hr, le⟩

theorem ReadsStatement.not_atEnd {ts rest : List Token} {s : Statement}
    (h : ReadsStatement ts (.ok s) rest) : atEnd ts = false := by
  cases h with
  | complete ho he _ =>
    cases ho with
    | print ht => simp [atEnd, ht]
    | bare _ =>
      obtain ⟨p, rfl, hp⟩ := he.covers
      obtain ⟨t, q, rfl, ht⟩ := Derives.head_kind hp
      have : t.kind ≠ .eof := by
        intro h
        rw [h] at ht
        revert ht
        decide
      simpa [atEnd] using this

theorem atEnd_congr {a b : List Token} (h : b.head? = a.head?) : atEnd b = atEnd a := by
  cases a <;> cases b <;> simp_all [atEnd]

theorem rounds_of_atEnd {ts : List Token} (h : atEnd ts = true) : rounds ts = [] := by
  rw [rounds]
  simp only [h]

theorem synchronize_of_atEnd {ts : List Token} (h : atEnd ts = true) : synchronize ts = ts := by
  cases ts with
  | nil => rfl
  | cons t ts =>
    have ht : t.kind = .eof := by simpa [atEnd] using h
    simp only [synchronize, ht, if_true]

theorem rounds_of_ok {ts rest : List Token} {s : Statement}
    (h : ReadsStatement ts (.ok s) rest) : rounds ts = .ok s :: rounds rest := by
  obtain ⟨lt, hs⟩ := Outcome.gives_ok_iff.mp (statement_gives_iff.mpr h)
  rw [rounds]
  simp only [h.not_atEnd, hs]

theorem rounds_of_error {ts rest : List Token} {x : SyntaxError}
    (h : ReadsStatement ts (.error x) rest) (hts : atEnd ts = false) :
    rounds ts = .error x :: rounds (synchronize rest) := by
  obtain ⟨le, hs⟩ := Outcome.gives_error_iff.mp (statement_gives_iff.mpr h)
  rw [rounds]
  simp only [hts, hs]
  cases hr : atEnd rest with
  | true => rw [synchronize_of_atEnd hr, rounds_of_atEnd hr]
  | false => rfl

@[simp] theorem errorsOf_ok (s : Statement) (rs : List (Except SyntaxError Statement)) :
    errorsOf (.ok s :: rs) = errorsOf rs := rfl

@[simp] theorem errorsOf_error (x : SyntaxError) (rs : List (Except SyntaxError Statement)) :
    errorsOf (.error x :: rs) = x :: errorsOf rs := rfl

theorem program_eq_ok_iff {ts : List Token} {ss : List Statement} :
    program ts = .ok ss ↔ errorsOf (rounds ts) = [] ∧ statementsOf (rounds ts) = ss := by
  unfold program
  split
  · next h => simp only [h, true_and, Except.ok.injEq]
  · next h => exact iff_of_false (by simp) fun hs => h hs.1

theorem program_eq_error_iff {ts : List Token} {xs : List SyntaxError} :
    program ts = .error xs ↔ errorsOf (rounds ts) = xs ∧ xs ≠ [] := by
  unfold program
  split
  · next h =>
    refine iff_of_false (by simp) ?_
    rintro ⟨rfl, hne⟩
    exact hne h
  · next h =>
    rw [Except.error.injEq]
    refine ⟨?_, And.left⟩
    rintro rfl
    exact ⟨rfl, h⟩

end Reckon.Parse
