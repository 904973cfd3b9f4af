import Reckon.Proofs.Recovery

/-!
# What recovery loses

A statement that lacks its semicolon may stand before one that begins with a word of
its own. If it breaks before that word, recovery stops there, and the program that
follows is reported as if it stood alone. If it breaks at the word, recovery drops the
word and goes on to the end of the statement that it begins; a broken statement then
loses its report.
-/
namespace Reckon.Parse
open Grammar

/-- Everything that is wrong with a program. -/
def problems (ts : List Token) : List SyntaxError :=
  match program ts with
  | .ok _ => []
  | .error xs => xs

theorem problems_eq (ts : List Token) : problems ts = errorsOf (rounds ts) := by
  unfold problems
  split
  · next h => exact (program_eq_ok_iff.mp h).1.symm
  · next h => exact (program_eq_error_iff.mp h).1.symm

/-- A fragment breaks at one of its own tokens, and then also by itself, or it only lacks a
continuation. What follows it is read as if it stood alone in the first case. In the second
the fragment breaks at the next token, and recovery drops that token. -/
theorem IsFragment.rounds_append {p : List Token} (hp : IsFragment p) {u : Token} (hu : Stops u)
    (rest : List Token) :
    (∃ x, (statement p).result = .error x ∧ x ≠ .exhausted ∧
      rounds (p ++ u :: rest) = .error x :: rounds (u :: rest)) ∨
    (statement p).result = .error .exhausted ∧
      ∃ what, rounds (p ++ u :: rest) =
        .error (.expected what u) :: rounds (synchronize (u :: rest)) := by
  obtain ⟨x, c, r, rfl, h, hlook⟩ := hp.breaks hu rest
  have hrounds := rounds_of_error h (hp.not_atEnd _)
  obtain ⟨what, hx⟩ := h.blames
  cases r with
  | cons t r =>
    refine .inl ⟨x, (statement_gives_iff.mpr (hlook (t :: r) rfl)).1, ?_, ?_⟩
    · rw [hx]
      nofun
    · rw [hrounds, (hp.right (List.cons_ne_nil t r)).synchronize_append, skipStatement_stops hu]
  | nil =>
    rw [hx] at hrounds
    refine .inr ⟨?_, what, hrounds⟩
    rw [List.append_nil] at hp h ⊢
    rcases readsStatement_total c with ⟨s, left, halone, -⟩ | ⟨y, left, halone, -⟩
    · obtain ⟨q, v, rfl, -, hv, -⟩ := halone.consumed_of_ok
      exact absurd hv (hp.no_semicolon v (by simp))
    · obtain ⟨q, rfl, hq⟩ := halone.lookahead
      cases left with
      | nil =>
        obtain ⟨what', rfl⟩ := halone.blames
        exact (statement_gives_iff.mpr halone).1
      | cons t left =>
        -- It would break at the same token of its own with `u` behind it.
        have h' := hq (t :: left ++ u :: rest) rfl
        rw [← List.append_assoc] at h'
        have hleft := congrArg List.length (h.unique h').2
        simp only [List.nil_append, List.length_cons, List.length_append] at hleft
        omega

/-- The tokens of a program that begins with `print`. -/
structure IsPrintProgram (ts : List Token) : Prop where
  parts : ∃ u q z, ts = u :: (q ++ [z]) ∧ u.kind = .printWord ∧ (∀ t ∈ q, t.kind ≠ .eof) ∧
    z.kind = .eof

theorem synchronize_eq_skipStatement {left : List Token}
    (h : Avoids (·.kind.startsStatement = true) left) : synchronize left = skipStatement left := by
  cases left with
  | nil => rfl
  | cons t left =>
    have ht : t.kind.startsStatement = false := by simpa using h
    by_cases heof : t.kind = .eof
    · simp [synchronize, skipStatement, heof]
    · simp [synchronize, skipStatement, heof, ht]

theorem IsBody.isFragment {p : List Token} (h : IsBody p) (hp : p ≠ []) : IsFragment p where
  ne_nil := hp
  no_semicolon := h.kind_ne (by decide)
  open_ended := h.kind_ne (by decide)
  no_start t ht := by
    have hk := h.tail t ht
    revert hk
    cases t.kind <;> decide

/-- Recovery from the front of a good statement lands behind it. -/
theorem ReadsStatement.synchronize_of_ok {ts rest : List Token} {s : Statement}
    (h : ReadsStatement ts (.ok s) rest) : synchronize ts = rest := by
  obtain ⟨p, u, rfl, hp, hu, -⟩ := h.consumed_of_ok
  by_cases hnil : p = []
  · rw [hnil, List.nil_append, synchronize_semicolon hu]
  · rw [(hp.isFragment hnil).synchronize_append, skipStatement_semicolon hu]

/-- Recovery from the word that begins a broken statement goes as far as recovery from where
it broke, unless another such word stands there. -/
theorem ReadsStatement.synchronize_of_error {t : Token} {ts left : List Token} {x : SyntaxError}
    (h : ReadsStatement (t :: ts) (.error x) left) (ht : t.kind.startsStatement = true)
    (hleft : Avoids (·.kind.startsStatement = true) left) :
    synchronize (t :: ts) = synchronize left := by
  obtain ⟨p, hts, hp, -⟩ := h.consumed_of_error
  by_cases hnil : p = []
  · obtain rfl : t :: ts = left := by rw [hts, hnil, List.nil_append]
    exact absurd ht ((avoids_cons _ _ _).mp hleft)
  · rw [hts, (hp.isFragment hnil).synchronize_append, synchronize_eq_skipStatement hleft]

/-- A good statement is passed over by recovery from its front, and nothing else is. -/
theorem problems_synchronize_of_ok {ts : List Token} {s : Statement}
    (h : (statement ts).result = .ok s) : problems (synchronize ts) = problems ts := by
  have hr := readsStatement_statement ts
  rw [h] at hr
  rw [hr.synchronize_of_ok, problems_eq, problems_eq, rounds_of_ok hr, errorsOf_ok]

/-- Recovery from the word that begins a broken statement loses the report on it. -/
theorem problems_of_error {t : Token} {ts : List Token} {x : SyntaxError}
    (ht : t.kind.startsStatement = true) (h : (statement (t :: ts)).result = .error x)
    (hx : ∀ u ∈ x.token?, u.kind.startsStatement = false) :
    problems (t :: ts) = x :: problems (synchronize (t :: ts)) := by
  have hr := readsStatement_statement (t :: ts)
  rw [h] at hr
  generalize (statement (t :: ts)).rest = left at hr
  obtain ⟨what, rfl⟩ := hr.blames
  have hleft : Avoids (·.kind.startsStatement = true) left := by
    cases left with
    | nil => exact avoids_nil _
    | cons u left => simpa using hx u rfl
  have hend : atEnd (t :: ts) = false := by
    have hk : t.kind ≠ .eof := by
      intro hk
      simp [hk, Kind.startsStatement] at ht
    simpa [atEnd] using hk
  rw [hr.synchronize_of_error ht hleft, problems_eq, problems_eq, rounds_of_error hr hend,
    errorsOf_error]

/-- The errors of a program with a fragment in front. -/
theorem IsFragment.program_append {p : List Token} (hp : IsFragment p) {u : Token} (hu : Stops u)
    (rest : List Token) :
    ((statement p).result ≠ .error .exhausted →
      ∃ x, (statement p).result = .error x ∧
        program (p ++ u :: rest) = .error (x :: problems (u :: rest))) ∧
    ((statement p).result = .error .exhausted →
      ∃ what, program (p ++ u :: rest) =
        .error (.expected what u :: problems (synchronize (u :: rest)))) := by
  have hprogram : ∀ {x rs}, rounds (p ++ u :: rest) = .error x :: rs →
      program (p ++ u :: rest) = .error (x :: errorsOf rs) := by
    intro x rs h
    rw [program_eq_error_iff, h, errorsOf_error]
    exact ⟨rfl, List.cons_ne_nil _ _⟩
  rw [problems_eq, problems_eq]
  rcases hp.rounds_append hu rest with ⟨x, hx, hne, hr⟩ | ⟨hx, what, hr⟩
  · refine ⟨fun _ => ⟨x, hx, hprogram hr⟩, fun hx' => ?_⟩
    cases hx.symm.trans hx'
    exact absurd rfl hne
  · exact ⟨fun hne => absurd hx hne, fun _ => ⟨what, hprogram hr⟩⟩

/-- A fragment before `print` is reported once, and all that is wrong with the program behind
it is reported exactly when the fragment breaks at one of its own tokens. Otherwise it
breaks at `print`, which recovery drops: a good statement is passed over with it, and
a broken one loses its report. -/
theorem errors_before_print {p : List Token} (hp : IsFragment p) :
    ((∀ ts, IsPrintProgram ts → ∃ x, program (p ++ ts) = .error (x :: problems ts)) ↔
      (statement p).result ≠ .error .exhausted) ∧
    ∀ ts, IsPrintProgram ts →
      ((statement p).result ≠ .error .exhausted →
        ∃ x, (statement p).result = .error x ∧ program (p ++ ts) = .error (x :: problems ts)) ∧
      ((statement p).result = .error .exhausted →
        ∃ what u, ts.head? = some u ∧
          program (p ++ ts) = .error (.expected what u :: problems (synchronize ts))) ∧
      (∀ s, (statement ts).result = .ok s → problems (synchronize ts) = problems ts) ∧
      ∀ x, (statement ts).result = .error x →
        (∀ t ∈ x.token?, t.kind.startsStatement = false) →
        problems ts = x :: problems (synchronize ts) := by
  have hstarts : ∀ {u : Token}, u.kind = .printWord → u.kind.startsStatement = true := by
    intro u hu
    rw [hu]
    rfl
  refine ⟨⟨fun hall hx => ?_, fun hx ts hts => ?_⟩, fun ts hts => ?_⟩
  · -- The empty `print` statement is broken, and nothing is reported about it.
    obtain ⟨y, hy⟩ := hall [filler .printWord, filler .semicolon, filler .eof]
      ⟨filler .printWord, [filler .semicolon], filler .eof, rfl, rfl, by decide, rfl⟩
    have hbroken : problems [filler .printWord, filler .semicolon, filler .eof] =
        [.expected .expression (filler .semicolon)] := by cbv
    have hnone :
        problems (synchronize [filler .printWord, filler .semicolon, filler .eof]) = [] := by cbv
    obtain ⟨what, h⟩ := (hp.program_append (.inr (hstarts (kind_filler .printWord)))
      [filler .semicolon, filler .eof]).2 hx
    rw [hy, hbroken, hnone] at h
    cases h
  · obtain ⟨u, q, z, rfl, hu, -, -⟩ := hts.parts
    obtain ⟨x, -, h⟩ := (hp.program_append (.inr (hstarts hu)) (q ++ [z])).1 hx
    exact ⟨x, h⟩
  · obtain ⟨u, q, z, rfl, hu, -, -⟩ := hts.parts
    obtain ⟨hown, hnext⟩ := hp.program_append (.inr (hstarts hu)) (q ++ [z])
    refine ⟨hown, fun hx => ?_, fun s => problems_synchronize_of_ok,
      fun x => problems_of_error (hstarts hu)⟩
    obtain ⟨what, h⟩ := hnext hx
    exact ⟨what, u, rfl, h⟩

/-- A fragment that breaks at its second token, before a broken `print` statement: both are
reported. -/
theorem errors_before_print_own_token :
    let p := [filler .nilWord, filler .nilWord]
    let ts := [filler .printWord, filler .semicolon, filler .eof]
    IsFragment p ∧ IsPrintProgram ts ∧
    program (p ++ ts) = .error [.expected .semicolonAfterExpression (filler .nilWord),
      .expected .expression (filler .semicolon)] := by
  intro p ts
  have hp : IsFragment p := ⟨by simp [p], by decide, by decide, by decide⟩
  have hts : IsPrintProgram ts :=
    ⟨filler .printWord, [filler .semicolon], filler .eof, rfl, rfl, by decide, rfl⟩
  have halone : (statement p).result =
      .error (.expected .semicolonAfterExpression (filler .nilWord)) := by cbv
  have hbroken : problems ts = [.expected .expression (filler .semicolon)] := by cbv
  obtain ⟨-, hlists⟩ := errors_before_print hp
  obtain ⟨x, hx, hprogram⟩ := (hlists ts hts).1 (by simp [halone])
  cases halone.symm.trans hx
  exact ⟨hp, hts, by rw [hprogram, hbroken]⟩

/-- An expression without its semicolon before a broken `print` statement: only the first of
the two is reported. -/
theorem broken_print_unreported :
    let p := [filler .nilWord]
    let ts := [filler .printWord, filler .semicolon, filler .eof]
    IsFragment p ∧ IsPrintProgram ts ∧
    program ts = .error [.expected .expression (filler .semicolon)] ∧
    program (p ++ ts) = .error [.expected .semicolonAfterExpression (filler .printWord)] ∧
    ¬ ∃ x, program (p ++ ts) = .error (x :: problems ts) := by
  intro p ts
  have hp : IsFragment p := ⟨by simp [p], by decide, by decide, by decide⟩
  have hts : IsPrintProgram ts :=
    ⟨filler .printWord, [filler .semicolon], filler .eof, rfl, rfl, by decide, rfl⟩
  have halone : program ts = .error [.expected .expression (filler .semicolon)] := by cbv
  have hboth : program (p ++ ts) =
      .error [.expected .semicolonAfterExpression (filler .printWord)] := by cbv
  refine ⟨hp, hts, halone, hboth, ?_⟩
  rintro ⟨x, hx⟩
  rw [hboth] at hx
  simp only [problems, halone] at hx
  cases hx

end Reckon.Parse
