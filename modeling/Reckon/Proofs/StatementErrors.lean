import Reckon.Proofs.Recovery

/-!
# An expression and the statement made of it

The same tokens as an expression and as a statement, closed by an `eof` in one case and by
a semicolon in the other. Neither of the two belongs to an expression, so a reading goes
the same way up to them and ends there in the same way. The statement has the tree of the
expression, or breaks with the error of the expression.
-/
namespace Reckon
open Grammar

/-- Another token in the place of one of kind `eof`. -/
def Token.reclosed (closing t : Token) : Token := if t.kind = .eof then closing else t

def SyntaxError.reclosed (closing : Token) : SyntaxError → SyntaxError
  | expected what found => .expected what (closing.reclosed found)
  | exhausted => .exhausted

namespace Parse
variable {u : Token}

theorem reclosed_of_ne {t : Token} (h : t.kind ≠ .eof) : u.reclosed t = t := if_neg h

theorem reclosed_of_kind {t : Token} {kind : Kind} (h : t.kind = kind) (hk : kind ≠ .eof) :
    u.reclosed t = t :=
  reclosed_of_ne (h ▸ hk)

theorem reclosed_of_terminal {t : Token} (h : t.kind ∈ terminals) : u.reclosed t = t := by
  refine reclosed_of_ne fun hk => ?_
  rw [hk] at h
  revert h
  decide

theorem map_reclosed {p : List Token} {z : Token} (hp : ∀ t ∈ p, t.kind ≠ .eof)
    (hz : z.kind = .eof) : (p ++ [z]).map u.reclosed = p ++ [u] := by
  have hsame : p.map u.reclosed = p.map id :=
    List.map_congr_left fun t ht => reclosed_of_ne (hp t ht)
  have hclosing : u.reclosed z = u := if_pos hz
  rw [List.map_append, hsame, List.map_id, List.map_singleton, hclosing]

theorem Avoids.reclosed {P : Token → Prop} {ts : List Token} (h : Avoids P ts) (hu : ¬ P u) :
    Avoids P (ts.map u.reclosed) := by
  cases ts with
  | nil => exact avoids_nil P
  | cons t ts =>
    rw [List.map_cons, avoids_cons, Token.reclosed]
    split
    · exact hu
    · exact (avoids_cons P t ts).mp h

theorem reclosed_blame (what : Expectation) (ts : List Token) :
    (blame what ts).reclosed u = blame what (ts.map u.reclosed) := by
  cases ts <;> rfl

theorem not_startsPrimary {t : Token} (h : t.kind ∉ terminals) : ¬ StartsPrimary t := by
  rintro (⟨v, hv⟩ | hk)
  · exact h hv.kind_mem
  · rw [hk] at h
    revert h
    decide

/-- A reading does not tell apart tokens that expressions are not made of. -/
theorem Reads.reclosed (hu : u.kind ∉ terminals) {g : Goal} {ts left : List Token}
    {out : Except SyntaxError Expr} (h : Reads g ts out left) :
    Reads g (ts.map u.reclosed) (out.mapError (SyntaxError.reclosed u))
      (left.map u.reclosed) := by
  have hne : ∀ {kind : Kind}, kind ∈ terminals → u.kind ≠ kind := fun hk heq => hu (heq ▸ hk)
  have hjoiners : ∀ level, u.kind ∉ joiners level :=
    fun level hk => hu (joiners_subset_terminals level hk)
  induction h with
  | conditionFails _ ih => exact .conditionFails ih
  | unconditional _ hq ih => exact .unconditional ih (hq.reclosed (hne (by decide)))
  | thenFails _ hq _ ihc iha =>
    rw [List.map_cons, reclosed_of_kind hq (by decide)] at ihc
    exact .thenFails ihc hq iha
  | colonMissing _ hq _ hk ihc iha =>
    rw [List.map_cons, reclosed_of_kind hq (by decide)] at ihc
    rw [Except.mapError, reclosed_blame]
    exact .colonMissing ihc hq iha (hk.reclosed (hne (by decide)))
  | elseFails _ hq _ hc _ ihc iha ihb =>
    rw [List.map_cons, reclosed_of_kind hq (by decide)] at ihc
    rw [List.map_cons, reclosed_of_kind hc (by decide)] at iha
    exact .elseFails ihc hq iha hc ihb
  | conditional _ hq _ hc _ ihc iha ihb =>
    rw [List.map_cons, reclosed_of_kind hq (by decide)] at ihc
    rw [List.map_cons, reclosed_of_kind hc (by decide)] at iha
    exact .conditional ihc hq iha hc ihb
  | firstFails _ ih => exact .firstFails ih
  | chain _ _ iha ih => exact .chain iha ih
  | stop hs => exact .stop (hs.reclosed (hjoiners _))
  | linkFails ht _ ih =>
    rw [List.map_cons, reclosed_of_terminal (joiners_subset_terminals _ ht)]
    exact .linkFails ht ih
  | link ht _ _ ihb ih =>
    rw [List.map_cons, reclosed_of_terminal (joiners_subset_terminals _ ht)]
    exact .link ht ihb ih
  | prefixedFails ht _ ih =>
    rw [List.map_cons, reclosed_of_terminal (by rcases ht with h | h <;> rw [h] <;> decide)]
    exact .prefixedFails ht ih
  | prefixed ht _ ih =>
    rw [List.map_cons, reclosed_of_terminal (by rcases ht with h | h <;> rw [h] <;> decide)]
    exact .prefixed ht ih
  | unprefixed hs _ ih =>
    exact .unprefixed (hs.reclosed (not_or.mpr ⟨hne (by decide), hne (by decide)⟩)) ih
  | nothingStarts hs =>
    rw [Except.mapError, reclosed_blame]
    exact .nothingStarts (hs.reclosed (not_startsPrimary hu))
  | atom ha =>
    rw [List.map_cons, reclosed_of_terminal ha.kind_mem]
    exact .atom ha
  | innerFails hk _ ih =>
    rw [List.map_cons, reclosed_of_kind hk (by decide)]
    exact .innerFails hk ih
  | parenMissing hk _ hr ih =>
    rw [List.map_cons, reclosed_of_kind hk (by decide), Except.mapError, reclosed_blame]
    exact .parenMissing hk ih (hr.reclosed (hne (by decide)))
  | group hk _ hc ih =>
    rw [List.map_cons, reclosed_of_kind hc (by decide)] at ih
    rw [List.map_cons, reclosed_of_kind hk (by decide)]
    exact .group hk ih hc

/-- Tokens without an `eof` are read up to an `eof` behind them as they are read up to
another token that closes them. -/
theorem Reads.before_closing (hu : u.kind ∉ terminals) {p left : List Token} {z : Token}
    {out : Except SyntaxError Expr} (hp : ∀ t ∈ p, t.kind ≠ .eof) (hz : z.kind = .eof)
    (h : Reads (.whole .ternary) (p ++ [z]) out left) :
    ∃ q r, p = q ++ r ∧ left = r ++ [z] ∧ ∀ rest,
      Reads (.whole .ternary) (p ++ u :: rest) (out.mapError (SyntaxError.reclosed u))
        (r ++ u :: rest) := by
  obtain ⟨q, hsplit, hq⟩ := h.consumed
  have hzq : z ∉ q := by
    intro hmem
    have hk := hq z hmem
    rw [hz] at hk
    revert hk
    decide
  obtain ⟨r, rfl, rfl⟩ := left_of_not_mem hsplit hzq
  refine ⟨q, r, rfl, rfl, fun rest => ?_⟩
  have hr : ∀ t ∈ r, t.kind ≠ .eof := fun t ht => hp t (List.mem_append_right q ht)
  have hread := h.reclosed hu
  rw [map_reclosed hp hz, map_reclosed hr hz] at hread
  obtain ⟨q', hq', hlook⟩ := hread.lookahead
  rw [List.append_assoc] at hq'
  obtain rfl : q = q' := List.append_cancel_right hq'
  have hhead : (r ++ u :: rest).head? = (r ++ [u]).head? := head?_append_congr r rfl
  simpa using hlook (r ++ u :: rest) hhead

/-- That tokens are left over is never an error within an expression. -/
theorem Reads.error_within {g : Goal} {ts left : List Token} {x : SyntaxError}
    (h : Reads g ts (.error x) left) (t : Token) : x ≠ .expected .endOfExpression t := by
  have hblame : ∀ {what : Expectation} {us : List Token}, what ≠ .endOfExpression →
      blame what us ≠ .expected .endOfExpression t := by
    intro what us hwhat
    cases us <;> simp [blame, hwhat]
  generalize hout : Except.error x = out at h
  induction h with
  | unconditional | conditional | stop | prefixed | atom | group => cases hout
  | conditionFails _ ih | firstFails _ ih => exact ih hout
  | thenFails _ _ _ _ ih | elseFails _ _ _ _ _ _ _ ih | chain _ _ _ ih => exact ih hout
  | linkFails _ _ ih | link _ _ _ _ ih | prefixedFails _ _ ih | unprefixed _ _ ih
  | innerFails _ _ ih => exact ih hout
  | colonMissing | nothingStarts | parenMissing =>
    rw [Except.error.inj hout]
    exact hblame (by decide)

end Parse

/-- The error of a statement whose expression has an error. What comes behind a complete
expression is reported as the lack of a semicolon. -/
def SyntaxError.inStatement (missing : Expectation) (semicolon : Token) :
    SyntaxError → SyntaxError
  | expected what found =>
    .expected (if what = .endOfExpression then missing else what) (semicolon.reclosed found)
  | exhausted => .exhausted

theorem SyntaxError.inStatement_of_ne {x : SyntaxError}
    (h : ∀ t, x ≠ .expected .endOfExpression t) (missing : Expectation) (semicolon : Token) :
    x.inStatement missing semicolon = x.reclosed semicolon := by
  cases x with
  | exhausted => rfl
  | expected what found =>
    have hwhat : what ≠ .endOfExpression := fun heq => h found (by rw [heq])
    rw [inStatement, if_neg hwhat, reclosed]

namespace Parse

theorem Opens.not_atEnd {ts us : List Token} {wrap : Expr → Statement} {what : Expectation}
    (h : Opens ts wrap what us) (hus : atEnd us = false) : atEnd ts = false := by
  cases h with
  | print ht => simp [atEnd, ht]
  | bare _ => exact hus

theorem Opens.wrap_injective {ts us : List Token} {wrap : Expr → Statement} {what : Expectation}
    (h : Opens ts wrap what us) : Function.Injective wrap := by
  cases h with
  | print => exact fun _ _ => Statement.print.inj
  | bare => exact fun _ _ => Statement.expression.inj

section Closed
variable {ts p : List Token} {wrap : Expr → Statement} {what : Expectation} {s z : Token}

/-- A statement whose expression has a tree, closed by a semicolon. -/
theorem Opens.complete_of_expression (ho : Opens ts wrap what (p ++ [s, z]))
    (hp : ∀ t ∈ p, t.kind ≠ .eof) (hs : s.kind = .semicolon) (hz : z.kind = .eof) {e : Expr}
    (h : expression (p ++ [z]) = .ok e) : ReadsStatement ts (.ok (wrap e)) [z] := by
  obtain ⟨t, rest, hread, ht⟩ := expression_eq_ok_iff.mp h
  obtain ⟨q, r, rfl, hleft, hclosed⟩ := hread.before_closing (by rw [hs]; decide) hp hz
  cases r with
  | nil => exact .complete ho (hclosed [z]) hs
  | cons v r =>
    obtain ⟨rfl, -⟩ := List.cons.inj hleft
    exact absurd ht (hp t (by simp))

/-- A statement whose expression has an error breaks with that error. -/
theorem Opens.breaks_of_expression (ho : Opens ts wrap what (p ++ [s, z]))
    (hp : ∀ t ∈ p, t.kind ≠ .eof ∧ t.kind ≠ .semicolon) (hs : s.kind = .semicolon)
    (hz : z.kind = .eof) {x : SyntaxError} (h : expression (p ++ [z]) = .error x) :
    ∃ left, ReadsStatement ts (.error (x.inStatement what s)) left := by
  have hterminals : s.kind ∉ terminals := by rw [hs]; decide
  have hopen : ∀ t ∈ p, t.kind ≠ .eof := fun t ht => (hp t ht).1
  rcases expression_eq_error_iff.mp h with ⟨left, hread⟩ | ⟨e, left, hread, heof, rfl⟩
  · obtain ⟨q, r, -, -, hclosed⟩ := hread.before_closing hterminals hopen hz
    rw [SyntaxError.inStatement_of_ne hread.error_within]
    exact ⟨_, .valueFails ho (hclosed [z])⟩
  · obtain ⟨q, r, rfl, rfl, hclosed⟩ := hread.before_closing hterminals hopen hz
    cases r with
    | nil => exact absurd hz ((avoids_cons _ _ _).mp heof)
    | cons t r =>
      obtain ⟨ht, hsemi⟩ := hp t (by simp)
      have hblame : (blame .endOfExpression (t :: r ++ [z])).inStatement what s =
          blame what (t :: r ++ [s, z]) := by
        rw [List.cons_append, blame, SyntaxError.inStatement, if_pos rfl, reclosed_of_ne ht]
        rfl
      rw [hblame]
      exact ⟨_, .semicolonMissing ho (hclosed [z]) ((avoids_cons _ _ _).mpr hsemi)⟩

/-- The program of one statement made of an expression. -/
theorem Opens.program_of_closed (ho : Opens ts wrap what (p ++ [s, z]))
    (hp : ∀ t ∈ p, t.kind ≠ .eof ∧ t.kind ≠ .semicolon) (hs : s.kind = .semicolon)
    (hz : z.kind = .eof) :
    (∀ e, expression (p ++ [z]) = .ok e ↔ program ts = .ok [wrap e]) ∧
    ∀ x, expression (p ++ [z]) = .error x →
      ∃ xs, program ts = .error (x.inStatement what s :: xs) := by
  have hopen : ∀ t ∈ p, t.kind ≠ .eof := fun t ht => (hp t ht).1
  have hok : ∀ e, expression (p ++ [z]) = .ok e → program ts = .ok [wrap e] := by
    intro e he
    have hread := ho.complete_of_expression hopen hs hz he
    have hend : atEnd [z] = true := by simp [atEnd, hz]
    rw [program_eq_ok_iff, rounds_of_ok hread, rounds_of_atEnd hend]
    exact ⟨rfl, rfl⟩
  have herror : ∀ x, expression (p ++ [z]) = .error x →
      ∃ xs, program ts = .error (x.inStatement what s :: xs) := by
    intro x hx
    obtain ⟨left, hread⟩ := ho.breaks_of_expression hp hs hz hx
    have hus : atEnd (p ++ [s, z]) = false := by
      cases p with
      | nil => simp [atEnd, hs]
      | cons t p => simpa [atEnd] using (hp t List.mem_cons_self).1
    refine ⟨errorsOf (rounds (synchronize left)), program_eq_error_iff.mpr ⟨?_, ?_⟩⟩
    · rw [rounds_of_error hread (ho.not_atEnd hus), errorsOf_error]
    · exact List.cons_ne_nil _ _
  refine ⟨fun e => ⟨hok e, fun he => ?_⟩, herror⟩
  cases h : expression (p ++ [z]) with
  | error x =>
    obtain ⟨xs, hxs⟩ := herror x h
    rw [he] at hxs
    cases hxs
  | ok a =>
    have ha := (hok a h).symm.trans he
    rw [ho.wrap_injective (List.cons.inj (Except.ok.inj ha)).1]

end Closed

/-- Tokens form an expression exactly when they form a `print` statement with a semicolon
behind them, of the same tree. Otherwise the first error of the statement is the error of
the expression: the semicolon is blamed in the place of the closing token, and where the
expression leaves tokens over, the statement lacks its semicolon at the first of them. The
same holds without `print`, if the tokens do not begin with another one. -/
theorem program_of_expression {p : List Token} {k s z : Token}
    (hp : ∀ t ∈ p, t.kind ≠ .eof ∧ t.kind ≠ .semicolon) (hk : k.kind = .printWord)
    (hs : s.kind = .semicolon) (hz : z.kind = .eof) :
    ((∀ e, expression (p ++ [z]) = .ok e ↔ program ([k] ++ p ++ [s, z]) = .ok [.print e]) ∧
      ∀ x, expression (p ++ [z]) = .error x → ∃ xs, program ([k] ++ p ++ [s, z]) =
        .error (x.inStatement .semicolonAfterValue s :: xs)) ∧
    ((∀ t ∈ p.head?, t.kind ≠ .printWord) →
      (∀ e, expression (p ++ [z]) = .ok e ↔ program (p ++ [s, z]) = .ok [.expression e]) ∧
      ∀ x, expression (p ++ [z]) = .error x → ∃ xs, program (p ++ [s, z]) =
        .error (x.inStatement .semicolonAfterExpression s :: xs)) := by
  refine ⟨(Opens.print hk).program_of_closed hp hs hz, fun hfirst => ?_⟩
  have hbare : Avoids (·.kind = .printWord) (p ++ [s, z]) := by
    cases p with
    | nil => simp [hs]
    | cons t p => exact (avoids_cons _ _ _).mpr (hfirst t rfl)
  exact (Opens.bare hbare).program_of_closed hp hs hz

/-- An open group, which lacks its parenthesis at the semicolon as it does at the end, and
two values, of which the second is left over. -/
theorem program_of_expression_open_group :
    let group := [filler .leftParen, filler .nilWord]
    let values := [filler .nilWord, filler .trueWord]
    let close := [filler .semicolon, filler .eof]
    expression (group ++ [filler .eof]) =
      .error (.expected .closingParen (filler .eof)) ∧
    (∃ xs, program ([filler .printWord] ++ group ++ close) =
      .error (.expected .closingParen (filler .semicolon) :: xs)) ∧
    expression (values ++ [filler .eof]) =
      .error (.expected .endOfExpression (filler .trueWord)) ∧
    ∃ xs, program (values ++ close) =
      .error (.expected .semicolonAfterExpression (filler .trueWord) :: xs) := by
  intro group values close
  have hgroup : expression (group ++ [filler .eof]) =
      .error (.expected .closingParen (filler .eof)) := by cbv
  have hvalues : expression (values ++ [filler .eof]) =
      .error (.expected .endOfExpression (filler .trueWord)) := by cbv
  obtain ⟨⟨-, hprint⟩, -⟩ := program_of_expression (p := group) (k := filler .printWord)
    (s := filler .semicolon) (z := filler .eof) (by decide) rfl rfl rfl
  obtain ⟨-, hbare⟩ := program_of_expression (p := values) (k := filler .printWord)
    (s := filler .semicolon) (z := filler .eof) (by decide) rfl rfl rfl
  exact ⟨hgroup, hprint _ hgroup, hvalues, (hbare (by decide)).2 _ hvalues⟩

end Parse

end Reckon
