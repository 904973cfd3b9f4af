import Reckon.Proofs.Lookahead

/-!
# Where syntax errors are reported

An error is reported at the first token after which no continuation is accepted.
The tokens before it can always be completed: every open parenthesis, conditional
and operator has a continuation that closes it. With the blamed token no
continuation helps, since a reading looks no further than that token.
-/
namespace Reckon.Parse
open Grammar

/-- Tokens from which completions are made. -/
def filler (kind : Kind) : Token := { kind, lexeme := "", line := 1 }

theorem kind_filler (kind : Kind) : (filler kind).kind = kind := rfl

theorem derives_filler (s : Symbol) : Derives s [filler .nilWord] (.literal .nil) :=
  Derives.of_primary (.atom (.nothing rfl)) s

/-- The tokens consumed for a goal can be completed. The loop starts from tokens that
already form its left side. -/
def Goal.Completable : Goal → List Token → Prop
  | whole s, p => ∃ c e, Derives s (p ++ c) e
  | more level a, p =>
      ∀ q, Derives (.binary level) q a → ∃ c e, Derives (.binary level) (q ++ p ++ c) e

theorem Reads.completable {g : Goal} {ts left : List Token} {x : SyntaxError}
    (h : Reads g ts (.error x) left) : ∃ p, ts = p ++ left ∧ g.Completable p := by
  generalize hout : Except.error x = out at h
  induction h with
  | unconditional | conditional | stop | prefixed | atom | group => cases hout
  | conditionFails _ ih =>
    obtain ⟨p, rfl, c, e, hp⟩ := ih hout
    exact ⟨p, rfl, c, e, .unconditional hp⟩
  | @thenFails ts c t rest₀ x rest hc hq _ _ ih =>
    obtain ⟨p, rfl, hp⟩ := hc.covers
    obtain ⟨q, rfl, d, a, ha⟩ := ih hout
    refine ⟨p ++ t :: q, by simp, d ++ [filler .colon, filler .nilWord],
      .ternary c a (.literal .nil), ?_⟩
    simpa using Derives.conditional hp hq ha (kind_filler .colon) (derives_filler _)
  | @colonMissing ts c t rest₀ a rest hc hq ha _ _ _ =>
    obtain ⟨p, rfl, hp⟩ := hc.covers
    obtain ⟨q, rfl, hq'⟩ := ha.covers
    refine ⟨p ++ t :: q, by simp, [filler .colon, filler .nilWord],
      .ternary c a (.literal .nil), ?_⟩
    simpa using Derives.conditional hp hq hq' (kind_filler .colon) (derives_filler _)
  | @elseFails ts c t rest₀ a u rest₁ x rest hc hq ha hu _ _ _ ih =>
    obtain ⟨p, rfl, hp⟩ := hc.covers
    obtain ⟨q, rfl, hq'⟩ := ha.covers
    obtain ⟨r, rfl, d, b, hb⟩ := ih hout
    refine ⟨p ++ t :: (q ++ u :: r), by simp, d, .ternary c a b, ?_⟩
    simpa using Derives.conditional hp hq hq' hu hb
  | firstFails _ ih =>
    obtain ⟨p, rfl, c, e, hp⟩ := ih hout
    exact ⟨p, rfl, c, e, .single hp⟩
  | chain ha _ _ ih =>
    obtain ⟨p, rfl, hp⟩ := ha.covers
    obtain ⟨q, rfl, hq⟩ := ih hout
    exact ⟨p ++ q, by simp, hq p (.single hp)⟩
  | @linkFails level a t ts x rest ht _ ih =>
    obtain ⟨p, rfl, c, b, hp⟩ := ih hout
    refine ⟨t :: p, rfl, fun q hq => ⟨c, .binary a t b, ?_⟩⟩
    simpa using Derives.joined hq ht hp
  | @link level a t ts b rest₀ out rest ht hb _ _ ih =>
    obtain ⟨p, rfl, hp⟩ := hb.covers
    obtain ⟨r, rfl, hr⟩ := ih hout
    refine ⟨t :: (p ++ r), by simp, fun q hq => ?_⟩
    simpa using hr _ (.joined hq ht hp)
  | @prefixedFails t ts x rest ht _ ih =>
    obtain ⟨p, rfl, c, e, hp⟩ := ih hout
    exact ⟨t :: p, rfl, c, _, .prefixed ht hp⟩
  | unprefixed _ _ ih =>
    obtain ⟨p, rfl, c, e, hp⟩ := ih hout
    exact ⟨p, rfl, c, e, .unprefixed hp⟩
  | nothingStarts _ => exact ⟨[], rfl, _, _, derives_filler _⟩
  | @innerFails t ts x rest hk _ ih =>
    obtain ⟨p, rfl, c, e, hp⟩ := ih hout
    refine ⟨t :: p, rfl, c ++ [filler .rightParen], .grouping e, ?_⟩
    simpa using Derives.group hk hp (kind_filler .rightParen)
  | @parenMissing t ts e rest hk he _ _ =>
    obtain ⟨p, rfl, hp⟩ := he.covers
    exact ⟨t :: p, rfl, [filler .rightParen], _, .group hk hp (kind_filler _)⟩

theorem ReadsStatement.completable {ts left : List Token} {x : SyntaxError}
    (h : ReadsStatement ts (.error x) left) :
    ∃ p, ts = p ++ left ∧ ∃ c s, ReadsStatement (p ++ c) (.ok s) [] := by
  -- It is enough to complete the expression; the semicolon then closes the statement.
  suffices hc : ∃ wrap what us q, Opens ts wrap what us ∧ us = q ++ left ∧
      ∃ c e, Derives .ternary (q ++ c) e by
    obtain ⟨wrap, what, us, q, ho, rfl, c, e, he⟩ := hc
    have hr := reads_of_derives he (.inr (kind_filler .semicolon)) []
    cases ho with
    | @print t _ ht =>
      refine ⟨t :: q, rfl, c ++ [filler .semicolon], .print e, ?_⟩
      exact .complete (.print ht) (by simpa using hr) (kind_filler _)
    | bare _ =>
      have hs : Avoids (·.kind = .printWord) (q ++ (c ++ [filler .semicolon])) := by
        rw [← List.append_assoc]
        exact avoids_of_derives he (by decide) _
      refine ⟨q, rfl, c ++ [filler .semicolon], .expression e, ?_⟩
      exact .complete (.bare hs) (by simpa using hr) (kind_filler _)
  cases h with
  | valueFails ho hx =>
    obtain ⟨q, hq, hc⟩ := hx.completable
    exact ⟨_, _, _, q, ho, hq, hc⟩
  | semicolonMissing ho he _ =>
    obtain ⟨q, hq, hd⟩ := he.covers
    exact ⟨_, _, _, q, ho, hq, [], _, (List.append_nil q).symm ▸ hd⟩

/-- Some continuation of the tokens is accepted. -/
def Viable (accepts : List Token → Prop) (p : List Token) : Prop := ∃ c, accepts (p ++ c)

/-- The error stands at the first token with which nothing is accepted any more, or
behind tokens that only lack a continuation. -/
def Earliest (accepts : List Token → Prop) (ts : List Token) (x : SyntaxError) : Prop :=
  match x.token? with
  | some t => ∃ i, ts[i]? = some t ∧ Viable accepts (ts.take i) ∧ ¬ Viable accepts (ts.take (i + 1))
  | none => Viable accepts ts

/-- An error is earliest if the tokens before the blamed one can be completed and
nothing behind the blamed one matters. -/
theorem earliest_of_blame {accepts : List Token → Prop} {p left : List Token} (what : Expectation)
    (hv : Viable accepts p)
    (hn : ∀ left', left'.head? = left.head? → ¬ accepts (p ++ left')) :
    Earliest accepts (p ++ left) (blame what left) := by
  cases left with
  | nil =>
    change Viable accepts (p ++ [])
    rwa [List.append_nil]
  | cons t left =>
    refine ⟨p.length, by simp, by simpa using hv, ?_⟩
    rintro ⟨c, hc⟩
    rw [List.take_length_add_append, List.append_assoc] at hc
    exact hn ([t] ++ c) rfl hc

/-- Tokens in front that change nothing about acceptance only shift the position. -/
theorem Earliest.append {accepts : List Token → Prop} {p ts : List Token} {x : SyntaxError}
    (hp : ∀ us, accepts (p ++ us) ↔ accepts us) (h : Earliest accepts ts x) :
    Earliest accepts (p ++ ts) x := by
  have hv : ∀ us, Viable accepts (p ++ us) ↔ Viable accepts us := by
    intro us
    simp only [Viable, List.append_assoc, hp]
  unfold Earliest at h ⊢
  cases hx : x.token? with
  | none =>
    simp only [hx] at h
    exact (hv ts).mpr h
  | some t =>
    simp only [hx] at h
    obtain ⟨i, hi, hb, ha⟩ := h
    have hadd : p.length + i + 1 = p.length + (i + 1) := by omega
    refine ⟨p.length + i, ?_, ?_, ?_⟩
    · rw [List.getElem?_append_right (Nat.le_add_right _ _), Nat.add_sub_cancel_left]
      exact hi
    · rw [List.take_length_add_append]
      exact (hv _).mpr hb
    · rw [hadd, List.take_length_add_append]
      exact mt (hv _).mp ha

/-- The tokens are an expression. -/
def AcceptsExpression (ts : List Token) : Prop := ∃ e, expression ts = .ok e

theorem viable_of_derives {p c : List Token} {e : Expr} (h : Derives .ternary (p ++ c) e) :
    Viable AcceptsExpression p := by
  refine ⟨c ++ [filler .eof], e, expression_eq_ok_iff.mpr ⟨filler .eof, [], ?_, rfl⟩⟩
  simpa using reads_of_derives h (.inl (kind_filler .eof)) []

theorem not_acceptsExpression {ts : List Token} {x : SyntaxError} (h : expression ts = .error x) :
    ¬ AcceptsExpression ts := by
  rintro ⟨e, he⟩
  rw [h] at he
  cases he

theorem earliest_expression {ts : List Token} {x : SyntaxError} (h : expression ts = .error x) :
    Earliest AcceptsExpression ts x := by
  rcases expression_eq_error_iff.mp h with ⟨left, hr⟩ | ⟨e, left, hr, hs, rfl⟩
  · obtain ⟨p, rfl, c, e, hd⟩ := hr.completable
    obtain ⟨q, hq, hl⟩ := hr.lookahead
    obtain rfl : p = q := List.append_cancel_right hq
    obtain ⟨what, rfl⟩ := hr.blames
    refine earliest_of_blame what (viable_of_derives hd) fun left' hl' => ?_
    exact not_acceptsExpression (expression_eq_error_iff.mpr (.inl ⟨left', hl left' hl'⟩))
  · obtain ⟨p, rfl, hd⟩ := hr.covers
    obtain ⟨q, hq, hl⟩ := hr.lookahead
    obtain rfl : p = q := List.append_cancel_right hq
    have hv : Viable AcceptsExpression p := viable_of_derives ((List.append_nil p).symm ▸ hd)
    refine earliest_of_blame .endOfExpression hv fun left' hl' => ?_
    exact not_acceptsExpression
      (expression_eq_error_iff.mpr (.inr ⟨e, left', hl left' hl', hs.congr hl', rfl⟩))

/-- The tokens are a program without errors. -/
def AcceptsProgram (ts : List Token) : Prop := ∃ ss, program ts = .ok ss

theorem acceptsProgram_iff {ts : List Token} : AcceptsProgram ts ↔ errorsOf (rounds ts) = [] := by
  simp [AcceptsProgram, program_eq_ok_iff]

theorem acceptsProgram_append {p : List Token} {s : Statement}
    (hp : ∀ rest, ReadsStatement (p ++ rest) (.ok s) rest) (ts : List Token) :
    AcceptsProgram (p ++ ts) ↔ AcceptsProgram ts := by
  rw [acceptsProgram_iff, acceptsProgram_iff, rounds_of_ok (hp ts), errorsOf_ok]

theorem earliest_statement {ts left : List Token} {x : SyntaxError}
    (h : ReadsStatement ts (.error x) left) (hts : atEnd ts = false) :
    Earliest AcceptsProgram ts x := by
  obtain ⟨p, rfl, c, s, hc⟩ := h.completable
  obtain ⟨q, hq, hl⟩ := h.lookahead
  obtain rfl : p = q := List.append_cancel_right hq
  obtain ⟨what, rfl⟩ := h.blames
  refine earliest_of_blame what ⟨c, ?_⟩ fun left' hl' => ?_
  · rw [acceptsProgram_iff, rounds_of_ok hc, errorsOf_ok, rounds_of_atEnd rfl]
    rfl
  · have hend : atEnd (p ++ left') = false := by
      rw [← hts]
      exact atEnd_congr (head?_append_congr p hl')
    rw [acceptsProgram_iff, rounds_of_error (hl left' hl') hend, errorsOf_error]
    exact List.cons_ne_nil _ _

theorem earliest_rounds (ts : List Token) {x : SyntaxError} {xs : List SyntaxError}
    (h : errorsOf (rounds ts) = x :: xs) : Earliest AcceptsProgram ts x := by
  cases hts : atEnd ts with
  | true =>
    rw [rounds_of_atEnd hts] at h
    cases h
  | false =>
    rcases readsStatement_total ts with ⟨s, rest, hr, hlt⟩ | ⟨y, left, hr, hle⟩
    · rw [rounds_of_ok hr, errorsOf_ok] at h
      have ih := earliest_rounds rest h
      obtain ⟨p, rfl, hp⟩ := hr.detached
      exact ih.append (acceptsProgram_append hp)
    · rw [rounds_of_error hr hts, errorsOf_error] at h
      cases h
      exact earliest_statement hr hts
termination_by ts.length

/-- Syntax errors are reported at the earliest possible token. -/
theorem first_error_earliest :
    (∀ ts x, expression ts = .error x → Earliest (fun us => ∃ e, expression us = .ok e) ts x) ∧
    ∀ ts xs, program ts = .error xs → ∃ x, xs.head? = some x ∧
      Earliest (fun us => ∃ ss, program us = .ok ss) ts x := by
  refine ⟨fun ts x h => earliest_expression h, fun ts xs h => ?_⟩
  obtain ⟨hx, hne⟩ := program_eq_error_iff.mp h
  cases xs with
  | nil => exact absurd rfl hne
  | cons x xs => exact ⟨x, rfl, earliest_rounds ts hx⟩

/-- An opened group that ends at once: the closing token is blamed, and the group before it
can be completed. -/
theorem first_error_earliest_open_group :
    let ts := [filler .leftParen, filler .eof]
    let x := SyntaxError.expected .expression (filler .eof)
    (expression ts = .error x ∧ Earliest (fun us => ∃ e, expression us = .ok e) ts x) ∧
    program ts = .error [x] ∧ ∃ y, [x].head? = some y ∧
      Earliest (fun us => ∃ ss, program us = .ok ss) ts y := by
  intro ts x
  have hexpr : expression ts = .error x := by cbv
  have hprog : program ts = .error [x] := by cbv
  exact ⟨⟨hexpr, first_error_earliest.1 ts x hexpr⟩, hprog, first_error_earliest.2 ts [x] hprog⟩

end Reckon.Parse
