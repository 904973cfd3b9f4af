import Reckon.Proofs.Grammar

/-!
# What the parser reads

The rules by which the parser goes on, one for each way a step can end. A reading
starts from a goal, ends with a tree or an error, and leaves tokens behind. Goals
are the symbols of the grammar and the loop that extends a left side. The rules
hold of the parser's functions and determine them, so what is true of every
reading is proved by induction on the rules.
-/
namespace Reckon.Parse
open Grammar

/-- The next token, if there is one, is none of those described. -/
def Avoids (P : Token → Prop) (tokens : List Token) : Prop := ∀ t ∈ tokens.head?, ¬ P t

@[simp] theorem avoids_nil (P : Token → Prop) : Avoids P [] := by simp [Avoids]

@[simp] theorem avoids_cons (P : Token → Prop) (t : Token) (rest : List Token) :
    Avoids P (t :: rest) ↔ ¬ P t := by simp [Avoids]

theorem Avoids.congr {P : Token → Prop} {a b : List Token} (h : Avoids P a)
    (hab : b.head? = a.head?) : Avoids P b := by
  unfold Avoids at h ⊢
  rw [hab]
  exact h

/-- What a symbol is derived from begins with one of the first kinds. -/
theorem avoids_of_derives {s : Symbol} {p : List Token} {e : Expr} (h : Derives s p e)
    {kind : Kind} (hk : kind ∉ firstKinds) (rest : List Token) :
    Avoids (·.kind = kind) (p ++ rest) := by
  obtain ⟨t, q, rfl, ht⟩ := h.head_kind
  rw [List.cons_append, avoids_cons]
  rintro rfl
  exact hk ht

/-- The error of not finding what is expected next. -/
def blame (what : Expectation) : List Token → SyntaxError
  | [] => .exhausted
  | t :: _ => .expected what t

theorem blame_congr (what : Expectation) {a b : List Token} (h : b.head? = a.head?) :
    blame what b = blame what a := by
  cases a <;> cases b <;> simp_all [blame]

/-- Tokens with which something that stands by itself begins. -/
def StartsPrimary (t : Token) : Prop := (∃ v, Atom t v) ∨ t.kind = .leftParen

/-- What is to be read: a symbol, or what extends a left side. -/
inductive Goal where
  | whole (s : Symbol)
  | more (level : Level) (left : Expr)

inductive Reads : Goal → List Token → Except SyntaxError Expr → List Token → Prop
  | conditionFails {ts x rest} :
      Reads (.whole (.binary .equality)) ts (.error x) rest →
      Reads (.whole .ternary) ts (.error x) rest
  | unconditional {ts c rest} :
      Reads (.whole (.binary .equality)) ts (.ok c) rest → Avoids (·.kind = .question) rest →
      Reads (.whole .ternary) ts (.ok c) rest
  | thenFails {ts c t rest₀ x rest} :
      Reads (.whole (.binary .equality)) ts (.ok c) (t :: rest₀) → t.kind = .question →
      Reads (.whole .ternary) rest₀ (.error x) rest →
      Reads (.whole .ternary) ts (.error x) rest
  | colonMissing {ts c t rest₀ a rest} :
      Reads (.whole (.binary .equality)) ts (.ok c) (t :: rest₀) → t.kind = .question →
      Reads (.whole .ternary) rest₀ (.ok a) rest → Avoids (·.kind = .colon) rest →
      Reads (.whole .ternary) ts (.error (blame .ternaryColon rest)) rest
  | elseFails {ts c t rest₀ a u rest₁ x rest} :
      Reads (.whole (.binary .equality)) ts (.ok c) (t :: rest₀) → t.kind = .question →
      Reads (.whole .ternary) rest₀ (.ok a) (u :: rest₁) → u.kind = .colon →
      Reads (.whole .ternary) rest₁ (.error x) rest →
      Reads (.whole .ternary) ts (.error x) rest
  | conditional {ts c t rest₀ a u rest₁ b rest} :
      Reads (.whole (.binary .equality)) ts (.ok c) (t :: rest₀) → t.kind = .question →
      Reads (.whole .ternary) rest₀ (.ok a) (u :: rest₁) → u.kind = .colon →
      Reads (.whole .ternary) rest₁ (.ok b) rest →
      Reads (.whole .ternary) ts (.ok (.ternary c a b)) rest
  | firstFails {level ts x rest} :
      Reads (.whole (operandOf level)) ts (.error x) rest →
      Reads (.whole (.binary level)) ts (.error x) rest
  | chain {level ts a rest₀ out rest} :
      Reads (.whole (operandOf level)) ts (.ok a) rest₀ →
      Reads (.more level a) rest₀ out rest →
      Reads (.whole (.binary level)) ts out rest
  | stop {level a rest} :
      Avoids (·.kind ∈ joiners level) rest → Reads (.more level a) rest (.ok a) rest
  | linkFails {level a t ts x rest} :
      t.kind ∈ joiners level → Reads (.whole (operandOf level)) ts (.error x) rest →
      Reads (.more level a) (t :: ts) (.error x) rest
  | link {level a t ts b rest₀ out rest} :
      t.kind ∈ joiners level → Reads (.whole (operandOf level)) ts (.ok b) rest₀ →
      Reads (.more level (.binary a t b)) rest₀ out rest →
      Reads (.more level a) (t :: ts) out rest
  | prefixedFails {t ts x rest} :
      t.kind = .bang ∨ t.kind = .minus → Reads (.whole .unary) ts (.error x) rest →
      Reads (.whole .unary) (t :: ts) (.error x) rest
  | prefixed {t ts e rest} :
      t.kind = .bang ∨ t.kind = .minus → Reads (.whole .unary) ts (.ok e) rest →
      Reads (.whole .unary) (t :: ts) (.ok (.unary t e)) rest
  | unprefixed {ts out rest} :
      Avoids (fun t => t.kind = .bang ∨ t.kind = .minus) ts →
      Reads (.whole .primary) ts out rest → Reads (.whole .unary) ts out rest
  | nothingStarts {ts} :
      Avoids StartsPrimary ts → Reads (.whole .primary) ts (.error (blame .expression ts)) ts
  | atom {t v rest} :
      Atom t v → Reads (.whole .primary) (t :: rest) (.ok (.literal v)) rest
  | innerFails {t ts x rest} :
      t.kind = .leftParen → Reads (.whole .ternary) ts (.error x) rest →
      Reads (.whole .primary) (t :: ts) (.error x) rest
  | parenMissing {t ts e rest} :
      t.kind = .leftParen → Reads (.whole .ternary) ts (.ok e) rest →
      Avoids (·.kind = .rightParen) rest →
      Reads (.whole .primary) (t :: ts) (.error (blame .closingParen rest)) rest
  | group {t ts e u rest} :
      t.kind = .leftParen → Reads (.whole .ternary) ts (.ok e) (u :: rest) →
      u.kind = .rightParen →
      Reads (.whole .primary) (t :: ts) (.ok (.grouping e)) rest

theorem mem_operators_iff (level : Level) (kind : Kind) :
    kind ∈ level.operators ↔ kind ∈ joiners level := by
  cases level <;> exact Iff.rfl

theorem mem_unaryOperators_iff (kind : Kind) :
    kind ∈ unaryOperators ↔ kind = .bang ∨ kind = .minus := by
  simp [unaryOperators]

theorem primary_of_not_starts {t : Token} (h : ¬ StartsPrimary t) (rest : List Token) :
    primary (t :: rest) = .failure (.expected .expression t) (t :: rest) (cons_le t rest) := by
  rw [primary]
  split
  · next hk => exact absurd (.inl ⟨_, .falsehood hk⟩) h
  · next hk => exact absurd (.inl ⟨_, .truth hk⟩) h
  · next hk => exact absurd (.inl ⟨_, .nothing hk⟩) h
  · next hk =>
    split
    · next l hl => exact absurd (.inl ⟨_, .literal (.inl hk) hl⟩) h
    · rfl
  · next hk =>
    split
    · next l hl => exact absurd (.inl ⟨_, .literal (.inr hk) hl⟩) h
    · rfl
  · next hk => exact absurd (.inr hk) h
  · rfl

theorem primary_of_atom {t : Token} {v : Value} (h : Atom t v) (rest : List Token) :
    primary (t :: rest) = .success (.literal v) rest (tail_lt t rest) := by
  rw [primary]
  cases h with
  | falsehood hk => simp only [hk]
  | truth hk => simp only [hk]
  | nothing hk => simp only [hk]
  | literal hk hl => rcases hk with hk | hk <;> simp only [hk, hl]

mutual

theorem reads_ternary (ts : List Token) :
    Reads (.whole .ternary) ts (ternary ts).result (ternary ts).rest := by
  have hc := reads_chain .equality ts
  rw [ternary]
  cases h : chain .equality ts with
  | failure x rest le =>
    rw [h] at hc
    exact .conditionFails hc
  | success c rest lt =>
    rw [h] at hc
    cases rest with
    | nil => exact .unconditional hc (avoids_nil _)
    | cons t rest₀ =>
      simp only [Outcome.andThen]
      split
      · next hq =>
        have ha := reads_ternary rest₀
        cases h₀ : ternary rest₀ with
        | failure x rest le =>
          rw [h₀] at ha
          exact .thenFails hc hq ha
        | success a rest₁ lt₁ =>
          rw [h₀] at ha
          cases rest₁ with
          | nil => exact .colonMissing hc hq ha (avoids_nil _)
          | cons u rest₁ =>
            by_cases hu : u.kind = .colon
            · simp only [expect, hu, if_true]
              have hb := reads_ternary rest₁
              cases h₁ : ternary rest₁ with
              | failure x rest le =>
                rw [h₁] at hb
                exact .elseFails hc hq ha hu hb
              | success b rest le =>
                rw [h₁] at hb
                exact .conditional hc hq ha hu hb
            · simp only [expect, hu, if_false]
              exact .colonMissing hc hq ha ((avoids_cons _ _ _).mpr hu)
      · next hq => exact .unconditional hc ((avoids_cons _ _ _).mpr hq)
termination_by 12 * ts.length + 11
decreasing_by
  · simp only [Level.height]
    omega
  · simp only [List.length_cons] at lt
    omega
  · simp only [List.length_cons] at lt lt₁
    omega

theorem reads_chain (level : Level) (ts : List Token) :
    Reads (.whole (.binary level)) ts (chain level ts).result (chain level ts).rest := by
  have ha := reads_operand level ts
  rw [chain]
  cases h : operand level ts with
  | failure x rest le =>
    rw [h] at ha
    exact .firstFails ha
  | success a rest lt =>
    rw [h] at ha
    simp only [Outcome.andThen, Outcome.result_widen, Outcome.rest_widen]
    exact .chain ha (reads_links level a rest)
termination_by 12 * ts.length + (2 * level.height + 2)
decreasing_by
  · omega
  · omega

theorem reads_links (level : Level) (a : Expr) (ts : List Token) :
    Reads (.more level a) ts (links level a ts).result (links level a ts).rest := by
  cases ts with
  | nil =>
    rw [links]
    exact .stop (avoids_nil _)
  | cons t ts =>
    rw [links]
    split
    · next ht =>
      have hb := reads_operand level ts
      cases h : operand level ts with
      | failure x rest le =>
        rw [h] at hb
        exact .linkFails ((mem_operators_iff _ _).mp ht) hb
      | success b rest lt =>
        rw [h] at hb
        simp only [Outcome.andThen, Outcome.result_widen, Outcome.rest_widen]
        exact .link ((mem_operators_iff _ _).mp ht) hb (reads_links level _ rest)
    · next ht => exact .stop ((avoids_cons _ _ _).mpr (mt (mem_operators_iff _ _).mpr ht))
termination_by 12 * ts.length
decreasing_by
  · have := level.height_le
    simp only [List.length_cons]
    omega
  · simp only [List.length_cons]
    omega

theorem reads_operand (level : Level) (ts : List Token) :
    Reads (.whole (operandOf level)) ts (operand level ts).result (operand level ts).rest := by
  cases level with
  | equality =>
    rw [operand]
    exact reads_chain .comparison ts
  | comparison =>
    rw [operand]
    exact reads_chain .term ts
  | term =>
    rw [operand]
    exact reads_chain .factor ts
  | factor =>
    rw [operand]
    exact reads_unary ts
termination_by 12 * ts.length + (2 * level.height + 1)
decreasing_by all_goals simp only [Level.height]; omega

theorem reads_unary (ts : List Token) :
    Reads (.whole .unary) ts (unary ts).result (unary ts).rest := by
  cases ts with
  | nil =>
    rw [unary]
    exact .unprefixed (avoids_nil _) (.nothingStarts (avoids_nil _))
  | cons t ts =>
    rw [unary]
    split
    · next ht =>
      have he := reads_unary ts
      cases h : unary ts with
      | failure x rest le =>
        rw [h] at he
        exact .prefixedFails ((mem_unaryOperators_iff _).mp ht) he
      | success e rest lt =>
        rw [h] at he
        exact .prefixed ((mem_unaryOperators_iff _).mp ht) he
    · next ht =>
      have hp := reads_primary (t :: ts)
      exact .unprefixed ((avoids_cons _ _ _).mpr (mt (mem_unaryOperators_iff _).mpr ht)) hp
termination_by 12 * ts.length + 2
decreasing_by all_goals simp only [List.length_cons]; omega

theorem reads_primary (ts : List Token) :
    Reads (.whole .primary) ts (primary ts).result (primary ts).rest := by
  cases ts with
  | nil =>
    rw [primary]
    exact .nothingStarts (avoids_nil _)
  | cons t ts =>
    by_cases hs : StartsPrimary t
    · rcases hs with ⟨v, hv⟩ | hk
      · rw [primary_of_atom hv]
        exact .atom hv
      · have he := reads_ternary ts
        rw [primary]
        simp only [hk]
        cases h : ternary ts with
        | failure x rest le =>
          rw [h] at he
          exact .innerFails hk he
        | success e rest lt =>
          rw [h] at he
          cases rest with
          | nil => exact .parenMissing hk he (avoids_nil _)
          | cons u rest =>
            by_cases hu : u.kind = .rightParen
            · simp only [Outcome.andThen, expect, hu, if_true]
              exact .group hk he hu
            · simp only [Outcome.andThen, expect, hu, if_false]
              exact .parenMissing hk he ((avoids_cons _ _ _).mpr hu)
    · rw [primary_of_not_starts hs]
      exact .nothingStarts ((avoids_cons _ _ _).mpr hs)
termination_by 12 * ts.length + 1
decreasing_by
  simp only [List.length_cons]
  omega

end

namespace Outcome
variable {α : Type} {n : Nat}

/-- The outcome without its bounds. -/
def Gives (o : Outcome α n) (out : Except SyntaxError α) (rest : List Token) : Prop :=
  o.result = out ∧ o.rest = rest

theorem gives_ok_iff {o : Outcome α n} {a : α} {rest : List Token} :
    o.Gives (.ok a) rest ↔ ∃ lt, o = .success a rest lt := by
  cases o with
  | success b r lt =>
    simp only [Gives, result, Outcome.rest, Except.ok.injEq, success.injEq, exists_prop]
    exact ⟨fun ⟨hb, hr⟩ => ⟨hr ▸ lt, hb, hr⟩, fun h => h.2⟩
  | failure e r le => simp [Gives, result]

theorem gives_error_iff {o : Outcome α n} {e : SyntaxError} {rest : List Token} :
    o.Gives (.error e) rest ↔ ∃ le, o = .failure e rest le := by
  cases o with
  | success b r lt => simp [Gives, result]
  | failure x r le =>
    simp only [Gives, result, Outcome.rest, Except.error.injEq, failure.injEq, exists_prop]
    exact ⟨fun ⟨hx, hr⟩ => ⟨hr ▸ le, hx, hr⟩, fun h => h.2⟩

theorem gives_widen {m : Nat} (h : n ≤ m) {o : Outcome α n} {out : Except SyntaxError α}
    {rest : List Token} : (o.widen h).Gives out rest ↔ o.Gives out rest := by
  rw [Gives, Gives, result_widen, rest_widen]

end Outcome

/-- What the function for a goal returns. -/
def Goal.Gives (ts : List Token) (out : Except SyntaxError Expr) (rest : List Token) :
    Goal → Prop
  | whole .ternary => (ternary ts).Gives out rest
  | whole (.binary level) => (chain level ts).Gives out rest
  | whole .unary => (Parse.unary ts).Gives out rest
  | whole .primary => (primary ts).Gives out rest
  | more level left => (links level left ts).Gives out rest

theorem gives_operand {level : Level} {ts rest : List Token} {out : Except SyntaxError Expr}
    (h : Goal.Gives ts out rest (.whole (operandOf level))) :
    (operand level ts).Gives out rest := by
  cases level <;> rw [operand] <;> exact h

theorem expect_of_avoids {kind : Kind} (what : Expectation) {ts : List Token}
    (h : Avoids (·.kind = kind) ts) : (expect kind what ts).Gives (.error (blame what ts)) ts := by
  cases ts with
  | nil => exact ⟨rfl, rfl⟩
  | cons t ts =>
    have ht : t.kind ≠ kind := (avoids_cons _ _ _).mp h
    rw [expect, if_neg ht]
    exact ⟨rfl, rfl⟩

theorem expect_of_kind {kind : Kind} {what : Expectation} {t : Token} {ts : List Token}
    (h : t.kind = kind) : expect kind what (t :: ts) = .success () ts (tail_lt t ts) := by
  rw [expect, if_pos h]

theorem gives_of_reads {g : Goal} {ts rest : List Token} {out : Except SyntaxError Expr}
    (h : Reads g ts out rest) : g.Gives ts out rest := by
  induction h with
  | conditionFails _ ih =>
    obtain ⟨le, hc⟩ := Outcome.gives_error_iff.mp ih
    rw [Goal.Gives, ternary, hc]
    exact ⟨rfl, rfl⟩
  | @unconditional ts c rest _ hq ih =>
    obtain ⟨lt, hc⟩ := Outcome.gives_ok_iff.mp ih
    rw [Goal.Gives, ternary, hc]
    cases rest with
    | nil => exact ⟨rfl, rfl⟩
    | cons t rest =>
      have ht : t.kind ≠ .question := (avoids_cons _ _ _).mp hq
      simp only [Outcome.andThen, ht, if_false]
      exact ⟨rfl, rfl⟩
  | thenFails _ hq _ ihc iha =>
    obtain ⟨lt, hc⟩ := Outcome.gives_ok_iff.mp ihc
    obtain ⟨le, ha⟩ := Outcome.gives_error_iff.mp iha
    rw [Goal.Gives, ternary, hc]
    simp only [Outcome.andThen, hq, if_true, ha]
    exact ⟨rfl, rfl⟩
  | @colonMissing ts c t rest₀ a rest _ hq _ hk ihc iha =>
    obtain ⟨lt, hc⟩ := Outcome.gives_ok_iff.mp ihc
    obtain ⟨lt₁, ha⟩ := Outcome.gives_ok_iff.mp iha
    obtain ⟨le, hx⟩ := Outcome.gives_error_iff.mp (expect_of_avoids .ternaryColon hk)
    rw [Goal.Gives, ternary, hc]
    simp only [Outcome.andThen, hq, if_true, ha, hx]
    exact ⟨rfl, rfl⟩
  | elseFails _ hq _ hu _ ihc iha ihb =>
    obtain ⟨lt, hc⟩ := Outcome.gives_ok_iff.mp ihc
    obtain ⟨lt₁, ha⟩ := Outcome.gives_ok_iff.mp iha
    obtain ⟨le, hb⟩ := Outcome.gives_error_iff.mp ihb
    rw [Goal.Gives, ternary, hc]
    simp only [Outcome.andThen, hq, if_true, ha, expect_of_kind hu, hb]
    exact ⟨rfl, rfl⟩
  | conditional _ hq _ hu _ ihc iha ihb =>
    obtain ⟨lt, hc⟩ := Outcome.gives_ok_iff.mp ihc
    obtain ⟨lt₁, ha⟩ := Outcome.gives_ok_iff.mp iha
    obtain ⟨lt₂, hb⟩ := Outcome.gives_ok_iff.mp ihb
    rw [Goal.Gives, ternary, hc]
    simp only [Outcome.andThen, hq, if_true, ha, expect_of_kind hu, hb]
    exact ⟨rfl, rfl⟩
  | firstFails _ ih =>
    obtain ⟨le, ha⟩ := Outcome.gives_error_iff.mp (gives_operand ih)
    rw [Goal.Gives, chain, ha]
    exact ⟨rfl, rfl⟩
  | chain _ _ iha ih =>
    obtain ⟨lt, ha⟩ := Outcome.gives_ok_iff.mp (gives_operand iha)
    rw [Goal.Gives, chain, ha]
    exact (Outcome.gives_widen lt).mpr ih
  | @stop level a rest hs =>
    cases rest with
    | nil =>
      rw [Goal.Gives, links]
      exact ⟨rfl, rfl⟩
    | cons t rest =>
      have ht : t.kind ∉ level.operators :=
        mt (mem_operators_iff _ _).mp ((avoids_cons _ _ _).mp hs)
      rw [Goal.Gives, links, if_neg ht]
      exact ⟨rfl, rfl⟩
  | linkFails ht _ ih =>
    obtain ⟨le, hb⟩ := Outcome.gives_error_iff.mp (gives_operand ih)
    rw [Goal.Gives, links, if_pos ((mem_operators_iff _ _).mpr ht), hb]
    exact ⟨rfl, rfl⟩
  | link ht _ _ ihb ih =>
    obtain ⟨lt, hb⟩ := Outcome.gives_ok_iff.mp (gives_operand ihb)
    rw [Goal.Gives, links, if_pos ((mem_operators_iff _ _).mpr ht), hb]
    exact (Outcome.gives_widen (succ_le_succ_cons _ lt)).mpr ih
  | prefixedFails ht _ ih =>
    obtain ⟨le, he⟩ := Outcome.gives_error_iff.mp ih
    rw [Goal.Gives, Parse.unary, if_pos ((mem_unaryOperators_iff _).mpr ht), he]
    exact ⟨rfl, rfl⟩
  | prefixed ht _ ih =>
    obtain ⟨lt, he⟩ := Outcome.gives_ok_iff.mp ih
    rw [Goal.Gives, Parse.unary, if_pos ((mem_unaryOperators_iff _).mpr ht), he]
    exact ⟨rfl, rfl⟩
  | @unprefixed ts out rest hs _ ih =>
    cases ts with
    | nil =>
      rw [Goal.Gives, primary] at ih
      rw [Goal.Gives, Parse.unary]
      exact ih
    | cons t ts =>
      have ht : t.kind ∉ unaryOperators :=
        mt (mem_unaryOperators_iff _).mp ((avoids_cons _ _ _).mp hs)
      rw [Goal.Gives, Parse.unary, if_neg ht]
      exact ih
  | @nothingStarts ts hs =>
    cases ts with
    | nil =>
      rw [Goal.Gives, primary]
      exact ⟨rfl, rfl⟩
    | cons t ts =>
      rw [Goal.Gives, primary_of_not_starts ((avoids_cons _ _ _).mp hs)]
      exact ⟨rfl, rfl⟩
  | atom ha =>
    rw [Goal.Gives, primary_of_atom ha]
    exact ⟨rfl, rfl⟩
  | innerFails hk _ ih =>
    obtain ⟨le, he⟩ := Outcome.gives_error_iff.mp ih
    rw [Goal.Gives, primary]
    simp only [hk, he, Outcome.andThen]
    exact ⟨rfl, rfl⟩
  | @parenMissing t ts e rest hk _ hr ih =>
    obtain ⟨lt, he⟩ := Outcome.gives_ok_iff.mp ih
    obtain ⟨le, hx⟩ := Outcome.gives_error_iff.mp (expect_of_avoids .closingParen hr)
    rw [Goal.Gives, primary]
    simp only [hk, he, Outcome.andThen, hx]
    exact ⟨rfl, rfl⟩
  | group hk _ hu ih =>
    obtain ⟨lt, he⟩ := Outcome.gives_ok_iff.mp ih
    rw [Goal.Gives, primary]
    simp only [hk, he, Outcome.andThen, expect_of_kind hu]
    exact ⟨rfl, rfl⟩

/-- Readings and runs of the parser are the same. -/
theorem reads_iff_gives {g : Goal} {ts rest : List Token} {out : Except SyntaxError Expr} :
    Reads g ts out rest ↔ g.Gives ts out rest := by
  refine ⟨gives_of_reads, ?_⟩
  cases g with
  | more level left =>
    rintro ⟨rfl, rfl⟩
    exact reads_links level left ts
  | whole s =>
    cases s with
    | ternary =>
      rintro ⟨rfl, rfl⟩
      exact reads_ternary ts
    | binary level =>
      rintro ⟨rfl, rfl⟩
      exact reads_chain level ts
    | unary =>
      rintro ⟨rfl, rfl⟩
      exact reads_unary ts
    | primary =>
      rintro ⟨rfl, rfl⟩
      exact reads_primary ts

end Reckon.Parse
