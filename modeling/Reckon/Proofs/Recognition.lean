import Mathlib.Data.Set.Subsingleton
import Reckon.Proofs.Reading

/-!
# The parser accepts exactly its grammar

A successful reading consumes a derivable stretch of tokens and returns its tree.
Conversely the tokens of a derivation are read back as its tree whenever the next
token cannot extend the symbol read; one token of lookahead therefore never picks
the wrong continuation, and no tokens have two trees.
-/
namespace Reckon.Parse
open Grammar

/-- What the tokens read for a goal amount to. The loop turns a derivation of its
left side into one of the whole chain. -/
def Goal.Covers : Goal → List Token → Expr → Prop
  | whole s, p, e => Derives s p e
  | more level a, p, e => ∀ q, Derives (.binary level) q a → Derives (.binary level) (q ++ p) e

theorem Reads.covers {g : Goal} {ts rest : List Token} {e : Expr}
    (h : Reads g ts (.ok e) rest) : ∃ p, ts = p ++ rest ∧ g.Covers p e := by
  generalize hout : Except.ok e = out at h
  induction h generalizing e with
  | conditionFails | thenFails | colonMissing | elseFails | firstFails | linkFails
  | prefixedFails | nothingStarts | innerFails | parenMissing => cases hout
  | unconditional _ _ ih =>
    obtain ⟨p, rfl, hp⟩ := ih hout
    exact ⟨p, rfl, .unconditional hp⟩
  | conditional _ hq _ hu _ ihc iha ihb =>
    cases hout
    obtain ⟨p, rfl, hp⟩ := ihc rfl
    obtain ⟨q, rfl, hq'⟩ := iha rfl
    obtain ⟨r, rfl, hr⟩ := ihb rfl
    exact ⟨_, by simp, .conditional hp hq hq' hu hr⟩
  | chain _ _ iha ih =>
    obtain ⟨p, rfl, hp⟩ := iha rfl
    obtain ⟨q, rfl, hq⟩ := ih hout
    exact ⟨p ++ q, by simp, hq p (.single hp)⟩
  | stop _ =>
    cases hout
    exact ⟨[], rfl, fun q hq => by simpa using hq⟩
  | @link level a t ts b rest₀ out rest ht _ _ ihb ih =>
    obtain ⟨p, rfl, hp⟩ := ihb rfl
    obtain ⟨r, rfl, hr⟩ := ih hout
    refine ⟨t :: (p ++ r), by simp, fun q hq => ?_⟩
    simpa using hr _ (.joined hq ht hp)
  | prefixed ht _ ih =>
    cases hout
    obtain ⟨p, rfl, hp⟩ := ih rfl
    exact ⟨_, by simp, .prefixed ht hp⟩
  | unprefixed _ _ ih =>
    obtain ⟨p, rfl, hp⟩ := ih hout
    exact ⟨p, rfl, .unprefixed hp⟩
  | atom ha =>
    cases hout
    exact ⟨[_], rfl, .atom ha⟩
  | group hk _ hu ih =>
    cases hout
    obtain ⟨p, rfl, hp⟩ := ih rfl
    exact ⟨_, by simp, .group hk hp hu⟩

/-- The levels whose operators may follow an operand of a level. -/
def levelsFrom : Level → List Level
  | .equality => [.equality, .comparison, .term, .factor]
  | .comparison => [.comparison, .term, .factor]
  | .term => [.term, .factor]
  | .factor => [.factor]

/-- Kinds of tokens that would extend a symbol beyond its end. -/
def extenders : Symbol → List Kind
  | .ternary => .question :: (levelsFrom .equality).flatMap joiners
  | .binary level => (levelsFrom level).flatMap joiners
  | .unary | .primary => []

theorem mem_extenders_binary (level : Level) (kind : Kind) :
    kind ∈ extenders (.binary level) ↔
      kind ∈ joiners level ∨ kind ∈ extenders (operandOf level) := by
  cases level <;> simp [extenders, levelsFrom, operandOf]

theorem not_mem_extenders_operandOf {level : Level} {kind : Kind} (h : kind ∈ joiners level) :
    kind ∉ extenders (operandOf level) := by
  revert kind
  cases level <;> decide

/-- The next token does not extend a symbol. -/
abbrev Ends (s : Symbol) : List Token → Prop := Avoids (·.kind ∈ extenders s)

theorem Ends.ternary {ts : List Token} (h : Ends .ternary ts) :
    Ends (.binary .equality) ts ∧ Avoids (·.kind = .question) ts := by
  cases ts with
  | nil => simp [Ends]
  | cons t ts =>
    simp only [Ends, avoids_cons, extenders, List.mem_cons, not_or] at h ⊢
    exact h.symm

theorem Ends.binary {level : Level} {ts : List Token} (h : Ends (.binary level) ts) :
    Ends (operandOf level) ts ∧ Avoids (·.kind ∈ joiners level) ts := by
  cases ts with
  | nil => simp [Ends]
  | cons t ts =>
    simp only [Ends, avoids_cons, mem_extenders_binary, not_or] at h ⊢
    exact h.symm

/-- How the tokens of a derivation are read. At a level of binary operators the loop
may go on after them, with their tree as its left side. -/
def Rereads : Symbol → List Token → Expr → Prop
  | .binary level, p, e => ∀ ts out rest, Ends (operandOf level) ts →
      Reads (.more level e) ts out rest → Reads (.whole (.binary level)) (p ++ ts) out rest
  | s, p, e => ∀ ts, Ends s ts → Reads (.whole s) (p ++ ts) (.ok e) ts

theorem Rereads.reads {s : Symbol} {p : List Token} {e : Expr} (h : Rereads s p e)
    (ts : List Token) (hs : Ends s ts) : Reads (.whole s) (p ++ ts) (.ok e) ts := by
  cases s with
  | ternary => exact h ts hs
  | binary level => exact h ts _ ts hs.binary.1 (.stop hs.binary.2)
  | unary => exact h ts hs
  | primary => exact h ts hs

theorem Reads.not_prefixed {ts rest : List Token} {e : Expr}
    (h : Reads (.whole .primary) ts (.ok e) rest) :
    Avoids (fun t => t.kind = .bang ∨ t.kind = .minus) ts := by
  cases h with
  | atom ha => rcases ha with hk | hk | hk | ⟨hk | hk, _⟩ <;> simp [hk]
  | group hk => simp [hk]

theorem rereads_of_derives {s : Symbol} {p : List Token} {e : Expr} (h : Derives s p e) :
    Rereads s p e := by
  induction h with
  | unconditional _ ih =>
    intro ts hs
    exact .unconditional (ih.reads ts hs.ternary.1) hs.ternary.2
  | @conditional p q r c a b question colon _ hq _ hk _ ihc iha ihb =>
    intro ts hs
    have hc := ihc.reads (question :: (q ++ colon :: (r ++ ts))) (by simp [Ends, hq]; decide)
    have ha := iha.reads (colon :: (r ++ ts)) (by simp [Ends, hk]; decide)
    simpa using Reads.conditional hc hq ha hk (ihb.reads ts hs)
  | single _ ih =>
    intro ts out rest hs hm
    exact .chain (ih.reads ts hs) hm
  | @joined level p q a b o _ ho _ iha ihb =>
    intro ts out rest hs hm
    have hl : Reads (.more level a) (o :: (q ++ ts)) out rest := .link ho (ihb.reads ts hs) hm
    have ho' : Ends (operandOf level) (o :: (q ++ ts)) :=
      (avoids_cons _ _ _).mpr (not_mem_extenders_operandOf ho)
    simpa using iha _ out rest ho' hl
  | prefixed ho _ ih =>
    intro ts hs
    exact .prefixed ho (ih.reads ts hs)
  | unprefixed _ ih =>
    intro ts hs
    have hp := ih.reads ts hs
    exact .unprefixed hp.not_prefixed hp
  | atom ha =>
    intro ts _
    exact .atom ha
  | @group p e l r hl _ hr ih =>
    intro ts _
    have he := ih.reads (r :: ts) (by simp [Ends, hr]; decide)
    simpa using Reads.group hl he hr

/-- What closes an expression leaves its tokens to be read as they were derived. -/
theorem reads_of_derives {p : List Token} {e : Expr} (h : Derives .ternary p e) {t : Token}
    (ht : t.kind = .eof ∨ t.kind = .semicolon) (rest : List Token) :
    Reads (.whole .ternary) (p ++ t :: rest) (.ok e) (t :: rest) := by
  refine (rereads_of_derives h).reads (t :: rest) ((avoids_cons _ _ _).mpr ?_)
  rcases ht with ht | ht <;> rw [ht] <;> decide

theorem Reads.unique {g : Goal} {ts r₁ r₂ : List Token} {o₁ o₂ : Except SyntaxError Expr}
    (h₁ : Reads g ts o₁ r₁) (h₂ : Reads g ts o₂ r₂) : o₁ = o₂ ∧ r₁ = r₂ := by
  have h₁ := reads_iff_gives.mp h₁
  have h₂ := reads_iff_gives.mp h₂
  cases g with
  | more level left => exact ⟨h₁.1.symm.trans h₂.1, h₁.2.symm.trans h₂.2⟩
  | whole s => cases s <;> exact ⟨h₁.1.symm.trans h₂.1, h₁.2.symm.trans h₂.2⟩

theorem expression_eq_ok_iff {ts : List Token} {e : Expr} :
    expression ts = .ok e ↔
      ∃ t rest, Reads (.whole .ternary) ts (.ok e) (t :: rest) ∧ t.kind = .eof := by
  constructor
  · intro h
    have hr := reads_ternary ts
    unfold expression at h
    split at h
    · cases h
    · cases h
    · next a t rest lt ho =>
      split at h
      · next ht =>
        cases h
        rw [ho] at hr
        exact ⟨t, rest, hr, ht⟩
      · cases h
  · rintro ⟨t, rest, hr, ht⟩
    obtain ⟨lt, ho⟩ := Outcome.gives_ok_iff.mp (reads_iff_gives.mp hr)
    simp only [expression, ho, ht, if_true]

theorem expression_eq_error_iff {ts : List Token} {x : SyntaxError} :
    expression ts = .error x ↔
      (∃ left, Reads (.whole .ternary) ts (.error x) left) ∨
      ∃ e left, Reads (.whole .ternary) ts (.ok e) left ∧ Avoids (·.kind = .eof) left ∧
        x = blame .endOfExpression left := by
  constructor
  · intro h
    have hr := reads_ternary ts
    unfold expression at h
    split at h
    · next y left le ho =>
      cases h
      rw [ho] at hr
      exact .inl ⟨left, hr⟩
    · next e lt ho =>
      cases h
      rw [ho] at hr
      exact .inr ⟨e, [], hr, avoids_nil _, rfl⟩
    · next e t left lt ho =>
      split at h
      · cases h
      · next ht =>
        cases h
        rw [ho] at hr
        exact .inr ⟨e, t :: left, hr, (avoids_cons _ _ _).mpr ht, rfl⟩
  · rintro (⟨left, hr⟩ | ⟨e, left, hr, hs, rfl⟩)
    · obtain ⟨le, ho⟩ := Outcome.gives_error_iff.mp (reads_iff_gives.mp hr)
      simp only [expression, ho]
    · obtain ⟨lt, ho⟩ := Outcome.gives_ok_iff.mp (reads_iff_gives.mp hr)
      cases left with
      | nil => simp only [expression, ho, blame]
      | cons t left =>
        have ht : t.kind ≠ .eof := (avoids_cons _ _ _).mp hs
        simp only [expression, ho, ht, if_false, blame]

theorem derives_unique {s : Symbol} {p : List Token} {a b : Expr} (ha : Derives s p a)
    (hb : Derives s p b) : a = b := by
  have ha := (rereads_of_derives ha).reads [] (avoids_nil _)
  have hb := (rereads_of_derives hb).reads [] (avoids_nil _)
  exact Except.ok.inj (ha.unique hb).1

/-- A token sequence is an expression exactly when a derivable stretch followed by an
`eof` token stands at its front, and the tree is that of the derivation. No stretch
of tokens has two trees, whichever symbol it is derived from. -/
theorem expression_ok_iff_derives :
    (∀ (ts : List Token) (e : Expr), expression ts = .ok e ↔
      ∃ p t rest, ts = p ++ [t] ++ rest ∧ t.kind = .eof ∧ Derives .ternary p e) ∧
    ∀ (s : Symbol) (p : List Token), {e | Derives s p e}.Subsingleton := by
  refine ⟨fun ts e => ?_, fun s p a ha b hb => derives_unique ha hb⟩
  rw [expression_eq_ok_iff]
  constructor
  · rintro ⟨t, rest, h, ht⟩
    obtain ⟨p, rfl, hp⟩ := h.covers
    exact ⟨p, t, rest, by simp, ht, hp⟩
  · rintro ⟨p, t, rest, rfl, ht, hp⟩
    exact ⟨t, rest, by simpa using reads_of_derives hp (.inl ht) rest, ht⟩

end Reckon.Parse
