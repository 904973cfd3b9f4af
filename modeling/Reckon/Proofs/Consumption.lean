import Reckon.Proofs.ErrorPosition

/-!
# Which tokens a reading consumes

A reading of an expression consumes only tokens that expressions are made of, also
when it fails: what it has consumed by then can be completed to an expression, so it
is part of a derivation. A statement may have `print` in front, and a complete one
ends with its semicolon. In particular nothing is read across a semicolon, a word
that begins a statement, or the closing token.
-/
namespace Reckon
open Grammar

namespace Grammar

/-- Kinds of tokens that expressions are made of. -/
def terminals : List Kind :=
  [.question, .colon, .bangEqual, .equalEqual, .greater, .greaterEqual, .less, .lessEqual, .plus,
    .minus, .star, .slash, .bang, .falseWord, .trueWord, .nilWord, .number, .string, .leftParen,
    .rightParen]

theorem joiners_subset_terminals (level : Parse.Level) : joiners level ⊆ terminals := by
  cases level <;> decide

theorem Atom.kind_mem {t : Token} {v : Value} (h : Atom t v) : t.kind ∈ terminals := by
  rcases h with h | h | h | ⟨h | h, _⟩ <;> rw [h] <;> decide

theorem Derives.kind_mem {s : Symbol} {p : List Token} {e : Expr} (h : Derives s p e) :
    ∀ t ∈ p, t.kind ∈ terminals := by
  induction h with
  | unconditional _ ih | single _ ih | unprefixed _ ih => exact ih
  | @conditional p q r c a b question colon _ hq _ hk _ ihp ihq ihr =>
    have hquestion : question.kind ∈ terminals := by rw [hq]; decide
    have hcolon : colon.kind ∈ terminals := by rw [hk]; decide
    simp only [List.forall_mem_append, List.forall_mem_cons]
    exact ⟨ihp, hquestion, ihq, hcolon, ihr⟩
  | joined _ ho _ ihp ihq =>
    simp only [List.forall_mem_append, List.forall_mem_cons]
    exact ⟨ihp, joiners_subset_terminals _ ho, ihq⟩
  | @prefixed p e o ho _ ih =>
    have hop : o.kind ∈ terminals := by rcases ho with ho | ho <;> rw [ho] <;> decide
    exact List.forall_mem_cons.mpr ⟨hop, ih⟩
  | atom ha => exact List.forall_mem_singleton.mpr ha.kind_mem
  | @group p e l r hl _ hr ih =>
    have hleft : l.kind ∈ terminals := by rw [hl]; decide
    have hright : r.kind ∈ terminals := by rw [hr]; decide
    simp only [List.forall_mem_cons, List.forall_mem_append]
    exact ⟨hleft, ih, hright, List.forall_mem_nil _⟩

end Grammar

namespace Parse

theorem Reads.consumed {s : Symbol} {ts left : List Token} {out : Except SyntaxError Expr}
    (h : Reads (.whole s) ts out left) :
    ∃ p, ts = p ++ left ∧ ∀ t ∈ p, t.kind ∈ terminals := by
  cases out with
  | ok e =>
    obtain ⟨p, rfl, hp⟩ := h.covers
    exact ⟨p, rfl, Derives.kind_mem hp⟩
  | error x =>
    obtain ⟨p, rfl, c, e, hp⟩ := h.completable
    exact ⟨p, rfl, fun t ht => hp.kind_mem t (List.mem_append_left c ht)⟩

/-- Tokens that can stand before the semicolon of a statement: those of an expression,
with `print` in front of them or not. -/
structure IsBody (p : List Token) : Prop where
  head : ∀ t ∈ p.head?, t.kind = .printWord ∨ t.kind ∈ terminals
  tail : ∀ t ∈ p.tail, t.kind ∈ terminals

namespace IsBody
variable {p : List Token}

theorem of_terminals (h : ∀ t ∈ p, t.kind ∈ terminals) : IsBody p where
  head t ht := .inr (h t (List.mem_of_mem_head? ht))
  tail t ht := h t (List.mem_of_mem_tail ht)

theorem kind_ne (h : IsBody p) {kind : Kind} (hk : kind ∉ .printWord :: terminals) :
    ∀ t ∈ p, t.kind ≠ kind := by
  have hmem : ∀ t ∈ p, t.kind ∈ .printWord :: terminals := by
    cases p with
    | nil => exact List.forall_mem_nil _
    | cons t p =>
      refine List.forall_mem_cons.mpr ⟨List.mem_cons.mpr (h.head t rfl), fun u hu => ?_⟩
      exact List.mem_cons_of_mem _ (h.tail u hu)
  rintro t ht rfl
  exact hk (hmem t ht)

end IsBody

theorem Opens.isBody {ts us q left : List Token} {wrap : Expr → Statement} {what : Expectation}
    (h : Opens ts wrap what us) (hus : us = q ++ left) (hq : ∀ t ∈ q, t.kind ∈ terminals) :
    ∃ p, ts = p ++ left ∧ IsBody p := by
  cases h with
  | @print t _ ht =>
    refine ⟨t :: q, by rw [hus]; rfl, ?_, hq⟩
    rintro u ⟨⟩
    exact .inl ht
  | bare _ => exact ⟨q, hus, .of_terminals hq⟩

/-- What a broken statement consumes before it breaks. It breaks in the same way whatever
follows the token at which it broke. -/
theorem ReadsStatement.consumed_of_error {ts left : List Token} {x : SyntaxError}
    (h : ReadsStatement ts (.error x) left) :
    ∃ p, ts = p ++ left ∧ IsBody p ∧
      ∀ left', left'.head? = left.head? → ReadsStatement (p ++ left') (.error x) left' := by
  have hbody : ∃ p, ts = p ++ left ∧ IsBody p := by
    cases h with
    | valueFails ho hx =>
      obtain ⟨q, hus, hq⟩ := hx.consumed
      exact ho.isBody hus hq
    | semicolonMissing ho he _ =>
      obtain ⟨q, hus, hq⟩ := he.consumed
      exact ho.isBody hus hq
  obtain ⟨p, hp, hlook⟩ := h.lookahead
  obtain ⟨q, hq, hbody⟩ := hbody
  obtain rfl : p = q := List.append_cancel_right (hp.symm.trans hq)
  exact ⟨p, hp, hbody, hlook⟩

/-- What a complete statement consumes. It is the same statement whatever follows it. -/
theorem ReadsStatement.consumed_of_ok {ts rest : List Token} {s : Statement}
    (h : ReadsStatement ts (.ok s) rest) :
    ∃ p u, ts = p ++ u :: rest ∧ IsBody p ∧ u.kind = .semicolon ∧
      ∀ rest', ReadsStatement (p ++ u :: rest') (.ok s) rest' := by
  have hbody : ∃ p u, ts = p ++ u :: rest ∧ IsBody p ∧ u.kind = .semicolon := by
    cases h with
    | @complete _ _ _ _ u _ ho he hu =>
      obtain ⟨q, hus, hq⟩ := he.consumed
      obtain ⟨p, hts, hp⟩ := ho.isBody hus hq
      exact ⟨p, u, hts, hp, hu⟩
  obtain ⟨q, hq, hdetached⟩ := h.detached
  obtain ⟨p, u, hp, hbody, hu⟩ := hbody
  obtain rfl : q = p ++ [u] := List.append_cancel_right (by rw [← hq, hp]; simp)
  refine ⟨p, u, hp, hbody, hu, fun rest' => ?_⟩
  simpa using hdetached rest'

/-- A token that has not been consumed stands in what is left. -/
theorem left_of_not_mem {p left q rest : List Token} {u : Token} (h : q ++ u :: rest = p ++ left)
    (hu : u ∉ p) : ∃ r, q = p ++ r ∧ left = r ++ u :: rest := by
  rcases List.append_eq_append_iff.mp h with ⟨a, rfl, ha⟩ | ⟨r, rfl, hr⟩
  · cases a with
    | nil => exact ⟨[], by simp, by simpa using ha.symm⟩
    | cons v a =>
      obtain ⟨rfl, -⟩ := List.cons.inj ha
      exact absurd (by simp) hu
  · exact ⟨r, rfl, hr⟩

/-- All tokens of an expression but the closing one are derived as its tree. -/
theorem derives_of_expression {ts : List Token} {line : Nat} {e : Expr}
    (hts : ∀ t ∈ ts, t.kind ≠ .eof) (h : expression (ts ++ [.eof line]) = .ok e) :
    Derives .ternary ts e := by
  obtain ⟨z, rest, hr, hz⟩ := expression_eq_ok_iff.mp h
  obtain ⟨p, hsplit, hp⟩ := hr.covers
  have heof : Token.eof line ∉ p := by
    intro hmem
    have hkind : Kind.eof ∈ terminals := Derives.kind_mem hp _ hmem
    revert hkind
    decide
  obtain ⟨r, rfl, hleft⟩ := left_of_not_mem hsplit heof
  cases r with
  | nil => rwa [List.append_nil]
  | cons t r =>
    obtain ⟨rfl, -⟩ := List.cons.inj hleft
    exact absurd hz (hts z (by simp))

end Parse

end Reckon
