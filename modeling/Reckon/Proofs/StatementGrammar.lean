import Mathlib.Data.List.Forall2
import Reckon.Proofs.Recovery

/-!
# The parser accepts exactly sequences of statements

The grammar that programs are written in, stated without the parser: a statement is an
expression and a semicolon, with `print` in front or not, and a program is any number of
statements up to the first `eof`. A round of the parser without an error consumes one
derivable statement, and conversely the tokens of a derivable statement are read as that
statement whatever follows them. So a program without errors is a sequence of statements,
and none of them is lost or joined with another.
-/
namespace Reckon
open Grammar

namespace Grammar

/-- `DerivesStatement p s`: the tokens `p` form the statement `s`. -/
inductive DerivesStatement : List Token → Statement → Prop
  | print {p e} {word semicolon : Token} :
      word.kind = .printWord → Derives .ternary p e → semicolon.kind = .semicolon →
      DerivesStatement (word :: (p ++ [semicolon])) (.print e)
  | expression {p e} {semicolon : Token} :
      Derives .ternary p e → semicolon.kind = .semicolon →
      DerivesStatement (p ++ [semicolon]) (.expression e)

theorem DerivesStatement.exists_expr {p : List Token} {s : Statement} (h : DerivesStatement p s) :
    ∃ q, q ⊆ p ∧ Derives .ternary q s.expr := by
  cases h with
  | @print q _ _ _ _ hq _ => exact ⟨q, fun t ht => by simp [ht], hq⟩
  | @expression q _ _ hq _ => exact ⟨q, fun t ht => by simp [ht], hq⟩

theorem DerivesStatement.kind_ne_eof {p : List Token} {s : Statement}
    (h : DerivesStatement p s) : ∀ t ∈ p, t.kind ≠ .eof := by
  have hterminals : Kind.eof ∉ terminals := by decide
  have hexpr : ∀ {q e}, Derives .ternary q e → ∀ t ∈ q, t.kind ≠ .eof := by
    intro q e hq t ht hk
    exact hterminals (hk ▸ hq.kind_mem t ht)
  cases h with
  | print hw hq hu => simpa [or_imp, forall_and, hw, hu] using hexpr hq
  | expression hq hu => simpa [or_imp, forall_and, hu] using hexpr hq

end Grammar

namespace Parse

/-- The tokens before the first `eof`, or all of them if there is none. -/
def beforeEof (ts : List Token) : List Token := ts.takeWhile (·.kind != .eof)

theorem beforeEof_of_atEnd {ts : List Token} (h : atEnd ts = true) : beforeEof ts = [] := by
  cases ts with
  | nil => rfl
  | cons t ts =>
    have ht : t.kind = .eof := by simpa [atEnd] using h
    simp [beforeEof, ht]

theorem beforeEof_append {p : List Token} (hp : ∀ t ∈ p, t.kind ≠ .eof) (ts : List Token) :
    beforeEof (p ++ ts) = p ++ beforeEof ts :=
  List.takeWhile_append_of_pos (by simpa using hp)

theorem beforeEof_subset (ts : List Token) : beforeEof ts ⊆ ts :=
  (List.takeWhile_sublist _).subset

/-- What follows the tokens of a program ends it. -/
theorem exists_atEnd (ts : List Token) : ∃ rest, ts = beforeEof ts ++ rest ∧ atEnd rest = true := by
  refine ⟨ts.dropWhile (·.kind != .eof), List.takeWhile_append_dropWhile.symm, ?_⟩
  induction ts with
  | nil => rfl
  | cons t ts ih =>
    by_cases ht : t.kind = .eof
    · simp [ht, atEnd]
    · simpa [ht] using ih

theorem ReadsStatement.derives {ts rest : List Token} {s : Statement}
    (h : ReadsStatement ts (.ok s) rest) : ∃ p, ts = p ++ rest ∧ DerivesStatement p s := by
  cases h with
  | complete ho he hu =>
    obtain ⟨q, hq, hderives⟩ := he.covers
    cases ho with
    | print ht => exact ⟨_, by simp [hq], .print ht hderives hu⟩
    | bare _ => exact ⟨_, by simp [hq], .expression hderives hu⟩

/-- The tokens of a statement are read as that statement, whatever follows them. -/
theorem readsStatement_of_derives {p : List Token} {s : Statement} (h : DerivesStatement p s)
    (rest : List Token) : ReadsStatement (p ++ rest) (.ok s) rest := by
  cases h with
  | print ht hq hu =>
    have hr := reads_of_derives hq (.inr hu) rest
    simpa using ReadsStatement.complete (.print ht) hr hu
  | @expression q e u hq hu =>
    have hr := reads_of_derives hq (.inr hu) rest
    have hfirst : Avoids (·.kind = .printWord) (q ++ u :: rest) :=
      avoids_of_derives hq (by decide) _
    simpa using ReadsStatement.complete (.bare hfirst) hr hu

theorem exists_derives_of_rounds (ts : List Token) (h : errorsOf (rounds ts) = []) :
    ∃ ps, beforeEof ts = ps.flatten ∧
      List.Forall₂ DerivesStatement ps (statementsOf (rounds ts)) := by
  cases hts : atEnd ts with
  | true =>
    rw [rounds_of_atEnd hts]
    exact ⟨[], beforeEof_of_atEnd hts, .nil⟩
  | false =>
    rcases readsStatement_total ts with ⟨s, rest, hr, hlt⟩ | ⟨x, left, hr, -⟩
    · rw [rounds_of_ok hr, errorsOf_ok] at h
      obtain ⟨ps, hps, hall⟩ := exists_derives_of_rounds rest h
      obtain ⟨p, rfl, hp⟩ := hr.derives
      refine ⟨p :: ps, ?_, ?_⟩
      · rw [beforeEof_append hp.kind_ne_eof, hps, List.flatten_cons]
      · rw [rounds_of_ok hr]
        exact .cons hp hall
    · rw [rounds_of_error hr hts] at h
      cases h
termination_by ts.length

theorem rounds_of_derives {ps : List (List Token)} {ss : List Statement}
    (h : List.Forall₂ DerivesStatement ps ss) {rest : List Token} (hrest : atEnd rest = true) :
    rounds (ps.flatten ++ rest) = ss.map .ok := by
  induction h with
  | nil => exact rounds_of_atEnd hrest
  | cons hp _ ih =>
    rw [List.flatten_cons, List.append_assoc, rounds_of_ok (readsStatement_of_derives hp _), ih]
    rfl

/-- A token sequence is a program exactly when its tokens before the first `eof` are
statements of the grammar, one after the other, and its statements are theirs. -/
theorem program_ok_iff_derives (ts : List Token) (ss : List Statement) :
    program ts = .ok ss ↔
      ∃ ps, beforeEof ts = ps.flatten ∧ List.Forall₂ DerivesStatement ps ss := by
  rw [program_eq_ok_iff]
  constructor
  · rintro ⟨herrors, rfl⟩
    exact exists_derives_of_rounds ts herrors
  · rintro ⟨ps, hps, hall⟩
    obtain ⟨rest, hts, hrest⟩ := exists_atEnd ts
    rw [hts, hps, rounds_of_derives hall hrest]
    exact ⟨errorsOf_map_ok ss, statementsOf_map_ok ss⟩

end Parse

end Reckon
