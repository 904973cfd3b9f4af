import Mathlib.Data.List.Iterate
import Reckon.Proofs.BlamedTokens
import Reckon.Proofs.StatementGrammar

/-!
# Progress of recovery

A program is read in rounds: a statement, and recovery if the statement is broken. A broken
statement may have consumed nothing, and recovery may drop nothing, but never both: every
round takes at least one token off the front, and no `eof`. So there are no more rounds than
tokens before the first `eof`, and each error stands behind the one before it.
-/
namespace Reckon.Parse
open Grammar

/-- The tokens left by one round: those behind a statement, or those at which recovery from
a broken one stops. -/
def afterRound (ts : List Token) : List Token :=
  match statement ts with
  | .success _ rest _ => rest
  | .failure _ left _ => synchronize left

theorem afterRound_of_ok {ts rest : List Token} {s : Statement}
    (h : ReadsStatement ts (.ok s) rest) : afterRound ts = rest := by
  obtain ⟨lt, hs⟩ := Outcome.gives_ok_iff.mp (statement_gives_iff.mpr h)
  simp only [afterRound, hs]

theorem afterRound_of_error {ts left : List Token} {x : SyntaxError}
    (h : ReadsStatement ts (.error x) left) : afterRound ts = synchronize left := by
  obtain ⟨le, hs⟩ := Outcome.gives_error_iff.mp (statement_gives_iff.mpr h)
  simp only [afterRound, hs]

theorem rounds_of_not_atEnd {ts : List Token} (h : atEnd ts = false) :
    rounds ts = (statement ts).result :: rounds (afterRound ts) := by
  rcases readsStatement_total ts with ⟨s, rest, hr, -⟩ | ⟨x, left, hr, -⟩
  · rw [rounds_of_ok hr, afterRound_of_ok hr, (statement_gives_iff.mpr hr).1]
  · rw [rounds_of_error hr h, afterRound_of_error hr, (statement_gives_iff.mpr hr).1]

/-- Recovery drops a stretch without an `eof`, which is empty only before the closing token. -/
theorem exists_dropped (left : List Token) :
    ∃ q, left = q ++ synchronize left ∧ (∀ t ∈ q, t.kind ≠ .eof) ∧
      (atEnd left = false → q ≠ []) := by
  cases hend : atEnd left with
  | true => exact ⟨[], by rw [synchronize_of_atEnd hend]; rfl, List.forall_mem_nil _, nofun⟩
  | false =>
    obtain ⟨q, hq, hleast⟩ := exists_dropped_to_boundary hend
    exact ⟨q, hq, not_eof_of_isLeast hq hend hleast, fun _ => List.length_pos_iff.mp hleast.1.1⟩

/-- A round takes at least one token off the front, and no `eof`. -/
theorem exists_consumed {ts : List Token} (h : atEnd ts = false) :
    ∃ q, q ≠ [] ∧ ts = q ++ afterRound ts ∧ ∀ t ∈ q, t.kind ≠ .eof := by
  rcases readsStatement_total ts with ⟨s, rest, hr, -⟩ | ⟨x, left, hr, -⟩
  · obtain ⟨p, u, hsplit, hp, hu, -⟩ := hr.consumed_of_ok
    refine ⟨p ++ [u], by simp, by rw [afterRound_of_ok hr, hsplit]; simp, ?_⟩
    simpa [or_imp, forall_and, hu] using hp.kind_ne (by decide)
  · obtain ⟨p, hsplit, hp, -⟩ := hr.consumed_of_error
    obtain ⟨q, hq, hopen, hsome⟩ := exists_dropped left
    have hp : ∀ t ∈ p, t.kind ≠ .eof := hp.kind_ne (by decide)
    refine ⟨p ++ q, ?_, ?_, List.forall_mem_append.mpr ⟨hp, hopen⟩⟩
    · -- A statement that breaks at its first token breaks before the closing one.
      by_cases hnil : p = []
      · rw [hnil, List.nil_append] at hsplit
        rw [hsplit] at h
        exact List.append_ne_nil_of_right_ne_nil p (hsome h)
      · exact List.append_ne_nil_of_left_ne_nil hnil q
    · rw [afterRound_of_error hr, List.append_assoc, ← hq, hsplit]

theorem length_afterRound_lt {ts : List Token} (h : atEnd ts = false) :
    (afterRound ts).length < ts.length := by
  obtain ⟨q, hq, hsplit, -⟩ := exists_consumed h
  have hlength := congrArg List.length hsplit
  have hpos := List.length_pos_iff.mpr hq
  rw [List.length_append] at hlength
  omega

/-- The tokens in front of which the rounds of a program begin. -/
def starts (ts : List Token) : List (List Token) := List.iterate afterRound ts (rounds ts).length

theorem starts_of_atEnd {ts : List Token} (h : atEnd ts = true) : starts ts = [] := by
  rw [starts, rounds_of_atEnd h]
  rfl

theorem starts_of_not_atEnd {ts : List Token} (h : atEnd ts = false) :
    starts ts = ts :: starts (afterRound ts) := by
  rw [starts, rounds_of_not_atEnd h]
  rfl

/-- What one round adds to what holds of all later ones holds of every program. -/
theorem rounds_induction {motive : List Token → Prop}
    (ended : ∀ ts, atEnd ts = true → motive ts)
    (round : ∀ ts, atEnd ts = false → motive (afterRound ts) → motive ts) (ts : List Token) :
    motive ts := by
  cases h : atEnd ts with
  | true => exact ended ts h
  | false =>
    have hlt := length_afterRound_lt h
    exact round ts h (rounds_induction ended round (afterRound ts))
termination_by ts.length

theorem rounds_eq_map_starts (ts : List Token) :
    rounds ts = (starts ts).map fun us => (statement us).result := by
  induction ts using rounds_induction with
  | ended ts h => rw [rounds_of_atEnd h, starts_of_atEnd h, List.map_nil]
  | round ts h ih => rw [rounds_of_not_atEnd h, starts_of_not_atEnd h, List.map_cons, ih]

theorem not_atEnd_of_mem_starts {ts us : List Token} (h : us ∈ starts ts) : atEnd us = false := by
  induction ts using rounds_induction with
  | ended ts hend =>
    rw [starts_of_atEnd hend] at h
    cases h
  | round ts hend ih =>
    rw [starts_of_not_atEnd hend] at h
    rcases List.mem_cons.mp h with rfl | h
    · exact hend
    · exact ih h

/-- The rounds go on until nothing is left before the closing token. -/
theorem atEnd_iterate (ts : List Token) : atEnd (afterRound^[(rounds ts).length] ts) = true := by
  induction ts using rounds_induction with
  | ended ts h =>
    rw [rounds_of_atEnd h]
    exact h
  | round ts h ih =>
    rw [rounds_of_not_atEnd h]
    exact ih

theorem length_rounds_le (ts : List Token) : (rounds ts).length ≤ (beforeEof ts).length := by
  induction ts using rounds_induction with
  | ended ts h =>
    rw [rounds_of_atEnd h]
    exact Nat.zero_le _
  | round ts h ih =>
    obtain ⟨q, hq, hsplit, hopen⟩ := exists_consumed h
    have hpos := List.length_pos_iff.mpr hq
    have hbefore : (beforeEof ts).length = q.length + (beforeEof (afterRound ts)).length := by
      conv_lhs => rw [hsplit, beforeEof_append hopen, List.length_append]
    rw [rounds_of_not_atEnd h, List.length_cons, hbefore]
    omega

/-- An error stands at a token of a sequence or, if it has none, behind all of them. -/
def StandsAt (ts : List Token) (x : SyntaxError) (i : Nat) : Prop :=
  i ≤ ts.length ∧ x.token? = ts[i]?

theorem standsAt_blame (p left : List Token) (what : Expectation) :
    StandsAt (p ++ left) (blame what left) p.length := by
  refine ⟨by simp, ?_⟩
  rw [List.getElem?_append_right (Nat.le_refl _), Nat.sub_self]
  cases left <;> rfl

/-- The number of tokens before the place at which a statement breaks, out of all those
given, if it is broken. -/
def place? (total : Nat) (us : List Token) : Option Nat :=
  match statement us with
  | .success _ _ _ => none
  | .failure _ left _ => some (total - left.length)

/-- The places at which the broken statements of a program break. -/
def places (ts : List Token) : List Nat := (starts ts).filterMap (place? ts.length)

theorem place?_of_ok {us rest : List Token} {s : Statement} (h : ReadsStatement us (.ok s) rest)
    (total : Nat) : place? total us = none := by
  obtain ⟨lt, hs⟩ := Outcome.gives_ok_iff.mp (statement_gives_iff.mpr h)
  simp only [place?, hs]

theorem place?_of_error {us left : List Token} {x : SyntaxError}
    (h : ReadsStatement us (.error x) left) (total : Nat) :
    place? total us = some (total - left.length) := by
  obtain ⟨le, hs⟩ := Outcome.gives_error_iff.mp (statement_gives_iff.mpr h)
  simp only [place?, hs]

/-- Errors from a place of a sequence on: each stands behind the one before it, and all but
the last stand at a token that does not close the sequence. -/
structure Anchored (ts : List Token) (start : Nat) (xs : List SyntaxError) (is : List Nat) :
    Prop where
  increasing : is.Pairwise (· < ·)
  later : ∀ i ∈ is, start ≤ i
  stands : List.Forall₂ (StandsAt ts) xs is
  inner : ∀ x ∈ xs.dropLast, ∃ t, x.token? = some t ∧ t.kind ≠ .eof

namespace Anchored
variable {ts : List Token} {start : Nat} {xs : List SyntaxError} {is : List Nat}

theorem nil (ts : List Token) (start : Nat) : Anchored ts start [] [] :=
  ⟨.nil, List.forall_mem_nil _, .nil, List.forall_mem_nil _⟩

theorem single {x : SyntaxError} {i : Nat} (h : StandsAt ts x i) (hi : start ≤ i) :
    Anchored ts start [x] [i] :=
  ⟨List.pairwise_singleton _ i, List.forall_mem_singleton.mpr hi, .cons h .nil,
    List.forall_mem_nil _⟩

theorem mono (h : Anchored ts start xs is) {earlier : Nat} (hle : earlier ≤ start) :
    Anchored ts earlier xs is :=
  { h with later := fun i hi => hle.trans (h.later i hi) }

theorem cons (h : Anchored ts start xs is) {x : SyntaxError} {i earlier : Nat} {t : Token}
    (hx : StandsAt ts x i) (htoken : x.token? = some t) (ht : t.kind ≠ .eof)
    (hstart : earlier ≤ i) (hlt : i < start) : Anchored ts earlier (x :: xs) (i :: is) where
  increasing := List.pairwise_cons.mpr ⟨fun j hj => hlt.trans_le (h.later j hj), h.increasing⟩
  later := List.forall_mem_cons.mpr
    ⟨hstart, fun j hj => hstart.trans (hlt.le.trans (h.later j hj))⟩
  stands := .cons hx h.stands
  inner y hy := by
    cases xs with
    | nil => cases hy
    | cons z zs =>
      rcases List.mem_cons.mp hy with rfl | hy
      · exact ⟨t, htoken, ht⟩
      · exact h.inner y hy

end Anchored

theorem anchored_rounds (p ts : List Token) :
    Anchored (p ++ ts) p.length (errorsOf (rounds ts))
      ((starts ts).filterMap (place? (p ++ ts).length)) := by
  induction ts using rounds_induction generalizing p with
  | ended ts h =>
    rw [rounds_of_atEnd h, starts_of_atEnd h]
    exact .nil _ _
  | round ts h ih =>
    obtain ⟨q, -, hsplit, -⟩ := exists_consumed h
    have hlength := congrArg List.length hsplit
    have ih := ih (p ++ q)
    rw [List.append_assoc, ← hsplit] at ih
    rw [List.length_append] at hlength ih
    rw [starts_of_not_atEnd h]
    rcases readsStatement_total ts with ⟨s, rest, hr, -⟩ | ⟨x, left, hr, -⟩
    · rw [rounds_of_ok hr, errorsOf_ok, List.filterMap_cons_none (place?_of_ok hr _),
        ← afterRound_of_ok hr]
      exact ih.mono (Nat.le_add_right _ _)
    · obtain ⟨c, rfl, -, -⟩ := hr.consumed_of_error
      obtain ⟨what, rfl⟩ := hr.blames
      have hplace : (p ++ (c ++ left)).length - left.length = (p ++ c).length := by
        simp only [List.length_append]
        omega
      have hstands := standsAt_blame (p ++ c) left what
      have hstart : p.length ≤ (p ++ c).length := by simp
      rw [List.append_assoc] at hstands
      rw [rounds_of_error hr h, errorsOf_error, List.filterMap_cons_some (place?_of_error hr _),
        hplace, afterRound_of_error hr]
      rw [afterRound_of_error hr] at hlength ih
      cases hend : atEnd left with
      | true =>
        rw [synchronize_of_atEnd hend, rounds_of_atEnd hend, starts_of_atEnd hend]
        exact .single hstands hstart
      | false =>
        have hlt := length_synchronize_lt hend
        cases left with
        | nil => cases hend
        | cons t left =>
          have ht : t.kind ≠ .eof := by simpa [atEnd] using hend
          refine ih.cons hstands rfl ht hstart ?_
          simp only [List.length_append] at hlength ⊢
          omega

/-- An error without a token is only reported if no `eof` closes the sequence. -/
theorem not_mem_of_exhausted {ts : List Token} (h : .exhausted ∈ errorsOf (rounds ts)) :
    ∀ t ∈ ts, t.kind ≠ .eof := by
  intro z hz heof
  obtain ⟨blamed, -, hblamed⟩ := (blame_rounds ts).exists_sublist hz heof
  have hnone : none ∈ (errorsOf (rounds ts)).map SyntaxError.token? :=
    List.mem_map.mpr ⟨.exhausted, h, rfl⟩
  rw [hblamed] at hnone
  simp at hnone

/-- Every round of a program takes at least one token off the front and no `eof`, and the
rounds go on until the first `eof` or the end. So there are at most as many rounds, and
statements or errors, as tokens before the first `eof`. Errors stand at the places where
statements broke, from left to right. Only the last one can stand at an `eof` or lack a
token, and it lacks one only if the sequence has no `eof`. -/
theorem recovery_progress (ts : List Token) :
    rounds ts = (starts ts).map (fun us => (statement us).result) ∧
    (∀ us ∈ starts ts, ∃ q, q ≠ [] ∧ us = q ++ afterRound us ∧ ∀ t ∈ q, t.kind ≠ .eof) ∧
    atEnd (afterRound^[(rounds ts).length] ts) = true ∧
    (rounds ts).length ≤ (beforeEof ts).length ∧
    (∀ ss, program ts = .ok ss → ss.length ≤ (beforeEof ts).length) ∧
    ∀ xs, program ts = .error xs →
      xs.length ≤ (beforeEof ts).length ∧
      (places ts).Pairwise (· < ·) ∧ List.Forall₂ (StandsAt ts) xs (places ts) ∧
      (∀ x ∈ xs.dropLast, ∃ t, x.token? = some t ∧ t.kind ≠ .eof) ∧
      (.exhausted ∈ xs → ∀ t ∈ ts, t.kind ≠ .eof) := by
  have hrounds := length_rounds_le ts
  refine ⟨rounds_eq_map_starts ts, fun us hus => exists_consumed (not_atEnd_of_mem_starts hus),
    atEnd_iterate ts, hrounds, fun ss hss => ?_, fun xs hxs => ?_⟩
  · obtain ⟨-, rfl⟩ := program_eq_ok_iff.mp hss
    exact (List.length_filterMap_le _ _).trans hrounds
  · obtain ⟨rfl, -⟩ := program_eq_error_iff.mp hxs
    have hanchored := anchored_rounds [] ts
    exact ⟨(List.length_filterMap_le _ _).trans hrounds, hanchored.increasing, hanchored.stands,
      hanchored.inner, not_mem_of_exhausted⟩

/-- A broken statement, and one that lacks its semicolon at an `eof` in the middle. -/
theorem recovery_progress_inner_eof :
    let ts := [filler .printWord, filler .semicolon, filler .nilWord, filler .eof, filler .nilWord]
    let xs := [SyntaxError.expected .expression (filler .semicolon),
      .expected .semicolonAfterExpression (filler .eof)]
    program ts = .error xs ∧ xs.length ≤ (beforeEof ts).length ∧ places ts = [1, 3] ∧
    List.Forall₂ (StandsAt ts) xs [1, 3] := by
  intro ts xs
  have hprogram : program ts = .error xs := by cbv
  have hplaces : places ts = [1, 3] := by cbv
  obtain ⟨-, -, -, -, -, herror⟩ := recovery_progress ts
  obtain ⟨hlength, -, hstands, -⟩ := herror xs hprogram
  rw [hplaces] at hstands
  exact ⟨hprogram, hlength, hplaces, hstands⟩

end Reckon.Parse
