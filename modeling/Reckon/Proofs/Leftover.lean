import Reckon.Proofs.Consumption

/-!
# What the rules of the parser leave

Every rule leaves the end of its tokens, whether it succeeds or fails, and neither a
closing token nor, in an expression, a semicolon stands before that end. A success
consumes something and stops where the rule could not go on. A failure stops at the
token that it reports.
-/
namespace Reckon.Parse
open Grammar

/-- The next token does not extend what was read for a goal. The loop looks for its own
operators only, so it has to start where its operands could not go on. -/
def Goal.EndsBefore (ts left : List Token) : Goal → Prop
  | whole s => Ends s left
  | more level _ => Ends (operandOf level) ts → Ends (.binary level) left

theorem ends_ternary_iff {ts : List Token} :
    Ends .ternary ts ↔ Ends (.binary .equality) ts ∧ Avoids (·.kind = .question) ts := by
  refine ⟨Ends.ternary, fun ⟨hbinary, hquestion⟩ t ht => ?_⟩
  exact List.not_mem_cons_of_ne_of_not_mem (hquestion t ht) (hbinary t ht)

theorem ends_binary_iff {level : Level} {ts : List Token} :
    Ends (.binary level) ts ↔ Ends (operandOf level) ts ∧ Avoids (·.kind ∈ joiners level) ts := by
  refine ⟨Ends.binary, fun ⟨hoperand, hjoiners⟩ t ht hmem => ?_⟩
  rcases (mem_extenders_binary level t.kind).mp hmem with h | h
  · exact hjoiners t ht h
  · exact hoperand t ht h

theorem Reads.endsBefore {g : Goal} {ts left : List Token} {e : Expr}
    (h : Reads g ts (.ok e) left) : g.EndsBefore ts left := by
  generalize hout : Except.ok e = out at h
  induction h generalizing e with
  | conditionFails | thenFails | colonMissing | elseFails | firstFails | linkFails
  | prefixedFails | nothingStarts | innerFails | parenMissing => cases hout
  | unconditional _ hquestion ih => exact ends_ternary_iff.mpr ⟨ih hout, hquestion⟩
  | conditional _ _ _ _ _ _ _ ih => exact ih rfl
  | chain _ _ ihfirst ih => exact ih hout (ihfirst rfl)
  | stop hjoiners =>
    intro hoperand
    exact ends_binary_iff.mpr ⟨hoperand, hjoiners⟩
  | link _ _ _ ihoperand ih =>
    intro _
    exact ih hout (ihoperand rfl)
  | prefixed _ _ ih => exact ih rfl
  | unprefixed _ _ ih => exact ih hout
  -- Nothing extends what stands by itself.
  | atom _ => exact fun _ _ => List.not_mem_nil
  | group _ _ _ _ => exact fun _ _ => List.not_mem_nil

/-- How a step leaves the tokens it was given. Kinds in `kept` are never consumed, and after
a success the next token is of none of the kinds in `refused`. -/
structure Outcome.LeavesOff {α : Type} {n : Nat} (ts : List Token) (kept refused : List Kind)
    (o : Outcome α n) : Prop where
  suffix : ∃ consumed, ts = consumed ++ o.rest ∧ ∀ t ∈ consumed, t.kind ∉ kept
  advances : ∀ a, o.result = .ok a → o.rest.length < ts.length
  stops : ∀ a, o.result = .ok a → ∀ t ∈ o.rest.head?, t.kind ∉ refused
  blames : ∀ x, o.result = .error x →
    x.token? = o.rest.head? ∧ (x = .exhausted ↔ o.rest = [])

theorem blame_names (what : Expectation) (left : List Token) :
    (blame what left).token? = left.head? ∧ (blame what left = .exhausted ↔ left = []) := by
  cases left with
  | nil => simp [blame, SyntaxError.token?]
  | cons t left => simp [blame, SyntaxError.token?]

theorem Reads.shorter {s : Symbol} {ts left : List Token} {e : Expr}
    (h : Reads (.whole s) ts (.ok e) left) : left.length < ts.length := by
  obtain ⟨p, rfl, hp⟩ := h.covers
  obtain ⟨t, q, rfl, -⟩ := Derives.head_kind hp
  simp only [List.cons_append, List.length_cons, List.length_append]
  omega

theorem Reads.leavesOff {s : Symbol} {n : Nat} {ts : List Token} {o : Outcome Expr n}
    (h : Reads (.whole s) ts o.result o.rest) :
    o.LeavesOff ts [.eof, .semicolon] (extenders s) where
  suffix := by
    obtain ⟨p, hp, hterminals⟩ := h.consumed
    refine ⟨p, hp, fun t ht hmem => ?_⟩
    have hclosers : ∀ kind ∈ [Kind.eof, .semicolon], kind ∉ terminals := by decide
    exact hclosers t.kind hmem (hterminals t ht)
  advances a ha := by
    rw [ha] at h
    exact h.shorter
  stops a ha := by
    rw [ha] at h
    exact h.endsBefore
  blames x hx := by
    rw [hx] at h
    obtain ⟨what, rfl⟩ := h.blames
    exact blame_names what o.rest

theorem ReadsStatement.leavesOff {n : Nat} {ts : List Token} {o : Outcome Statement n}
    (h : ReadsStatement ts o.result o.rest) : o.LeavesOff ts [.eof] [] where
  suffix := by
    have hbody : ∀ {p : List Token}, IsBody p → ∀ t ∈ p, t.kind ∉ [Kind.eof] := fun hp t ht =>
      List.not_mem_cons_of_ne_of_not_mem (hp.kind_ne (by decide) t ht) List.not_mem_nil
    cases hresult : o.result with
    | error x =>
      rw [hresult] at h
      obtain ⟨p, hts, hp, -⟩ := h.consumed_of_error
      exact ⟨p, hts, hbody hp⟩
    | ok s =>
      rw [hresult] at h
      obtain ⟨p, u, hts, hp, hu, -⟩ := h.consumed_of_ok
      refine ⟨p ++ [u], by rw [hts, List.append_assoc]; rfl, ?_⟩
      refine List.forall_mem_append.mpr ⟨hbody hp, List.forall_mem_singleton.mpr ?_⟩
      rw [hu]
      decide
  advances s hs := by
    rw [hs] at h
    obtain ⟨p, u, hts, -⟩ := h.consumed_of_ok
    rw [hts, List.length_append, List.length_cons]
    omega
  stops _ _ _ _ := List.not_mem_nil
  blames x hx := by
    rw [hx] at h
    obtain ⟨what, rfl⟩ := h.blames
    exact blame_names what o.rest

/-- Every rule leaves the end of the tokens it was given. The closing token is never consumed,
nor is a semicolon by an expression. After a success something was consumed, and behind a
conditional or a level of binary operators no operator of that level or a tighter one is
next. After a failure the error names the first token left, and the end if none is left. -/
theorem rules_leave_off (ts : List Token) :
    (ternary ts).LeavesOff ts [.eof, .semicolon] (extenders .ternary) ∧
    (∀ level, (chain level ts).LeavesOff ts [.eof, .semicolon] (extenders (.binary level))) ∧
    (unary ts).LeavesOff ts [.eof, .semicolon] [] ∧
    (primary ts).LeavesOff ts [.eof, .semicolon] [] ∧
    (statement ts).LeavesOff ts [.eof] [] :=
  ⟨(reads_ternary ts).leavesOff, fun level => (reads_chain level ts).leavesOff,
    (reads_unary ts).leavesOff, (reads_primary ts).leavesOff,
    (readsStatement_statement ts).leavesOff⟩

end Reckon.Parse
