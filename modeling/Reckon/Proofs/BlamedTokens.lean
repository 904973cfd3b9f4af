import Reckon.Proofs.Boundaries

/-!
# The tokens that errors blame

Errors blame tokens of the sequence that is parsed, and those of a program blame them from
left to right. An error without a token can only be the last one, and only if no `eof`
closes the sequence: a broken statement never consumes an `eof`, and recovery never drops
one.
-/
namespace Reckon.Parse
open Grammar

/-- Recovery drops the token at which a statement broke, and no `eof` behind it. -/
theorem synchronize_cons {t : Token} (ht : t.kind ≠ .eof) (ts : List Token) :
    ∃ q, ts = q ++ synchronize (t :: ts) ∧ ∀ u ∈ q, u.kind ≠ .eof := by
  have hend : atEnd (t :: ts) = false := by simpa [atEnd] using ht
  obtain ⟨dropped, hts, hleast⟩ := exists_dropped_to_boundary hend
  have hopen := not_eof_of_isLeast hts hend hleast
  cases dropped with
  | nil => exact absurd hleast.1.1 (by simp)
  | cons u q =>
    obtain ⟨rfl, hq⟩ := List.cons.inj hts
    exact ⟨q, hq, (List.forall_mem_cons.mp hopen).2⟩

/-- Errors blame tokens of a sequence, in their order. The last one may lack a token if the
sequence has no `eof`. -/
def Blame (xs : List SyntaxError) (ts : List Token) : Prop :=
  ∃ blamed : List Token, blamed.Sublist ts ∧
    (xs.map SyntaxError.token? = blamed.map some ∨
      (∀ t ∈ ts, t.kind ≠ .eof) ∧ xs.map SyntaxError.token? = blamed.map some ++ [none])

theorem blame_none (ts : List Token) : Blame [] ts := ⟨[], List.nil_sublist ts, .inl rfl⟩

theorem blame_one (what : Expectation) (ts : List Token) : Blame [blame what ts] ts := by
  cases ts with
  | nil => exact ⟨[], .slnil, .inr ⟨List.forall_mem_nil _, rfl⟩⟩
  | cons t ts => exact ⟨[t], List.singleton_sublist.mpr List.mem_cons_self, .inl rfl⟩

theorem Blame.append {xs : List SyntaxError} {ts p : List Token} (h : Blame xs ts)
    (hp : ∀ t ∈ p, t.kind ≠ .eof) : Blame xs (p ++ ts) := by
  obtain ⟨blamed, hsub, hxs⟩ := h
  refine ⟨blamed, hsub.trans (List.sublist_append_right p ts), hxs.imp_right ?_⟩
  rintro ⟨hts, hlast⟩
  exact ⟨List.forall_mem_append.mpr ⟨hp, hts⟩, hlast⟩

/-- An error at a token before further ones behind it, with recovery in between. -/
theorem Blame.cons {xs : List SyntaxError} {t : Token} {ts : List Token} (ht : t.kind ≠ .eof)
    (what : Expectation) (h : Blame xs (synchronize (t :: ts))) :
    Blame (.expected what t :: xs) (t :: ts) := by
  obtain ⟨q, hq, hopen⟩ := synchronize_cons ht ts
  obtain ⟨blamed, hsub, hxs⟩ := h
  have hsuffix : synchronize (t :: ts) <:+ ts := ⟨q, hq.symm⟩
  refine ⟨t :: blamed, (hsub.trans hsuffix.sublist).cons_cons t, ?_⟩
  rcases hxs with hxs | ⟨hts, hxs⟩
  · refine .inl ?_
    rw [List.map_cons, hxs]
    rfl
  · have hrest : ∀ u ∈ ts, u.kind ≠ .eof := by
      rw [hq]
      exact List.forall_mem_append.mpr ⟨hopen, hts⟩
    refine .inr ⟨List.forall_mem_cons.mpr ⟨ht, hrest⟩, ?_⟩
    rw [List.map_cons, hxs]
    rfl

/-- With an `eof` in the sequence every error blames a token. -/
theorem Blame.exists_sublist {xs : List SyntaxError} {ts : List Token} (h : Blame xs ts)
    {z : Token} (hz : z ∈ ts) (heof : z.kind = .eof) :
    ∃ blamed : List Token, blamed.Sublist ts ∧
      xs.map SyntaxError.token? = blamed.map some := by
  obtain ⟨blamed, hsub, hxs⟩ := h
  refine ⟨blamed, hsub, hxs.resolve_right ?_⟩
  rintro ⟨hts, -⟩
  exact hts z hz heof

/-- Errors are on the lines of the tokens they blame. -/
theorem map_line_of_blamed {xs : List SyntaxError} {blamed : List Token}
    (h : xs.map SyntaxError.token? = blamed.map some) :
    xs.map SyntaxError.line = blamed.map Token.line := by
  have hline :
      SyntaxError.line = (fun token? => token?.elim 0 Token.line) ∘ SyntaxError.token? := by
    funext x
    cases x <;> rfl
  rw [hline, ← List.map_map, h, List.map_map]
  rfl

theorem blame_expression {ts : List Token} {x : SyntaxError} (h : expression ts = .error x) :
    Blame [x] ts := by
  have hterminals : Kind.eof ∉ terminals := by decide
  obtain ⟨p, left, what, rfl, hp, rfl⟩ : ∃ p left what,
      ts = p ++ left ∧ (∀ t ∈ p, t.kind ∈ terminals) ∧ x = blame what left := by
    rcases expression_eq_error_iff.mp h with ⟨left, hr⟩ | ⟨e, left, hr, -, rfl⟩
    · obtain ⟨p, hts, hp⟩ := hr.consumed
      obtain ⟨what, hx⟩ := hr.blames
      exact ⟨p, left, what, hts, hp, hx⟩
    · obtain ⟨p, hts, hp⟩ := hr.consumed
      exact ⟨p, left, _, hts, hp, rfl⟩
  exact (blame_one what left).append fun t ht hk => hterminals (hk ▸ hp t ht)

theorem blame_rounds (ts : List Token) : Blame (errorsOf (rounds ts)) ts := by
  cases hts : atEnd ts with
  | true =>
    rw [rounds_of_atEnd hts]
    exact blame_none ts
  | false =>
    rcases readsStatement_total ts with ⟨s, rest, hr, hlt⟩ | ⟨x, left, hr, hle⟩
    · obtain ⟨p, u, hsplit, hp, hu, -⟩ := hr.consumed_of_ok
      have hconsumed : ∀ t ∈ p ++ [u], t.kind ≠ .eof := by
        simpa [or_imp, forall_and, hu] using hp.kind_ne (by decide)
      have hblame := (blame_rounds rest).append hconsumed
      rw [rounds_of_ok hr, errorsOf_ok, hsplit]
      simpa using hblame
    · obtain ⟨p, hsplit, hp, -⟩ := hr.consumed_of_error
      obtain ⟨what, rfl⟩ := hr.blames
      have hconsumed : ∀ t ∈ p, t.kind ≠ .eof := hp.kind_ne (by decide)
      rw [rounds_of_error hr hts, errorsOf_error, hsplit]
      refine Blame.append ?_ hconsumed
      cases hend : atEnd left with
      | true =>
        rw [synchronize_of_atEnd hend, rounds_of_atEnd hend]
        exact blame_one what left
      | false =>
        cases left with
        | nil => cases hend
        | cons t left =>
          have ht : t.kind ≠ .eof := by simpa [atEnd] using hend
          have hlt := length_synchronize_lt hend
          exact (blame_rounds (synchronize (t :: left))).cons ht what
termination_by ts.length

end Reckon.Parse
