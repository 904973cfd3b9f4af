import Mathlib.Order.Bounds.Defs
import Reckon.Proofs.Recovery

/-!
# Statement boundaries

A statement may end behind a semicolon, before a token that begins another one or closes
the sequence, and where no token is left. Recovery stops at the first such boundary behind
the token at which a statement broke. What it can drop on its way follows from that place
being the first.
-/
namespace Reckon.Parse

/-- The numbers of tokens, at least one, that lead to a boundary: the last of these tokens is
a semicolon, or they are all the tokens, or the next one begins a statement or closes the
sequence. -/
def boundaries (ts : List Token) : Set Nat :=
  {k | 1 ≤ k ∧
    ((∃ t ∈ ts[k - 1]?, t.kind = .semicolon) ∨ k = ts.length ∨ ∃ t ∈ ts[k]?, Stops t)}

theorem one_mem_boundaries_iff {t : Token} {ts : List Token} :
    1 ∈ boundaries (t :: ts) ↔ t.kind = .semicolon ∨ ∀ u ∈ ts.head?, Stops u := by
  cases ts with
  | nil => simp [boundaries]
  | cons u ts => simp [boundaries]

theorem add_one_mem_boundaries_iff {t : Token} {ts : List Token} {k : Nat} (hk : 1 ≤ k) :
    k + 1 ∈ boundaries (t :: ts) ↔ k ∈ boundaries ts := by
  obtain ⟨j, rfl⟩ := Nat.exists_eq_add_of_le' hk
  simp [boundaries]

/-- A boundary behind the first token is the first one. -/
theorem isLeast_boundaries_one {t : Token} {ts : List Token}
    (h : t.kind = .semicolon ∨ ∀ u ∈ ts.head?, Stops u) : IsLeast (boundaries (t :: ts)) 1 :=
  ⟨one_mem_boundaries_iff.mpr h, fun _ hk => hk.1⟩

/-- Without a boundary behind the first token, the first one is that of the other tokens. -/
theorem isLeast_boundaries_add_one {t u : Token} {ts : List Token} {k : Nat}
    (ht : t.kind ≠ .semicolon) (hu : ¬ Stops u) (h : IsLeast (boundaries (u :: ts)) k) :
    IsLeast (boundaries (t :: u :: ts)) (k + 1) := by
  refine ⟨(add_one_mem_boundaries_iff h.1.1).mpr h.1, fun j hj => ?_⟩
  have hne : j ≠ 1 := by
    rintro rfl
    rcases one_mem_boundaries_iff.mp hj with hsemi | hstops
    · exact ht hsemi
    · exact hu (hstops u rfl)
  obtain ⟨i, rfl⟩ := Nat.exists_eq_add_of_le' hj.1
  have hi : 1 ≤ i := by omega
  have hle := h.2 ((add_one_mem_boundaries_iff hi).mp hj)
  omega

theorem skipStatement_cons {t : Token} (hstops : ¬ Stops t) (hsemi : t.kind ≠ .semicolon)
    (ts : List Token) : skipStatement (t :: ts) = skipStatement ts := by
  simp only [skipStatement]
  exact (if_neg hstops).trans (if_neg hsemi)

/-- Skipping behind a token that is no semicolon stops at the first boundary. -/
theorem exists_skipped_to_boundary {t : Token} (ht : t.kind ≠ .semicolon) (ts : List Token) :
    ∃ q, ts = q ++ skipStatement ts ∧ IsLeast (boundaries (t :: ts)) (q.length + 1) := by
  -- The token before changes on the way: whether a place is a boundary depends on both sides.
  induction ts generalizing t with
  | nil => exact ⟨[], rfl, isLeast_boundaries_one (.inr (by simp))⟩
  | cons u ts ih =>
    by_cases hstops : Stops u
    · refine ⟨[], (skipStatement_stops hstops ts).symm, isLeast_boundaries_one (.inr ?_)⟩
      simpa using hstops
    by_cases hsemi : u.kind = .semicolon
    · refine ⟨[u], ?_, isLeast_boundaries_add_one ht hstops ?_⟩
      · rw [skipStatement_semicolon hsemi, List.singleton_append]
      · exact isLeast_boundaries_one (.inl hsemi)
    · obtain ⟨q, hq, hleast⟩ := ih hsemi
      refine ⟨u :: q, ?_, isLeast_boundaries_add_one ht hstops hleast⟩
      rw [skipStatement_cons hstops hsemi, List.cons_append, ← hq]

/-- Recovery drops its first token unseen, and from there stops at the first boundary. -/
theorem exists_dropped_to_boundary {ts : List Token} (h : atEnd ts = false) :
    ∃ dropped, ts = dropped ++ synchronize ts ∧ IsLeast (boundaries ts) dropped.length := by
  cases ts with
  | nil => cases h
  | cons t ts =>
    have heof : t.kind ≠ .eof := by simpa [atEnd] using h
    by_cases hsemi : t.kind = .semicolon
    · refine ⟨[t], ?_, isLeast_boundaries_one (.inl hsemi)⟩
      rw [synchronize_semicolon hsemi, List.singleton_append]
    · obtain ⟨q, hq, hleast⟩ := exists_skipped_to_boundary hsemi ts
      refine ⟨t :: q, ?_, hleast⟩
      rw [synchronize, if_neg heof, if_neg hsemi, List.cons_append, ← hq]

section BeforeFirst
variable {ts dropped left : List Token}

/-- No token behind the first one begins a statement or closes the sequence: there would be a
boundary before it. -/
theorem not_stops_of_isLeast (hts : ts = dropped ++ left)
    (h : IsLeast (boundaries ts) dropped.length) : ∀ t ∈ dropped.tail, ¬ Stops t := by
  intro t ht hstops
  obtain ⟨i, hi, rfl⟩ := List.mem_iff_getElem.mp ht
  rw [List.length_tail] at hi
  have hnext : ts[i + 1]? = some dropped.tail[i] := by
    rw [hts, List.getElem?_append_left (by omega), List.getElem_tail, List.getElem?_eq_getElem]
  have hle := h.2 ⟨Nat.le_add_left 1 i, .inr (.inr ⟨_, hnext, hstops⟩)⟩
  omega

theorem not_eof_of_isLeast (hts : ts = dropped ++ left) (hend : atEnd ts = false)
    (h : IsLeast (boundaries ts) dropped.length) : ∀ t ∈ dropped, t.kind ≠ .eof := by
  have hstops := not_stops_of_isLeast hts h
  subst hts
  cases dropped with
  | nil => exact List.forall_mem_nil _
  | cons t q =>
    have ht : t.kind ≠ .eof := by simpa [atEnd] using hend
    exact List.forall_mem_cons.mpr ⟨ht, fun u hu hk => hstops u hu (.inl hk)⟩

/-- No token before the last one is a semicolon: there would be a boundary behind it. -/
theorem not_semicolon_of_isLeast (hts : ts = dropped ++ left)
    (h : IsLeast (boundaries ts) dropped.length) :
    ∀ t ∈ dropped.dropLast, t.kind ≠ .semicolon := by
  intro t ht hsemi
  obtain ⟨i, hi, rfl⟩ := List.mem_iff_getElem.mp ht
  rw [List.length_dropLast] at hi
  have hlast : ts[i + 1 - 1]? = some dropped.dropLast[i] := by
    rw [hts, Nat.add_sub_cancel, List.getElem?_append_left (by omega), List.getElem_dropLast,
      List.getElem?_eq_getElem]
  have hle := h.2 ⟨Nat.le_add_left 1 i, .inl ⟨_, hlast, hsemi⟩⟩
  omega

end BeforeFirst

/-- Recovery drops nothing at the end or before a closing token. From any other token it drops
up to the first boundary. So it never drops an `eof`, it drops a semicolon only as the last
token and a word that begins a statement only as the first, and where it has come to the end
or a closing token it stays. -/
theorem synchronize_to_first_boundary (ts : List Token) :
    ∃ dropped, ts = dropped ++ synchronize ts ∧
      (atEnd ts = true ∧ dropped = [] ∨
        atEnd ts = false ∧ IsLeast (boundaries ts) dropped.length) ∧
      (∀ t ∈ dropped, t.kind ≠ .eof) ∧
      (∀ t ∈ dropped.dropLast, t.kind ≠ .semicolon) ∧
      (∀ t ∈ dropped.tail, t.kind.startsStatement = false) ∧
      (atEnd (synchronize ts) = true → synchronize (synchronize ts) = synchronize ts) := by
  cases hend : atEnd ts with
  | true =>
    refine ⟨[], (synchronize_of_atEnd hend).symm, .inl ⟨rfl, rfl⟩, ?_⟩
    simpa using synchronize_of_atEnd
  | false =>
    obtain ⟨dropped, hts, hleast⟩ := exists_dropped_to_boundary hend
    have hstops := not_stops_of_isLeast hts hleast
    refine ⟨dropped, hts, .inr ⟨rfl, hleast⟩, not_eof_of_isLeast hts hend hleast,
      not_semicolon_of_isLeast hts hleast, fun t ht => ?_, synchronize_of_atEnd⟩
    exact Bool.eq_false_iff.mpr fun hstart => hstops t ht (.inr hstart)

/-- A dropped word that begins a statement, a dropped semicolon, and an `eof` behind it. -/
theorem synchronize_to_first_boundary_inner_eof :
    let ts := [filler .printWord, filler .plus, filler .semicolon, filler .eof, filler .nilWord]
    synchronize ts = [filler .eof, filler .nilWord] ∧ IsLeast (boundaries ts) 3 ∧
    atEnd (synchronize ts) = true ∧ synchronize (synchronize ts) = synchronize ts := by
  intro ts
  have hsync : synchronize ts = [filler .eof, filler .nilWord] := rfl
  have hend : atEnd (synchronize ts) = true := rfl
  obtain ⟨dropped, hts, hplace, -, -, -, hstays⟩ := synchronize_to_first_boundary ts
  have hlength : dropped.length = 3 := by
    have h : 5 = (dropped ++ synchronize ts).length := congrArg List.length hts
    rw [List.length_append, hsync] at h
    simp only [List.length_cons, List.length_nil] at h
    omega
  rcases hplace with ⟨hfalse, -⟩ | ⟨-, hleast⟩
  · cases hfalse
  · rw [hlength] at hleast
    exact ⟨hsync, hleast, hend, hstays hend⟩

end Reckon.Parse
