import Reckon.Proofs.Consumption

/-!
# Recovery from broken statements

Tokens up to a semicolon, without a word that begins another statement among them,
are a sentence. A broken sentence is reported once, and recovery lands exactly behind
its semicolon, wherever it broke; so the statements of a program are read and reported
sentence by sentence. A fragment lacks its semicolon, and is always broken: it breaks
at one of its own tokens or at the next one.
-/
namespace Reckon.Parse
open Grammar

/-- The tokens of one statement, whether it is broken or not, up to its semicolon. -/
structure IsSentence (s : List Token) : Prop where
  ends : ∃ q u, s = q ++ [u] ∧ u.kind = .semicolon ∧ ∀ t ∈ q, t.kind ≠ .semicolon
  open_ended : ∀ t ∈ s, t.kind ≠ .eof
  no_start : ∀ t ∈ s.tail, t.kind.startsStatement = false

/-- The tokens of one statement without a semicolon. -/
structure IsFragment (p : List Token) : Prop where
  ne_nil : p ≠ []
  no_semicolon : ∀ t ∈ p, t.kind ≠ .semicolon
  open_ended : ∀ t ∈ p, t.kind ≠ .eof
  no_start : ∀ t ∈ p.tail, t.kind.startsStatement = false

/-- Tokens that recovery drops without stopping. -/
def Skipped (t : Token) : Prop :=
  t.kind ≠ .eof ∧ t.kind ≠ .semicolon ∧ t.kind.startsStatement = false

theorem skipStatement_append {p : List Token} (hp : ∀ t ∈ p, Skipped t) (rest : List Token) :
    skipStatement (p ++ rest) = skipStatement rest := by
  induction p with
  | nil => rfl
  | cons t p ih =>
    obtain ⟨⟨heof, hsemi, hstart⟩, hp⟩ := List.forall_mem_cons.mp hp
    simp only [List.cons_append, skipStatement, heof, hsemi, hstart, false_or, Bool.false_eq_true,
      if_false]
    exact ih hp

theorem skipStatement_semicolon {u : Token} (hu : u.kind = .semicolon) (rest : List Token) :
    skipStatement (u :: rest) = rest := by
  simp [skipStatement, hu, Kind.startsStatement]

/-- Tokens before which recovery stops. -/
def Stops (u : Token) : Prop := u.kind = .eof ∨ u.kind.startsStatement = true

theorem skipStatement_stops {u : Token} (hu : Stops u) (rest : List Token) :
    skipStatement (u :: rest) = u :: rest := by
  simp only [skipStatement]
  exact if_pos hu

theorem synchronize_semicolon {u : Token} (hu : u.kind = .semicolon) (rest : List Token) :
    synchronize (u :: rest) = rest := by
  simp [synchronize, hu]

/-- Recovery goes on to the end of the fragment in which a statement broke. -/
theorem IsFragment.synchronize_append {r : List Token} (hr : IsFragment r) (rest : List Token) :
    synchronize (r ++ rest) = skipStatement rest := by
  cases r with
  | nil => exact absurd rfl hr.ne_nil
  | cons t r =>
    have heof := hr.open_ended t List.mem_cons_self
    have hsemi := hr.no_semicolon t List.mem_cons_self
    have hskip : ∀ v ∈ r, Skipped v := fun v hv =>
      ⟨hr.open_ended v (List.mem_cons_of_mem t hv), hr.no_semicolon v (List.mem_cons_of_mem t hv),
        hr.no_start v hv⟩
    rw [List.cons_append, synchronize, if_neg heof, if_neg hsemi, skipStatement_append hskip]

theorem IsFragment.right {c r : List Token} (h : IsFragment (c ++ r)) (hr : r ≠ []) :
    IsFragment r where
  ne_nil := hr
  no_semicolon t ht := h.no_semicolon t (List.mem_append_right c ht)
  open_ended t ht := h.open_ended t (List.mem_append_right c ht)
  no_start t ht := by
    apply h.no_start
    cases c with
    | nil => exact ht
    | cons v c => exact List.mem_append_right c (List.mem_of_mem_tail ht)

theorem IsSentence.isFragment {q : List Token} {u : Token} (h : IsSentence (q ++ [u]))
    (hsemi : ∀ t ∈ q, t.kind ≠ .semicolon) (hq : q ≠ []) : IsFragment q where
  ne_nil := hq
  no_semicolon := hsemi
  open_ended t ht := h.open_ended t (List.mem_append_left [u] ht)
  no_start t ht := by
    apply h.no_start
    rw [List.tail_append_of_ne_nil hq]
    exact List.mem_append_left [u] ht

/-- A sentence is read or reported as if it stood alone, and recovery from anywhere in it
lands behind its semicolon. -/
theorem IsSentence.rounds_append {s : List Token} (hs : IsSentence s) (rest : List Token) :
    rounds (s ++ rest) = (statement s).result :: rounds rest := by
  obtain ⟨q, u, rfl, hu, hq⟩ := hs.ends
  have hrest : q ++ [u] ++ rest = q ++ u :: rest := by simp
  rcases readsStatement_total (q ++ u :: rest) with ⟨st, left, h, -⟩ | ⟨x, left, h, -⟩
  · obtain ⟨p, v, hsplit, hp, hv, hdetached⟩ := h.consumed_of_ok
    have hup : u ∉ p := fun hmem => hp.kind_ne (by decide) u hmem hu
    obtain ⟨r, rfl, hleft⟩ := left_of_not_mem hsplit hup
    -- The only semicolon of the sentence is its last token.
    cases r with
    | cons t r =>
      obtain ⟨rfl, -⟩ := List.cons.inj hleft
      exact absurd hv (hq v (by simp))
    | nil =>
      obtain ⟨rfl, rfl⟩ := List.cons.inj hleft
      have halone := statement_gives_iff.mpr (hdetached [])
      rw [hrest, rounds_of_ok h, List.append_nil, halone.1]
  · obtain ⟨p, hsplit, hp, hlook⟩ := h.consumed_of_error
    have hup : u ∉ p := fun hmem => hp.kind_ne (by decide) u hmem hu
    obtain ⟨r, rfl, rfl⟩ := left_of_not_mem hsplit hup
    have hhead : (r ++ [u]).head? = (r ++ u :: rest).head? := by cases r <;> rfl
    have halone := statement_gives_iff.mpr (hlook (r ++ [u]) hhead)
    have hsync : synchronize (r ++ u :: rest) = rest := by
      by_cases hr : r = []
      · rw [hr, List.nil_append, synchronize_semicolon hu]
      · have hfragment := hs.isFragment hq (List.append_ne_nil_of_right_ne_nil p hr)
        rw [(hfragment.right hr).synchronize_append, skipStatement_semicolon hu]
    have hend : atEnd (p ++ r ++ u :: rest) = false := by
      cases hpr : p ++ r with
      | nil => simp [atEnd, hu]
      | cons t ts =>
        have ht := hs.open_ended t (by simp [hpr])
        simpa [atEnd] using ht
    rw [hrest, rounds_of_error h hend, hsync, List.append_assoc, halone.1]

theorem rounds_flatten {sentences : List (List Token)} (hs : ∀ s ∈ sentences, IsSentence s)
    (rest : List Token) :
    rounds (sentences.flatten ++ rest) =
      sentences.map (fun s => (statement s).result) ++ rounds rest := by
  induction sentences with
  | nil => rfl
  | cons s sentences ih =>
    obtain ⟨hs, hsentences⟩ := List.forall_mem_cons.mp hs
    rw [List.flatten_cons, List.append_assoc, hs.rounds_append, ih hsentences]
    rfl

theorem Stops.not_terminal {u : Token} (hu : Stops u) : u.kind ∉ terminals := by
  rcases hu with hu | hu
  · rw [hu]
    decide
  · revert hu
    cases u.kind <;> decide

theorem Stops.not_semicolon {u : Token} (hu : Stops u) : u.kind ≠ .semicolon := by
  rintro hk
  rcases hu with hu | hu <;> simp [hk, Kind.startsStatement] at hu

/-- No statement is read across a token at which recovery stops. -/
theorem Stops.left_of_isBody {u : Token} (hu : Stops u) {p c left rest : List Token} (hp : p ≠ [])
    (hc : IsBody c) (h : p ++ u :: rest = c ++ left) :
    ∃ r, p = c ++ r ∧ left = r ++ u :: rest := by
  cases c with
  | nil => exact ⟨p, rfl, h.symm⟩
  | cons t c =>
    cases p with
    | nil => exact absurd rfl hp
    | cons v p =>
      obtain ⟨rfl, htail⟩ := List.cons.inj h
      have huc : u ∉ c := fun hmem => hu.not_terminal (hc.tail u hmem)
      obtain ⟨r, rfl, hleft⟩ := left_of_not_mem htail huc
      exact ⟨r, rfl, hleft⟩

/-- A fragment before such a token is never a statement. It breaks at one of its own tokens,
or at that one. -/
theorem IsFragment.breaks {p : List Token} (hp : IsFragment p) {u : Token} (hu : Stops u)
    (rest : List Token) :
    ∃ x c r, p = c ++ r ∧ ReadsStatement (p ++ u :: rest) (.error x) (r ++ u :: rest) ∧
      ∀ left, left.head? = (r ++ u :: rest).head? → ReadsStatement (c ++ left) (.error x) left := by
  rcases readsStatement_total (p ++ u :: rest) with ⟨s, left, h, -⟩ | ⟨x, left, h, -⟩
  · obtain ⟨c, v, hsplit, hc, hv, -⟩ := h.consumed_of_ok
    obtain ⟨r, rfl, hleft⟩ := hu.left_of_isBody hp.ne_nil hc hsplit
    cases r with
    | nil =>
      obtain ⟨rfl, -⟩ := List.cons.inj hleft
      exact absurd hv hu.not_semicolon
    | cons w r =>
      obtain ⟨rfl, -⟩ := List.cons.inj hleft
      exact absurd hv (hp.no_semicolon v (by simp))
  · obtain ⟨c, hsplit, hc, hlook⟩ := h.consumed_of_error
    obtain ⟨r, rfl, rfl⟩ := hu.left_of_isBody hp.ne_nil hc hsplit
    exact ⟨x, c, r, rfl, h, hlook⟩

theorem IsFragment.not_atEnd {p : List Token} (hp : IsFragment p) (rest : List Token) :
    atEnd (p ++ rest) = false := by
  cases p with
  | nil => exact absurd rfl hp.ne_nil
  | cons t p =>
    have ht := hp.open_ended t List.mem_cons_self
    simpa [atEnd] using ht

/-- A fragment at the end of a program is reported once. -/
theorem IsFragment.rounds_eof {p : List Token} (hp : IsFragment p) {z : Token}
    (hz : z.kind = .eof) (rest : List Token) :
    ∃ x, (statement (p ++ z :: rest)).result = .error x ∧ rounds (p ++ z :: rest) = [.error x] := by
  obtain ⟨x, c, r, rfl, h, -⟩ := hp.breaks (.inl hz) rest
  have hend : atEnd (z :: rest) = true := by simp [atEnd, hz]
  have hsync : synchronize (r ++ z :: rest) = z :: rest := by
    by_cases hr : r = []
    · rw [hr]
      exact synchronize_of_atEnd hend
    · rw [(hp.right hr).synchronize_append, skipStatement_stops (.inl hz)]
  refine ⟨x, (statement_gives_iff.mpr h).1, ?_⟩
  rw [rounds_of_error h (hp.not_atEnd _), hsync, rounds_of_atEnd hend]

/-- The error of a statement that stands at the front of some tokens, if it is broken. -/
def complaint? (ts : List Token) : Option SyntaxError :=
  match (statement ts).result with
  | .error x => some x
  | .ok _ => none

theorem errorsOf_map_statement (sentences : List (List Token)) :
    errorsOf (sentences.map fun s => (statement s).result) = sentences.filterMap complaint? := by
  induction sentences with
  | nil => rfl
  | cons s sentences ih =>
    cases h : (statement s).result with
    | error x => simp [complaint?, h, ih]
    | ok st => simp [complaint?, h, ih]

theorem errorsOf_map_ok (ss : List Statement) : errorsOf (ss.map .ok) = [] := by
  induction ss with
  | nil => rfl
  | cons s ss ih => exact ih

theorem statementsOf_map_ok (ss : List Statement) : statementsOf (ss.map .ok) = ss := by
  induction ss with
  | nil => rfl
  | cons s ss ih => exact congrArg (s :: ·) ih

/-- The rounds of sentences that a fragment may follow. -/
theorem rounds_sentences {sentences : List (List Token)} {tail : Option (List Token)} {z : Token}
    (hs : ∀ s ∈ sentences, IsSentence s) (ht : ∀ p ∈ tail, IsFragment p) (hz : z.kind = .eof) :
    rounds (sentences.flatten ++ tail.getD [] ++ [z]) =
      (sentences ++ tail.toList.map (· ++ [z])).map fun s => (statement s).result := by
  rw [List.append_assoc, rounds_flatten hs, List.map_append]
  congr 1
  cases tail with
  | none => exact rounds_of_atEnd (by simp [atEnd, hz])
  | some p =>
    obtain ⟨x, hx, hrounds⟩ := (ht p rfl).rounds_eof hz []
    simp [hrounds, hx]

/-- Each broken statement is reported once and a good one never. Sentences all of which are
statements form a program. Otherwise the errors are those of the broken sentences, each
taken alone, and one for a fragment behind them. Neither the sentences before a sentence
nor any tokens after it change its outcome. -/
theorem program_of_sentences (sentences : List (List Token)) (tail : Option (List Token))
    (z : Token) (hs : ∀ s ∈ sentences, IsSentence s) (ht : ∀ p ∈ tail, IsFragment p)
    (hz : z.kind = .eof) :
    (∀ ss, tail = none → sentences.map (fun s => (statement s).result) = ss.map .ok →
      program (sentences.flatten ++ [z]) = .ok ss) ∧
    (∀ p ∈ tail, (complaint? (p ++ [z])).isSome) ∧
    ((∃ s ∈ sentences, (complaint? s).isSome) ∨ tail.isSome →
      program (sentences.flatten ++ tail.getD [] ++ [z]) =
        .error (sentences.filterMap complaint? ++
          tail.toList.filterMap fun p => complaint? (p ++ [z]))) ∧
    ∀ before s after, sentences = before ++ s :: after → ∀ rest,
      rounds (before.flatten ++ s ++ rest) =
        before.map (fun s => (statement s).result) ++ (statement s).result :: rounds rest := by
  have hrounds := rounds_sentences hs ht hz
  have htail : ∀ p ∈ tail, (complaint? (p ++ [z])).isSome := by
    intro p hp
    obtain ⟨x, hx, -⟩ := (ht p hp).rounds_eof hz []
    simp [complaint?, hx]
  refine ⟨?_, htail, ?_, ?_⟩
  · rintro ss rfl hss
    simp only [Option.getD_none, List.append_nil, Option.toList_none, List.map_nil] at hrounds
    rw [program_eq_ok_iff, hrounds, hss]
    exact ⟨errorsOf_map_ok ss, statementsOf_map_ok ss⟩
  · intro hbroken
    refine program_eq_error_iff.mpr ⟨?_, ?_⟩
    · rw [hrounds, errorsOf_map_statement, List.filterMap_append, List.filterMap_map]
      rfl
    · rcases hbroken with ⟨s, hmem, hsome⟩ | hsome
      · obtain ⟨x, hx⟩ := Option.isSome_iff_exists.mp hsome
        have hxmem := List.mem_filterMap.mpr ⟨s, hmem, hx⟩
        exact List.append_ne_nil_of_left_ne_nil (List.ne_nil_of_mem hxmem) _
      · obtain ⟨p, rfl⟩ := Option.isSome_iff_exists.mp hsome
        obtain ⟨x, hx⟩ := Option.isSome_iff_exists.mp (htail p rfl)
        simp [hx]
  · rintro before s after rfl rest
    have hbefore : ∀ b ∈ before, IsSentence b := fun b hb => hs b (by simp [hb])
    have hsentence : IsSentence s := hs s (by simp)
    rw [List.append_assoc, rounds_flatten hbefore, hsentence.rounds_append]

/-- Two broken statements around a good one, and a fragment behind them: three errors. -/
theorem program_of_sentences_two_broken :
    let good := [filler .nilWord, filler .semicolon]
    let broken := [filler .printWord, filler .semicolon]
    let fragment := [filler .nilWord]
    (∀ s ∈ [broken, good, broken], IsSentence s) ∧ IsFragment fragment ∧
    program (broken ++ good ++ broken ++ fragment ++ [filler .eof]) =
      .error [.expected .expression (filler .semicolon), .expected .expression (filler .semicolon),
        .expected .semicolonAfterExpression (filler .eof)] := by
  intro good broken fragment
  have hgood : IsSentence good :=
    ⟨⟨[filler .nilWord], filler .semicolon, rfl, rfl, by decide⟩, by decide, by decide⟩
  have hbroken : IsSentence broken :=
    ⟨⟨[filler .printWord], filler .semicolon, rfl, rfl, by decide⟩, by decide, by decide⟩
  have hfragment : IsFragment fragment := ⟨by simp [fragment], by decide, by decide, by decide⟩
  have hs : ∀ s ∈ [broken, good, broken], IsSentence s := by simp [hgood, hbroken]
  refine ⟨hs, hfragment, ?_⟩
  obtain ⟨-, -, herror, -⟩ := program_of_sentences [broken, good, broken] (some fragment)
    (filler .eof) hs (by simpa using hfragment) rfl
  have hprogram := herror (.inr rfl)
  have hg : complaint? good = none := by cbv
  have hb : complaint? broken = some (.expected .expression (filler .semicolon)) := by cbv
  have hf : complaint? (fragment ++ [filler .eof]) =
      some (.expected .semicolonAfterExpression (filler .eof)) := by cbv
  simpa [hg, hb, hf] using hprogram

end Reckon.Parse
