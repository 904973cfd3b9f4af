import Reckon.Proofs.MaximalMunch

/-!
# Line numbers

The line counter is advanced by line breaks outside of all tokens and by those inside
strings, closed or not, and by nothing else. No other segment holds a line break, so
the counter is at every point the first line plus the number of line breaks up to
there. Tokens and errors are on the line of the counter behind their segment.
-/
namespace Reckon
open Pattern

@[simp] theorem lineBreaks_append (a b : List Char) :
    lineBreaks (a ++ b) = lineBreaks a + lineBreaks b := List.count_append

theorem lineBreaks_eq_zero {text : List Char} (h : '\n' ∉ text) : lineBreaks text = 0 :=
  List.count_eq_zero_of_not_mem h

namespace Pattern

theorem not_mem_of_isWord {w : List Char} (h : w ∈ identifier.language) : '\n' ∉ w := by
  obtain ⟨c, cs, hc, hcs, rfl⟩ := mem_identifier.mp h
  intro hn
  rcases List.mem_cons.mp hn with rfl | hn
  · exact absurd (mem_wordStarts.mp hc) (by decide)
  · exact absurd (mem_wordChars.mp (hcs _ hn)) (by decide)

theorem not_mem_of_number {w : List Char} (h : w ∈ number.language) : '\n' ∉ w := by
  have hdigit : '\n' ∉ digits := by
    rw [mem_digits]
    decide
  obtain ⟨c, ds, hc, hds, hw⟩ := mem_number.mp h
  have hne : '\n' ≠ c := fun h => hdigit (h ▸ hc)
  have hds : '\n' ∉ ds := fun h => hdigit (hds _ h)
  rcases hw with rfl | ⟨e, es, he, hes, rfl⟩
  · simp [hne, hds]
  · have hne' : '\n' ≠ e := fun h => hdigit (h ▸ he)
    have hes : '\n' ∉ es := fun h => hdigit (hes _ h)
    simp [hne, hds, hne', hes]

theorem not_mem_of_blank {w : List Char} (h : w ∈ blank.language) : '\n' ∉ w := by
  have hblank : '\n' ∉ blanks := by
    rw [mem_blanks]
    decide
  obtain ⟨c, cs, hc, hcs, rfl⟩ := mem_blank.mp h
  intro hn
  rcases List.mem_cons.mp hn with rfl | hn
  · exact hblank hc
  · exact hblank (hcs _ hn)

theorem not_mem_of_fixed {kind : Kind} {w : List Char} (h : w ∈ (fixed kind).language) :
    '\n' ∉ w := by
  rcases Segment.spelling_cases (mem_fixed.mp h) with hw | ⟨c, rfl, hk⟩ | ⟨c, rfl, hk⟩
  · exact not_mem_of_isWord (Segment.isWord_iff.mp hw)
  · intro hn
    rw [← List.mem_singleton.mp hn] at hk
    cases hk
  · intro hn
    rcases List.mem_cons.mp hn with rfl | hn
    · cases hk
    · exact absurd hn (by decide)

/-- Only line breaks and strings hold line breaks. -/
theorem lineBreaks_eq_advance {p : Pattern} {w : List Char} (h : w ∈ p.language) :
    lineBreaks w = Segment.advance ⟨p.role w, w⟩ := by
  cases p with
  | number => exact lineBreaks_eq_zero (not_mem_of_number h)
  | string => rfl
  | unterminated => rfl
  | fixed kind =>
    rw [lineBreaks_eq_zero (not_mem_of_fixed h)]
    cases kind with
    | string => cases mem_fixed.mp h
    | _ => rfl
  | identifier => exact lineBreaks_eq_zero (not_mem_of_isWord h)
  | comment =>
    obtain ⟨cs, hcs, rfl⟩ := mem_comment.mp h
    rw [lineBreaks_eq_zero (by simp [hcs])]
    rfl
  | lineBreak =>
    obtain rfl := mem_lineBreak.mp h
    rfl
  | blank =>
    have hn := not_mem_of_blank h
    rw [lineBreaks_eq_zero hn]
    refine (if_neg ?_).symm
    rintro rfl
    exact hn List.mem_cons_self

end Pattern

theorem Munch.lineBreaks_eq_advance {cs : List Char} {pieces : List Piece} (h : Munch cs pieces) :
    ∀ piece ∈ pieces, lineBreaks piece.text = piece.segment.advance := by
  induction h with
  | nil => exact List.forall_mem_nil _
  | matched hleads _ ih =>
    exact List.forall_mem_cons.mpr ⟨Pattern.lineBreaks_eq_advance hleads.matched, ih⟩
  | @stray c rest pieces hnone _ ih =>
    refine List.forall_mem_cons.mpr ⟨?_, ih⟩
    have hc : '\n' ∉ [c] := by
      intro hn
      rw [← List.mem_singleton.mp hn] at hnone
      exact hnone .lineBreak ['\n'] rfl (List.prefix_append ['\n'] rest)
    exact lineBreaks_eq_zero hc

theorem Segment.lineBreaks_eq_advance {cs : List Char} {s : Segment} (h : s ∈ split cs) :
    lineBreaks s.text = s.advance := by
  obtain ⟨pieces, hmunch, hsplit⟩ := munch_split cs
  rw [hsplit] at h
  obtain ⟨piece, hpiece, rfl⟩ := List.mem_map.mp h
  exact hmunch.lineBreaks_eq_advance piece hpiece

/-- The counter is the first line plus the line breaks that have been passed. -/
theorem lineAfter_eq {segments : List Segment}
    (h : ∀ s ∈ segments, lineBreaks s.text = s.advance) (line : Nat) :
    lineAfter line segments = line + lineBreaks (segments.flatMap Segment.text) := by
  induction segments generalizing line with
  | nil => rfl
  | cons s segments ih =>
    obtain ⟨hs, hsegments⟩ := List.forall_mem_cons.mp h
    have hstep : lineAfter line (s :: segments) = lineAfter (line + s.advance) segments := rfl
    rw [hstep, ih hsegments, List.flatMap_cons, lineBreaks_append, hs]
    omega

theorem lineAfter_split (cs : List Char) (line : Nat) :
    lineAfter line (Segment.split cs) = line + lineBreaks cs := by
  rw [lineAfter_eq fun s => Segment.lineBreaks_eq_advance, Segment.flatMap_text_split]

theorem le_lineAfter (line : Nat) (segments : List Segment) : line ≤ lineAfter line segments := by
  induction segments generalizing line with
  | nil => exact Nat.le_refl line
  | cons s segments ih => exact (Nat.le_add_right line s.advance).trans (ih _)

/-- The tokens of a text are closed on its last line. -/
theorem Scan.tokens_ofChars (cs : List Char) :
    (ofChars cs).tokens =
      (Source.layout cs 1).filterMap Placed.token? ++ [.eof (1 + lineBreaks cs)] := by
  rw [ofChars, lineAfter_split]

namespace Placed

@[simp] theorem map_toSegment_along (start line : Nat) (segments : List Segment) :
    (along start line segments).map Placed.toSegment = segments := by
  induction segments generalizing start line with
  | nil => rfl
  | cons s segments ih => exact congrArg (s :: ·) (ih _ _)

/-- A segment is on the line of the counter behind it. -/
theorem line_of_along {start line : Nat} {segments : List Segment} {before after : List Placed}
    {p : Placed} (h : along start line segments = before ++ p :: after) :
    p.line = lineAfter line ((before ++ [p]).map toSegment) := by
  induction before generalizing start line segments with
  | nil =>
    cases segments with
    | nil => cases h
    | cons s segments =>
      obtain ⟨rfl, -⟩ := List.cons.inj h
      rfl
  | cons q before ih =>
    cases segments with
    | nil => cases h
    | cons s segments =>
      obtain ⟨rfl, htail⟩ := List.cons.inj h
      exact ih htail

theorem le_line_of_mem_along {start line : Nat} {segments : List Segment} {p : Placed}
    (h : p ∈ along start line segments) : line ≤ p.line := by
  obtain ⟨before, after, hsplit⟩ := List.append_of_mem h
  rw [line_of_along hsplit]
  exact le_lineAfter line _

/-- Lines never decrease along a text. -/
theorem pairwise_line_along (start line : Nat) (segments : List Segment) :
    (along start line segments).Pairwise fun p q => p.line ≤ q.line := by
  induction segments generalizing start line with
  | nil => exact .nil
  | cons s segments ih => exact .cons (fun q hq => le_line_of_mem_along hq) (ih _ _)

theorem line_of_token? {p : Placed} {t : Token} (h : p.token? = some t) : t.line = p.line := by
  unfold token? at h
  split at h
  · cases h
    rfl
  · cases h

theorem line_of_error? {p : Placed} {e : ScanError} (h : p.error? = some e) : e.line = p.line := by
  unfold error? at h
  split at h
  · cases h
    rfl
  · cases h
    rfl
  · cases h

theorem role_of_error? {p : Placed} {n : Nat} (h : p.error? = some (.unterminatedString n)) :
    p.role = .unclosed := by
  unfold error? at h
  split at h
  · cases h
  · assumption
  · cases h

end Placed

namespace Segment

theorem quoted_unclosed {cs : List Char} (h : (quoted cs).1 = .unclosed) :
    (quoted cs).2 = cs.length := by
  unfold quoted at h ⊢
  split at h
  · next hdrop =>
    have hall : cs.takeWhile (· != '"') = cs := by
      have := List.takeWhile_append_dropWhile (p := (· != '"')) (l := cs)
      rwa [hdrop, List.append_nil] at this
    simp [hall]
  · cases h

theorem leading_ne_unclosed {c : Char} (h : c ≠ '"') (cs : List Char) :
    (leading c cs).1 ≠ .unclosed := by
  unfold leading
  split_ifs
  · simp [numeral]
  · simp [word]
  · simp
  · simp
  · simp
  · unfold symbol
    split <;> simp

/-- A string that is not closed extends to the end of the text. -/
theorem leading_unclosed {c : Char} {cs : List Char} (h : (leading c cs).1 = .unclosed) :
    (leading c cs).2 = cs.length := by
  by_cases hc : c = '"'
  · subst hc
    exact quoted_unclosed h
  · exact absurd h (leading_ne_unclosed hc cs)

theorem unclosed_last {cs : List Char} {after : List Segment} {s : Segment}
    (hs : s.role = .unclosed) (before : List Segment) (h : split cs = before ++ s :: after) :
    after = [] := by
  fun_induction split cs generalizing before with
  | case1 => simp at h
  | case2 c cs cut ih =>
    cases before with
    | nil =>
      obtain ⟨rfl, rfl⟩ := List.cons.inj h
      rw [leading_unclosed hs, List.drop_length, split_nil]
    | cons q before => exact ih before (List.cons.inj h).2

end Segment

/-- The segments up to the end of one of them, taken from the layout of a text. -/
theorem split_of_layout {cs : List Char} {line : Nat} {before after : List Placed} {p : Placed}
    (h : Source.layout cs line = before ++ p :: after) :
    Segment.split cs =
      before.map Placed.toSegment ++ p.toSegment :: after.map Placed.toSegment := by
  rw [← Placed.map_toSegment_along 0 line (Segment.split cs)]
  change (Source.layout cs line).map Placed.toSegment = _
  rw [h, List.map_append, List.map_cons]

theorem flatMap_text_layout (cs : List Char) (line : Nat) :
    (Source.layout cs line).flatMap (·.text) = cs := by
  have h := Segment.flatMap_text_split cs
  rw [← Placed.map_toSegment_along 0 line (Segment.split cs), List.flatMap_map] at h
  exact h

/-- A segment is on the line where it ends. -/
theorem line_of_layout {cs : List Char} {line : Nat} {before after : List Placed} {p : Placed}
    (h : Source.layout cs line = before ++ p :: after) :
    p.line = line + lineBreaks ((before ++ [p]).flatMap (·.text)) := by
  have hseen : ∀ s ∈ (before ++ [p]).map Placed.toSegment, lineBreaks s.text = s.advance := by
    intro s hs
    apply Segment.lineBreaks_eq_advance
    rw [split_of_layout h]
    simp only [List.map_append, List.map_singleton, List.mem_append, List.mem_singleton] at hs
    rcases hs with hs | rfl
    · exact List.mem_append_left _ hs
    · simp
  rw [Placed.line_of_along h, lineAfter_eq hseen, List.flatMap_map]

theorem line_le_of_mem_layout {cs : List Char} {line : Nat} {p : Placed}
    (h : p ∈ Source.layout cs line) : p.line ≤ line + lineBreaks cs := by
  obtain ⟨before, after, hsplit⟩ := List.append_of_mem h
  have htext := flatMap_text_layout cs line
  rw [hsplit, ← List.singleton_append, ← List.append_assoc, List.flatMap_append] at htext
  rw [line_of_layout hsplit, ← htext, lineBreaks_append]
  omega

/-- A text with an unclosed string ends inside that string, so the error is on the last line. -/
theorem line_of_unterminated {cs : List Char} {line n : Nat} {p : Placed}
    (hp : p ∈ Source.layout cs line) (he : p.error? = some (.unterminatedString n)) :
    n = line + lineBreaks cs := by
  obtain ⟨before, after, hsplit⟩ := List.append_of_mem hp
  have hlast := Segment.unclosed_last (Placed.role_of_error? he) _ (split_of_layout hsplit)
  obtain rfl : after = [] := List.map_eq_nil_iff.mp hlast
  have hline : n = p.line := Placed.line_of_error? he
  rw [hline, line_of_layout hsplit, ← hsplit, flatMap_text_layout]

/-- Line numbers are exact. Whatever number the first line has, each token and each error is
on the line of the counter behind its segment, which is the first line plus the number of
line breaks before the end of the segment. In a scan the first line is 1, the closing
token and an unclosed string are on the last line, and lines never decrease. -/
theorem lines_exact (source : String) :
    (∀ k,
      (Source.layout source.toList k).flatMap (·.text) = source.toList ∧
      (∀ before p after, Source.layout source.toList k = before ++ p :: after →
        p.line = k + lineBreaks ((before ++ [p]).flatMap (·.text)) ∧
        p.line = lineAfter k ((before ++ [p]).map Placed.toSegment) ∧
        (∀ t ∈ p.token?, t.line = p.line) ∧ ∀ e ∈ p.error?, e.line = p.line) ∧
      lineAfter k (Segment.split source.toList) = k + lineBreaks source.toList) ∧
    (scan source).tokens = (Source.layout source.toList 1).filterMap Placed.token? ++
      [.eof (1 + lineBreaks source.toList)] ∧
    (scan source).errors = (Source.layout source.toList 1).filterMap Placed.error? ∧
    (∀ n, .unterminatedString n ∈ (scan source).errors → n = 1 + lineBreaks source.toList) ∧
    ((scan source).tokens.Pairwise fun t u => t.line ≤ u.line) ∧
    (scan source).errors.Pairwise fun d e => d.line ≤ e.line := by
  have hlines := Placed.pairwise_line_along 0 1 (Segment.split source.toList)
  have htokens := Scan.tokens_ofChars source.toList
  refine ⟨fun k => ⟨flatMap_text_layout _ k, fun before p after h => ?_, lineAfter_split _ k⟩,
    htokens, rfl, fun n hn => ?_, ?_, ?_⟩
  · exact ⟨line_of_layout h, Placed.line_of_along h, fun t => Placed.line_of_token?,
      fun e => Placed.line_of_error?⟩
  · obtain ⟨p, hp, he⟩ := List.mem_filterMap.mp hn
    exact line_of_unterminated hp he
  · rw [scan, htokens]
    refine List.pairwise_append.mpr ⟨?_, List.pairwise_singleton _ _, ?_⟩
    · refine hlines.filterMap _ fun p q hpq t ht u hu => ?_
      rwa [Placed.line_of_token? ht, Placed.line_of_token? hu]
    · intro t ht u hu
      obtain ⟨p, hp, htoken⟩ := List.mem_filterMap.mp ht
      rw [List.mem_singleton.mp hu, Placed.line_of_token? htoken]
      exact line_le_of_mem_layout hp
  · refine hlines.filterMap _ fun p q hpq d hd e he => ?_
    rwa [Placed.line_of_error? hd, Placed.line_of_error? he]

/-- A closed string and one that is not, with a line break in each: both are on the lines
where they end. -/
theorem lines_exact_two_strings :
    let closed : Placed := ⟨⟨.token .string (some (.string "\n")), ['"', '\n', '"']⟩, 0, 3, 8⟩
    let unclosed : Placed := ⟨⟨.unclosed, ['"', '\n']⟩, 3, 5, 9⟩
    Source.layout "\"\n\"\"\n".toList 7 = [closed] ++ unclosed :: [] ∧
    unclosed.line = 7 + lineBreaks (([closed] ++ [unclosed]).flatMap (·.text)) ∧
    .unterminatedString 3 ∈ (scan "\"\n\"\"\n").errors ∧
    3 = 1 + lineBreaks "\"\n\"\"\n".toList := by
  intro closed unclosed
  obtain ⟨hlayout, -, -, hlast, -⟩ := lines_exact "\"\n\"\"\n"
  have hpieces : Source.layout "\"\n\"\"\n".toList 7 = [closed] ++ unclosed :: [] := by
    with_unfolding_all rfl
  have herrors : (scan "\"\n\"\"\n").errors = [.unterminatedString 3] := by
    with_unfolding_all rfl
  have hmem : .unterminatedString 3 ∈ (scan "\"\n\"\"\n").errors := by
    rw [herrors]
    exact List.mem_cons_self
  exact ⟨hpieces, ((hlayout 7).2.1 _ _ _ hpieces).1, hmem, hlast 3 hmem⟩

end Reckon
