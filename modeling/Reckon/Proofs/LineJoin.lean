import Reckon.Proofs.Lines
import Reckon.Proofs.Renumbering

/-!
# Scanning texts joined by a line break

A line break ends every segment but a string. So a text that has no unclosed string is
cut in the same way when a line break and any other text follow, and the other text is
cut as if it stood alone. Its tokens and errors are on later lines.
-/
namespace Reckon

namespace Segment
variable {p : Char → Bool} {d : Char}

theorem takeWhile_append_of_neg (hp : p d = false) (cs b : List Char) :
    (cs ++ d :: b).takeWhile p = cs.takeWhile p := by
  induction cs with
  | nil => simp [hp]
  | cons c cs ih => simp only [List.cons_append, List.takeWhile_cons, ih]

theorem dropWhile_append_of_neg (hp : p d = false) (cs b : List Char) :
    (cs ++ d :: b).dropWhile p = cs.dropWhile p ++ d :: b := by
  induction cs with
  | nil => simp [hp]
  | cons c cs ih =>
    simp only [List.cons_append, List.dropWhile_cons, ih]
    split <;> rfl

theorem head?_append_of_ne {c : Char} (hc : d ≠ c) (cs b : List Char) :
    (cs ++ d :: b).head? = some c ↔ cs.head? = some c := by
  cases cs with
  | nil => simp [hc]
  | cons e cs => rfl

/-- Blanks and line breaks. -/
def isSpacing (c : Char) : Bool := isBlank c || c == '\n'

/-- Spacing is part of no number, word or symbol. -/
structure Separates (d : Char) : Prop where
  not_digit : d.isDigit = false
  not_wordChar : isWordChar d = false
  ne_dot : d ≠ '.'
  ne_equal : d ≠ '='
  ne_slash : d ≠ '/'

theorem separates_of_isSpacing (h : isSpacing d) : Separates d := by
  simp only [isSpacing, isBlank, Bool.or_eq_true, beq_iff_eq] at h
  rcases h with (((rfl | rfl) | rfl) | rfl) | rfl <;>
    exact ⟨rfl, rfl, by decide, by decide, by decide⟩

theorem numeral_append (hd : Separates d) (c : Char) (cs b : List Char) :
    numeral c (cs ++ d :: b) = numeral c cs := by
  unfold numeral
  rw [takeWhile_append_of_neg hd.not_digit, dropWhile_append_of_neg hd.not_digit]
  cases cs.dropWhile Char.isDigit with
  | nil =>
    split
    · next h => exact absurd (List.cons.inj h).1 hd.ne_dot
    · rfl
  | cons e rest =>
    by_cases he : e = '.'
    · subst he
      simp only [List.cons_append, takeWhile_append_of_neg hd.not_digit]
    · split
      · next h => exact absurd (List.cons.inj h).1 he
      · split
        · next h => exact absurd (List.cons.inj h).1 he
        · rfl

theorem word_append (hd : Separates d) (c : Char) (cs b : List Char) :
    word c (cs ++ d :: b) = word c cs := by
  unfold word
  rw [takeWhile_append_of_neg hd.not_wordChar]

/-- A closed string does not depend on what follows it. -/
theorem quoted_append {cs : List Char} (h : (quoted cs).1 ≠ .unclosed) (b : List Char) :
    quoted (cs ++ b) = quoted cs := by
  have hcs : cs.takeWhile (· != '"') ++ cs.dropWhile (· != '"') = cs :=
    List.takeWhile_append_dropWhile
  unfold quoted at h ⊢
  cases hdrop : cs.dropWhile (· != '"') with
  | nil =>
    rw [hdrop] at h
    exact absurd rfl h
  | cons q rest =>
    have hin := bne_of_not_mem (not_mem_takeWhile_bne '"' cs)
    have hq : (q != '"') = false := by
      have := List.head?_dropWhile_not (· != '"') cs
      simpa [hdrop] using this
    rw [hdrop] at hcs
    rw [← hcs, List.append_assoc, List.cons_append]
    simp only [takeWhile_append_cons _ hin hq, dropWhile_append_cons _ hin hq]

theorem symbol_append (hd : Separates d) (c : Char) (cs b : List Char) :
    symbol c (cs ++ d :: b) = symbol c cs := by
  unfold symbol
  simp only [head?_append_of_ne hd.ne_equal]

/-- A line break does not change the segment before it, unless that is a string. -/
theorem leading_append {c : Char} {cs : List Char} (h : (leading c cs).1 ≠ .unclosed)
    (b : List Char) : leading c (cs ++ '\n' :: b) = leading c cs := by
  by_cases hc : c = '"'
  · subst hc
    exact quoted_append h _
  · have hd : Separates '\n' := separates_of_isSpacing rfl
    have hblank : isBlank '\n' = false := by decide
    have hcomment := takeWhile_append_of_neg (p := (· != '\n')) (d := '\n') rfl cs b
    unfold leading
    simp only [numeral_append hd, word_append hd, symbol_append hd, hc, if_false, hcomment,
      takeWhile_append_of_neg hblank, head?_append_of_ne hd.ne_slash]

theorem length_takeWhile_add_dropWhile (p : Char → Bool) (cs : List Char) :
    (cs.takeWhile p).length + (cs.dropWhile p).length = cs.length := by
  rw [← List.length_append, List.takeWhile_append_dropWhile]

theorem length_numeral_le (c : Char) (cs : List Char) : (numeral c cs).2 ≤ cs.length := by
  have hlength := length_takeWhile_add_dropWhile Char.isDigit cs
  unfold numeral
  split
  · next rest hrest =>
    have hfraction := (List.takeWhile_prefix (l := rest) Char.isDigit).length_le
    rw [hrest, List.length_cons] at hlength
    simp only
    split <;> omega
  · simp only [List.isEmpty_nil, if_true]
    omega

theorem length_quoted_le (cs : List Char) : (quoted cs).2 ≤ cs.length := by
  have hlength := length_takeWhile_add_dropWhile (· != '"') cs
  unfold quoted
  split
  · simp only
    omega
  · next hdrop =>
    rw [hdrop, List.length_cons] at hlength
    simp only
    omega

theorem length_symbol_le (c : Char) (cs : List Char) : (symbol c cs).2 ≤ cs.length := by
  unfold symbol
  split
  · next h =>
    cases cs with
    | nil => cases h
    | cons d cs => simp
  · exact Nat.zero_le _
  · exact Nat.zero_le _

theorem length_leading_le (c : Char) (cs : List Char) : (leading c cs).2 ≤ cs.length := by
  unfold leading
  split_ifs
  · exact length_numeral_le c cs
  · exact (List.takeWhile_prefix _).length_le
  · exact length_quoted_le cs
  · exact (List.takeWhile_prefix _).length_le
  · exact Nat.zero_le _
  · exact (List.takeWhile_prefix _).length_le
  · exact length_symbol_le c cs

/-- Texts joined by a line break are cut apart there. -/
theorem split_append {a : List Char} (ha : ∀ s ∈ split a, s.role ≠ .unclosed) (b : List Char) :
    split (a ++ '\n' :: b) = split a ++ ⟨.trivia, ['\n']⟩ :: split b := by
  fun_induction split a with
  | case1 =>
    rw [List.nil_append, split_cons, leading_lineBreak]
    rfl
  | case2 c cs cut ih =>
    obtain ⟨hc, hcs⟩ := List.forall_mem_cons.mp ha
    have hle : cut.2 ≤ cs.length := length_leading_le c cs
    rw [List.cons_append, split_cons, leading_append hc, List.take_append_of_le_length hle,
      List.drop_append_of_le_length hle, ih hcs]
    rfl

end Segment

namespace Placed

/-- A segment further on in the text. -/
def shift (bytes lines : Nat) (p : Placed) : Placed :=
  { p with start := p.start + bytes, stop := p.stop + bytes, line := p.line + lines }

theorem token?_shift (bytes lines : Nat) (p : Placed) :
    (p.shift bytes lines).token? = p.token?.map (Token.renumber (· + lines)) := by
  unfold token? shift
  dsimp only
  split <;> rfl

theorem error?_shift (bytes lines : Nat) (p : Placed) :
    (p.shift bytes lines).error? = p.error?.map (ScanError.renumber (· + lines)) := by
  unfold error? shift
  dsimp only
  split <;> rfl

theorem filterMap_token?_shift (bytes lines : Nat) (ps : List Placed) :
    (ps.map (shift bytes lines)).filterMap token? =
      (ps.filterMap token?).map (Token.renumber (· + lines)) := by
  rw [List.filterMap_map, List.map_filterMap]
  exact congrFun (congrArg List.filterMap (funext (token?_shift bytes lines))) ps

theorem filterMap_error?_shift (bytes lines : Nat) (ps : List Placed) :
    (ps.map (shift bytes lines)).filterMap error? =
      (ps.filterMap error?).map (ScanError.renumber (· + lines)) := by
  rw [List.filterMap_map, List.map_filterMap]
  exact congrFun (congrArg List.filterMap (funext (error?_shift bytes lines))) ps

theorem along_shift (bytes lines start line : Nat) (segments : List Segment) :
    along (start + bytes) (line + lines) segments =
      (along start line segments).map (shift bytes lines) := by
  induction segments generalizing start line with
  | nil => rfl
  | cons s segments ih =>
    have hstop : start + bytes + byteLength s.text = start + byteLength s.text + bytes := by omega
    have hlast : line + lines + s.advance = line + s.advance + lines := by omega
    simp only [along, List.map_cons, hstop, hlast, ih]
    rfl

theorem along_append (start line : Nat) (xs ys : List Segment) :
    ∃ stop, along start line (xs ++ ys) =
      along start line xs ++ along stop (lineAfter line xs) ys := by
  induction xs generalizing start line with
  | nil => exact ⟨start, rfl⟩
  | cons s xs ih =>
    obtain ⟨stop, h⟩ := ih (start + byteLength s.text) (line + s.advance)
    exact ⟨stop, congrArg (_ :: ·) h⟩

end Placed

/-- The segments of texts joined by a line break, at their places. -/
theorem layout_append {a : List Char} (ha : ∀ s ∈ Segment.split a, s.role ≠ .unclosed)
    (b : List Char) (line : Nat) :
    ∃ bytes newline, newline.role = .trivia ∧
      Source.layout (a ++ '\n' :: b) line = Source.layout a line ++ newline ::
        (Source.layout b line).map (Placed.shift bytes (1 + lineBreaks a)) := by
  obtain ⟨stop, h⟩ := Placed.along_append 0 line (Segment.split a)
    (⟨.trivia, ['\n']⟩ :: Segment.split b)
  rw [← Segment.split_append ha, lineAfter_split] at h
  have hrest := Placed.along_shift (stop + 1) (1 + lineBreaks a) 0 line (Segment.split b)
  have hlines : line + lineBreaks a + 1 = line + (1 + lineBreaks a) := by omega
  refine ⟨stop + 1, ⟨⟨.trivia, ['\n']⟩, stop, stop + 1, line + lineBreaks a + 1⟩, rfl, ?_⟩
  rw [Source.layout, h, Source.layout, Source.layout, ← hrest, Nat.zero_add, ← hlines]
  rfl

/-- Whether a string is not closed can be seen from the errors. -/
theorem role_ne_unclosed {cs : List Char}
    (h : ∀ n, .unterminatedString n ∉ (Scan.ofChars cs).errors) :
    ∀ s ∈ Segment.split cs, s.role ≠ .unclosed := by
  intro s hs hrole
  rw [← Placed.map_toSegment_along 0 1 (Segment.split cs)] at hs
  obtain ⟨p, hp, rfl⟩ := List.mem_map.mp hs
  apply h p.line
  refine List.mem_filterMap.mpr ⟨p, hp, ?_⟩
  simp only [Placed.error?, hrole]

/-- Scanning composes at line breaks. -/
theorem Scan.ofChars_append {a : List Char}
    (ha : ∀ n, .unterminatedString n ∉ (Scan.ofChars a).errors) (b : List Char) :
    (Scan.ofChars (a ++ '\n' :: b)).tokens = (Scan.ofChars a).tokens.dropLast ++
      (Scan.ofChars b).tokens.map (Token.renumber (· + (1 + lineBreaks a))) ∧
    (Scan.ofChars (a ++ '\n' :: b)).errors = (Scan.ofChars a).errors ++
      (Scan.ofChars b).errors.map (ScanError.renumber (· + (1 + lineBreaks a))) := by
  obtain ⟨bytes, newline, hnewline, hlayout⟩ := layout_append (role_ne_unclosed ha) b 1
  have htoken : newline.token? = none := by simp only [Placed.token?, hnewline]
  have herror : newline.error? = none := by simp only [Placed.error?, hnewline]
  have hlast : 1 + lineBreaks (a ++ '\n' :: b) = 1 + lineBreaks b + (1 + lineBreaks a) := by
    rw [lineBreaks_append, ← List.singleton_append, lineBreaks_append]
    change 1 + (lineBreaks a + (1 + lineBreaks b)) = _
    omega
  constructor
  · simp only [Scan.tokens_ofChars, hlayout, hlast, List.dropLast_concat, List.filterMap_append,
      List.filterMap_cons, htoken, Placed.filterMap_token?_shift, List.map_append,
      List.map_singleton, Token.renumber_eof, List.append_assoc]
  · simp only [Scan.ofChars, hlayout, List.filterMap_append, List.filterMap_cons, herror,
      Placed.filterMap_error?_shift]

/-- A text that leaves no string open, a line break and any text: the tokens are those of the
first text without its closing token, then those of the second one on later lines, and so are
the errors. -/
theorem scan_append_lineBreak {a : String}
    (ha : ∀ line, .unterminatedString line ∉ (scan a).errors) (b : String) :
    let shift := (· + (1 + lineBreaks a.toList))
    ∃ body, (scan a).tokens = body ++ [.eof (1 + lineBreaks a.toList)] ∧
      (scan (a ++ "\n" ++ b)).tokens = body ++ (scan b).tokens.map (Token.renumber shift) ∧
      (scan (a ++ "\n" ++ b)).errors =
        (scan a).errors ++ (scan b).errors.map (ScanError.renumber shift) := by
  intro shift
  have htext : (a ++ "\n" ++ b).toList = a.toList ++ '\n' :: b.toList := by simp
  have hbody : (scan a).tokens.dropLast =
      (Source.layout a.toList 1).filterMap Placed.token? := by
    rw [scan, Scan.ofChars, List.dropLast_concat]
  have hclosed := Scan.tokens_ofChars a.toList
  obtain ⟨htokens, herrors⟩ := Scan.ofChars_append ha b.toList
  rw [← htext] at htokens herrors
  exact ⟨_, hclosed, htokens.trans (congrArg (· ++ _) hbody), herrors⟩

/-- A string with a line break in it, a stray character, a point and a comment that holds a
quote, before a text with a string that is not closed. Both errors are reported, the second on
the third line. -/
theorem scan_append_lineBreak_third_line :
    let quoted : Token := ⟨.string, "\"\n\"", some (.string "\n"), 2⟩
    let dot : Token := { kind := .dot, lexeme := ".", line := 2 }
    let less (line : Nat) : Token := { kind := .less, lexeme := "<", line }
    (∀ line, .unterminatedString line ∉ (scan "\"\n\"@.//\"").errors) ∧
    (scan "\"\n\"@.//\"").tokens = [quoted, dot, .eof 2] ∧
    (scan "<\"").tokens = [less 1, .eof 1] ∧
    (scan ("\"\n\"@.//\"" ++ "\n" ++ "<\"")).tokens = [quoted, dot, less 3, .eof 3] ∧
    (scan ("\"\n\"@.//\"" ++ "\n" ++ "<\"")).errors =
      [.unexpectedCharacter '@' 2, .unterminatedString 3] := by
  intro quoted dot less
  have herrors : (scan "\"\n\"@.//\"").errors = [.unexpectedCharacter '@' 2] := by
    decide +kernel
  have hclosed : ∀ line, .unterminatedString line ∉ (scan "\"\n\"@.//\"").errors := by
    simp [herrors]
  have htokens : (scan "\"\n\"@.//\"").tokens = [quoted, dot, .eof 2] := by
    with_unfolding_all rfl
  have hlines : lineBreaks "\"\n\"@.//\"".toList = 1 := by decide +kernel
  have hless : (scan "<\"").tokens = [less 1, .eof 1] := by with_unfolding_all rfl
  have hopen : (scan "<\"").errors = [.unterminatedString 1] := by decide +kernel
  obtain ⟨body, hbody, hjoined, hreported⟩ := scan_append_lineBreak hclosed "<\""
  rw [htokens, hlines] at hbody
  have hsplit : [quoted, dot] ++ [.eof 2] = body ++ [.eof 2] := hbody
  obtain rfl := List.append_cancel_right hsplit
  rw [hless, hlines] at hjoined
  rw [herrors, hopen, hlines] at hreported
  exact ⟨hclosed, htokens, hless, hjoined, hreported⟩

end Reckon
