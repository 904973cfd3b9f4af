import Reckon.Proofs.LongestMatch
import Reckon.Proofs.NearestNumber
import Reckon.Source.Scan

/-!
# Scanning is longest match

A source text falls into pieces in exactly one way: at each position the longest
text that some pattern matches, with reserved words before identifiers, or a single
character where no pattern matches. The segments of a text are these pieces, so
tokens and errors are what the pieces say.
-/
namespace Reckon
open Pattern

inductive Piece where
  | matched (pattern : Pattern) (text : List Char)
  /-- A character at which no pattern matches. -/
  | stray (character : Char)

namespace Piece

def text : Piece → List Char
  | matched _ w => w
  | stray c => [c]

def role : Piece → Role
  | matched p w => p.role w
  | stray c => .stray c

def segment (piece : Piece) : Segment := ⟨piece.role, piece.text⟩

end Piece

/-- The pieces of a text, in order. -/
inductive Munch : List Char → List Piece → Prop
  | nil : Munch [] []
  | matched {p w rest pieces} : Leads p w (w ++ rest) → Munch rest pieces →
      Munch (w ++ rest) (.matched p w :: pieces)
  | stray {c rest pieces} : (∀ p w, w ∈ Pattern.language p → ¬ w <+: c :: rest) →
      Munch rest pieces → Munch (c :: rest) (.stray c :: pieces)

/-- The segments of a text are its pieces. -/
theorem munch_split (cs : List Char) :
    ∃ pieces, Munch cs pieces ∧ Segment.split cs = pieces.map Piece.segment := by
  fun_induction Segment.split cs with
  | case1 => exact ⟨[], .nil, rfl⟩
  | case2 c cs cut ih =>
    obtain ⟨pieces, hmunch, hsplit⟩ := ih
    rw [hsplit]
    rcases Segment.leads_leading c cs with ⟨p, hleads, hrole⟩ | ⟨hstray, hnone⟩
    · refine ⟨.matched p (c :: cs.take cut.2) :: pieces, ?_, ?_⟩
      · have hcs : c :: cs = c :: cs.take cut.2 ++ cs.drop cut.2 := by simp
        rw [hcs] at hleads ⊢
        exact .matched hleads hmunch
      · simp [Piece.segment, Piece.role, Piece.text, cut, hrole]
    · have hcut : cut = (.stray c, 0) := hstray
      rw [hcut] at hmunch
      exact ⟨.stray c :: pieces, .stray hnone hmunch, by simp [Piece.segment, hcut, Piece.role,
        Piece.text]⟩

/-- The kind of token that is always written like this. -/
def Kind.ofSpelling? (w : List Char) : Option Kind :=
  all.find? fun kind => kind.spelling? = some (String.ofList w)

theorem ofSpelling_of_mem {kind : Kind} {w : List Char} (h : w ∈ (fixed kind).language) :
    Kind.ofSpelling? w = some kind := by
  have h := mem_fixed.mp h
  cases kind with
  | identifier | string | number | eof => cases h
  | _ =>
    cases Segment.eq_toList_of_some h
    rfl

/-- The pattern of a text that is not fixed, from its first character. -/
def Pattern.ofHead : List Char → Pattern
  | [] => identifier
  | c :: cs =>
    if c.isDigit then number
    else if Segment.isWordStart c then identifier
    else if Segment.isBlank c then blank
    else if c = '"' then if '"' ∈ cs then string else unterminated
    else if c = '\n' then lineBreak
    else comment

theorem ofHead_of_mem {p : Pattern} {w : List Char} (h : w ∈ p.language)
    (hp : ∀ kind, p ≠ fixed kind) : ofHead w = p := by
  cases p with
  | fixed kind => exact absurd rfl (hp kind)
  | number =>
    obtain ⟨c, ds, hc, -, rfl | ⟨e, es, -, -, rfl⟩⟩ := mem_number.mp h
    · exact if_pos (mem_digits.mp hc)
    · exact if_pos (mem_digits.mp hc)
  | string =>
    obtain ⟨inner, -, rfl⟩ := mem_string.mp h
    exact if_pos (by simp)
  | unterminated =>
    obtain ⟨inner, hi, rfl⟩ := mem_unterminated.mp h
    exact if_neg hi
  | identifier =>
    obtain ⟨c, cs, hc, -, rfl⟩ := mem_identifier.mp h
    have hc := mem_wordStarts.mp hc
    rw [ofHead, if_neg (by simp [isDigit_of_isWordStart hc]), if_pos hc]
  | comment =>
    obtain ⟨cs, -, rfl⟩ := mem_comment.mp h
    rfl
  | lineBreak =>
    obtain rfl := mem_lineBreak.mp h
    rfl
  | blank =>
    obtain ⟨c, cs, hc, -, rfl⟩ := mem_blank.mp h
    rcases hc with rfl | rfl | rfl | rfl <;> rfl

/-- How a fixed text does not start. -/
theorem spelling_head {kind : Kind} {c : Char} {cs : List Char}
    (h : c :: cs ∈ (fixed kind).language) :
    c ∉ digits ∧ c ≠ '"' ∧ c ≠ '\n' ∧ c ∉ blanks ∧ (cs.head? = some '/' → c ≠ '/') := by
  have h := mem_fixed.mp h
  rw [mem_digits, mem_blanks]
  cases kind with
  | identifier | string | number | eof => cases h
  | _ =>
    cases Segment.eq_toList_of_some h
    decide

/-- Only identifiers share texts with fixed tokens. -/
theorem not_mem_fixed {p : Pattern} {w : List Char} (h : w ∈ p.language)
    (hp : ∀ kind, p ≠ fixed kind) (hi : p ≠ identifier) (kind : Kind) :
    w ∉ (fixed kind).language := by
  intro hk
  cases p with
  | fixed kind => exact hp kind rfl
  | identifier => exact hi rfl
  | number =>
    obtain ⟨c, ds, hc, -, rfl | ⟨e, es, -, -, rfl⟩⟩ := mem_number.mp h
    · exact (spelling_head hk).1 hc
    · exact (spelling_head hk).1 hc
  | string =>
    obtain ⟨inner, -, rfl⟩ := mem_string.mp h
    exact (spelling_head hk).2.1 rfl
  | unterminated =>
    obtain ⟨inner, -, rfl⟩ := mem_unterminated.mp h
    exact (spelling_head hk).2.1 rfl
  | comment =>
    obtain ⟨cs, -, rfl⟩ := mem_comment.mp h
    exact (spelling_head hk).2.2.2.2 rfl rfl
  | lineBreak =>
    obtain rfl := mem_lineBreak.mp h
    exact (spelling_head hk).2.2.1 rfl
  | blank =>
    obtain ⟨c, cs, hc, -, rfl⟩ := mem_blank.mp h
    exact (spelling_head hk).2.2.2.1 hc

theorem ne_nil_of_mem {p : Pattern} {w : List Char} (h : w ∈ p.language) : w ≠ [] := by
  rintro rfl
  cases p with
  | number => simp [mem_number] at h
  | string => simp [mem_string] at h
  | unterminated => simp [mem_unterminated] at h
  | identifier => simp [mem_identifier] at h
  | comment => simp [mem_comment] at h
  | lineBreak => simp [mem_lineBreak] at h
  | blank => simp [mem_blank] at h
  | fixed kind =>
    have h := mem_fixed.mp h
    cases kind with
    | identifier | string | number | eof => cases h
    | _ => cases Segment.eq_toList_of_some h

namespace Leads

theorem eq_fixed {p : Pattern} {w text : List Char} {kind : Kind} (h : Leads p w text)
    (hk : w ∈ (fixed kind).language) : p = fixed kind := by
  by_cases hp : ∃ kind', p = fixed kind'
  · obtain ⟨kind', rfl⟩ := hp
    have hsame := (ofSpelling_of_mem h.matched).symm.trans (ofSpelling_of_mem hk)
    rw [Option.some.inj hsame]
  · have hp := not_exists.mp hp
    by_cases hi : p = identifier
    · exact absurd hk (h.reserved hi kind)
    · exact absurd hk (not_mem_fixed h.matched hp hi kind)

/-- There is one longest match, by one pattern. -/
theorem unique {p q : Pattern} {v w text : List Char} (hp : Leads p v text)
    (hq : Leads q w text) : p = q ∧ v = w := by
  have hlen : v.length = w.length :=
    le_antisymm (hq.longest p v hp.matched hp.isPrefix) (hp.longest q w hq.matched hq.isPrefix)
  have hvw : v = w :=
    (List.prefix_of_prefix_length_le hp.isPrefix hq.isPrefix hlen.le).eq_of_length hlen
  subst hvw
  refine ⟨?_, rfl⟩
  by_cases hk : ∃ kind, v ∈ (fixed kind).language
  · obtain ⟨kind, hk⟩ := hk
    rw [hp.eq_fixed hk, hq.eq_fixed hk]
  · have hne : ∀ {r : Pattern}, v ∈ r.language → ∀ kind, r ≠ fixed kind := by
      rintro r hr kind rfl
      exact hk ⟨kind, hr⟩
    rw [← ofHead_of_mem hp.matched (hne hp.matched), ofHead_of_mem hq.matched (hne hq.matched)]

end Leads

namespace Munch

theorem flatMap_text {cs : List Char} {pieces : List Piece} (h : Munch cs pieces) :
    pieces.flatMap Piece.text = cs := by
  induction h with
  | nil => rfl
  | matched _ _ ih => rw [List.flatMap_cons, ih, Piece.text]
  | stray _ _ ih => rw [List.flatMap_cons, ih, Piece.text, List.singleton_append]

theorem text_ne_nil {cs : List Char} {pieces : List Piece} (h : Munch cs pieces) :
    ∀ piece ∈ pieces, piece.text ≠ [] := by
  induction h with
  | nil => simp
  | matched hleads _ ih => exact List.forall_mem_cons.mpr ⟨ne_nil_of_mem hleads.matched, ih⟩
  | stray _ _ ih => exact List.forall_mem_cons.mpr ⟨List.cons_ne_nil _ _, ih⟩

/-- What a pattern matched in a text it also matches alone. -/
theorem leads_self {cs : List Char} {pieces : List Piece} {p : Pattern} {w : List Char}
    (h : Munch cs pieces) (hw : .matched p w ∈ pieces) : Leads p w w := by
  induction h with
  | nil => cases hw
  | matched hleads _ ih =>
    rcases List.mem_cons.mp hw with heq | hw
    · cases heq
      exact ⟨hleads.matched, List.prefix_rfl, fun _ _ _ hv => hv.length_le, hleads.reserved⟩
    · exact ih hw
  | stray _ _ ih =>
    rcases List.mem_cons.mp hw with heq | hw
    · cases heq
    · exact ih hw

theorem unique {cs : List Char} {ps qs : List Piece} (hp : Munch cs ps) (hq : Munch cs qs) :
    ps = qs := by
  induction hp generalizing qs with
  | nil =>
    generalize htext : ([] : List Char) = text at hq
    cases hq with
    | nil => rfl
    | matched hleads _ =>
      exact absurd (List.append_eq_nil_iff.mp htext.symm).1 (ne_nil_of_mem hleads.matched)
    | stray _ _ => cases htext
  | @matched p w rest pieces hleads _ ih =>
    generalize htext : w ++ rest = text at hq hleads
    cases hq with
    | nil => exact absurd (List.append_eq_nil_iff.mp htext).1 (ne_nil_of_mem hleads.matched)
    | matched hleads' hq =>
      obtain ⟨rfl, rfl⟩ := hleads.unique hleads'
      rw [ih (List.append_cancel_left htext ▸ hq)]
    | stray hnone _ => exact absurd hleads.isPrefix (hnone p w hleads.matched)
  | @stray c rest pieces hnone _ ih =>
    generalize htext : c :: rest = text at hq hnone
    cases hq with
    | nil => cases htext
    | matched hleads _ => exact absurd hleads.isPrefix (hnone _ _ hleads.matched)
    | stray _ hq =>
      cases htext
      rw [ih hq]

end Munch

/-- A token without its line. -/
def Token.content (token : Token) : Kind × String × Option Literal :=
  (token.kind, token.lexeme, token.literal)

/-- An error without its line: the unexpected character, or none for an unclosed string. -/
def ScanError.cause : ScanError → Option Char
  | unexpectedCharacter c _ => some c
  | unterminatedString _ => none

namespace Piece

/-- The token that a piece makes, if any: of the kind of its pattern, with the text of the
piece. -/
def content? : Piece → Option (Kind × String × Option Literal)
  | matched p w => p.kind?.map fun kind => (kind, String.ofList w, p.literal? w)
  | stray _ => none

/-- The error that a piece makes, if any. -/
def cause? : Piece → Option (Option Char)
  | matched .unterminated _ => some none
  | matched _ _ => none
  | stray c => some (some c)

end Piece

namespace Placed

/-- What depends on the segments alone can be read off the pieces. -/
theorem filterMap_along {β : Type} {f : Placed → Option β} {g : Piece → Option β}
    (h : ∀ placed piece, placed.toSegment = Piece.segment piece → f placed = g piece)
    (start line : Nat) (pieces : List Piece) :
    (along start line (pieces.map Piece.segment)).filterMap f = pieces.filterMap g := by
  induction pieces generalizing start line with
  | nil => rfl
  | cons piece pieces ih =>
    rw [List.map_cons, along, List.filterMap_cons, List.filterMap_cons, ih, h _ piece rfl]

theorem content_token? (placed : Placed) (piece : Piece)
    (h : placed.toSegment = piece.segment) : placed.token?.map Token.content = piece.content? := by
  have hrole : placed.role = piece.role := congrArg Segment.role h
  have htext : placed.text = piece.text := congrArg Segment.text h
  rw [token?, hrole, htext]
  cases piece with
  | stray c => rfl
  | matched p w => cases p <;> rfl

theorem cause_error? (placed : Placed) (piece : Piece)
    (h : placed.toSegment = piece.segment) : placed.error?.map ScanError.cause = piece.cause? := by
  have hrole : placed.role = piece.role := congrArg Segment.role h
  rw [error?, hrole]
  cases piece with
  | stray c => rfl
  | matched p w => cases p <;> rfl

end Placed

namespace Munch

theorem split_eq {cs : List Char} {pieces : List Piece} (h : Munch cs pieces) :
    Segment.split cs = pieces.map Piece.segment := by
  obtain ⟨others, hothers, hsplit⟩ := munch_split cs
  rw [hsplit, hothers.unique h]

/-- The tokens of a text, without their lines, are those of its pieces. -/
theorem map_content {cs : List Char} {pieces : List Piece} (h : Munch cs pieces) (line : Nat) :
    ((Source.layout cs line).filterMap Placed.token?).map Token.content =
      pieces.filterMap Piece.content? := by
  rw [Source.layout, h.split_eq, List.map_filterMap]
  exact Placed.filterMap_along Placed.content_token? 0 line pieces

/-- The errors of a text, without their lines, are those of its pieces. -/
theorem map_cause {cs : List Char} {pieces : List Piece} (h : Munch cs pieces) (line : Nat) :
    ((Source.layout cs line).filterMap Placed.error?).map ScanError.cause =
      pieces.filterMap Piece.cause? := by
  rw [Source.layout, h.split_eq, List.map_filterMap]
  exact Placed.filterMap_along Placed.cause_error? 0 line pieces

/-- A token is made by a pattern, which matches its lexeme also when that stands alone. -/
theorem exists_leads {cs : List Char} {pieces : List Piece} {line : Nat} {token : Token}
    (h : Munch cs pieces) (ht : token ∈ (Source.layout cs line).filterMap Placed.token?) :
    ∃ p : Pattern, p.kind? = some token.kind ∧
      Leads p token.lexeme.toList token.lexeme.toList ∧
      token.literal = p.literal? token.lexeme.toList := by
  have hmem := List.mem_map_of_mem (f := Token.content) ht
  rw [h.map_content] at hmem
  obtain ⟨piece, hpiece, hcontent⟩ := List.mem_filterMap.mp hmem
  cases piece with
  | stray c => cases hcontent
  | matched p w =>
    obtain ⟨kind, hkind, heq⟩ := Option.map_eq_some_iff.mp hcontent
    obtain ⟨hk, hlexeme, hliteral⟩ : kind = token.kind ∧ String.ofList w = token.lexeme ∧
        p.literal? w = token.literal := by
      simpa [Token.content] using heq
    have hw : token.lexeme.toList = w := by rw [← hlexeme, String.toList_ofList]
    rw [hw]
    exact ⟨p, hk ▸ hkind, h.leads_self hpiece, hliteral.symm⟩

/-- A token is made by the pattern of a piece. -/
theorem exists_pattern {cs : List Char} {pieces : List Piece} {line : Nat} {token : Token}
    (h : Munch cs pieces) (ht : token ∈ (Source.layout cs line).filterMap Placed.token?) :
    ∃ p : Pattern, p.kind? = some token.kind ∧ token.lexeme.toList ∈ p.language ∧
      token.literal = p.literal? token.lexeme.toList := by
  obtain ⟨p, hkind, hleads, hliteral⟩ := h.exists_leads ht
  exact ⟨p, hkind, hleads.matched, hliteral⟩

end Munch

/-- No pattern makes the closing token. -/
theorem kind_ne_eof {p : Pattern} {w : List Char} {kind : Kind} (hw : w ∈ p.language)
    (hp : p.kind? = some kind) : kind ≠ .eof := by
  rintro rfl
  cases p with
  | fixed kind =>
    cases hp
    cases mem_fixed.mp hw
  | _ => cases hp

/-- A numeral is digits with an optional fraction. -/
theorem exists_digits {w : List Char} (h : w ∈ number.language) :
    ∃ whole fraction : List Char,
      w = (whole ++ if fraction = [] then [] else '.' :: fraction) ∧
      ∀ d ∈ whole ++ fraction, d.isDigit := by
  obtain ⟨c, ds, hc, hds, hw⟩ := mem_number.mp h
  have hwhole : ∀ d ∈ c :: ds, d.isDigit := fun d hd =>
    mem_digits.mp (List.forall_mem_cons.mpr ⟨hc, hds⟩ d hd)
  rcases hw with rfl | ⟨e, es, he, hes, rfl⟩
  · refine ⟨c :: ds, [], (List.append_nil _).symm, ?_⟩
    rwa [List.append_nil]
  · have hfraction : ∀ d ∈ e :: es, d.isDigit := fun d hd =>
      mem_digits.mp (List.forall_mem_cons.mpr ⟨he, hes⟩ d hd)
    refine ⟨c :: ds, e :: es, rfl, fun d hd => ?_⟩
    exact (List.mem_append.mp hd).elim (hwhole d) (hfraction d)

/-- The literal of a numeral is the one number nearest to what the numeral denotes. -/
theorem exists_numeral {w : List Char} (h : w ∈ number.language) :
    ∃ whole fraction : List Char,
      w = (whole ++ if fraction = [] then [] else '.' :: fraction) ∧
      (∀ d ∈ whole ++ fraction, d.isDigit) ∧
      ∀ x, literal? number w = some (.number x) ↔
        Number.IsNearest x (Number.numeralValue whole fraction) := by
  obtain ⟨whole, fraction, hw, hdigits⟩ := exists_digits h
  have hwhole : ∀ d ∈ whole, d.isDigit := fun d hd => hdigits d (List.mem_append_left fraction hd)
  refine ⟨whole, fraction, hw, hdigits, fun x => ?_⟩
  rw [hw, Segment.literal?_number hwhole, Number.isNearest_numeralValue, Option.some.injEq,
    Literal.number.injEq]
  exact eq_comm

/-- A source text has one cut into pieces, which are not empty and make up the text. The
tokens before the closing `eof`, and the errors, are those of the pieces, in order. The
literal of a number is the one nearest to its numeral. -/
theorem scan_maximal_munch (source : String) :
    ∃ pieces : List Piece,
      (∀ others, Munch source.toList others ↔ others = pieces) ∧
      pieces.flatMap Piece.text = source.toList ∧
      (∀ piece ∈ pieces, piece.text ≠ []) ∧
      (∃ tokens line, (scan source).tokens = tokens ++ [Token.eof line] ∧
        (∀ token ∈ tokens, token.kind ≠ .eof) ∧
        tokens.map Token.content = pieces.filterMap Piece.content?) ∧
      (scan source).errors.map ScanError.cause = pieces.filterMap Piece.cause? ∧
      (∀ w, .matched number w ∈ pieces → ∃ whole fraction : List Char,
        w = (whole ++ if fraction = [] then [] else '.' :: fraction) ∧
        (∀ d ∈ whole ++ fraction, d.isDigit) ∧
        ∀ x, literal? number w = some (.number x) ↔
          Number.IsNearest x (Number.numeralValue whole fraction)) := by
  obtain ⟨pieces, hmunch, -⟩ := munch_split source.toList
  refine ⟨pieces, fun others => ⟨fun h => h.unique hmunch, ?_⟩, hmunch.flatMap_text,
    hmunch.text_ne_nil, ⟨_, _, rfl, fun token ht => ?_, hmunch.map_content 1⟩, hmunch.map_cause 1,
    fun w hw => exists_numeral (hmunch.leads_self hw).matched⟩
  · rintro rfl
    exact hmunch
  · obtain ⟨p, hkind, hw, -⟩ := hmunch.exists_pattern ht
    exact kind_ne_eof hw hkind

end Reckon
