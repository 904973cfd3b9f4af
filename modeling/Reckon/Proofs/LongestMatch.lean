import Mathlib.Data.List.TakeWhile
import Mathlib.Tactic.Tauto
import Reckon.Proofs.Pattern

/-!
# The front segment of a text is the longest match

Two facts about the segment at the front of a text. No text that a pattern matches
there is longer, and at a stray character no pattern matches at all. The text of the
segment is matched by a pattern, whose tokens it is read as.
-/
namespace Reckon
open Pattern

namespace Pattern

/-- The kind of the tokens that a pattern makes, if it makes any. -/
def kind? : Pattern → Option Kind
  | number => some .number
  | string => some .string
  | fixed kind => some kind
  | identifier => some .identifier
  | unterminated | comment | lineBreak | blank => none

/-- The literal of a text that a pattern matches: the value of the digits before and
after the point, or what stands between the quotes. -/
def literal? : Pattern → List Char → Option Literal
  | number, w =>
    some (.number (Number.ofNumeral (w.takeWhile Char.isDigit) (w.dropWhile Char.isDigit).tail))
  | string, w => some (.string (String.ofList w.tail.dropLast))
  | _, _ => none

/-- What a text contributes that a pattern matches. -/
def role : Pattern → List Char → Role
  | unterminated, _ => .unclosed
  | p, w =>
    match p.kind? with
    | some kind => .token kind (p.literal? w)
    | none => .trivia

end Pattern

/-- `Leads p w text`: the longest match at the front of `text` is `w`, by the pattern
`p`. A text that is always the same kind of token is no identifier. -/
structure Leads (p : Pattern) (w text : List Char) : Prop where
  matched : w ∈ p.language
  isPrefix : w <+: text
  longest : ∀ (q : Pattern) (v : List Char), v ∈ q.language → v <+: text → v.length ≤ w.length
  reserved : p = .identifier → ∀ kind, w ∉ (fixed kind).language

theorem mem_digits {c : Char} : c ∈ digits ↔ c.isDigit := by
  simp only [digits, Set.mem_Icc, Char.isDigit, Char.le_def, Bool.and_eq_true, decide_eq_true_eq,
    ge_iff_le]

theorem mem_wordStarts {c : Char} : c ∈ wordStarts ↔ Segment.isWordStart c := by
  have hupper : c.isUpper ↔ c ∈ Set.Icc 'A' 'Z' := decide_eq_true_iff
  have hlower : c.isLower ↔ c ∈ Set.Icc 'a' 'z' := by
    change (decide ('a' ≤ c) && decide (c ≤ 'z')) = true ↔ 'a' ≤ c ∧ c ≤ 'z'
    rw [Bool.and_eq_true, decide_eq_true_iff, decide_eq_true_iff]
  have hstart : Segment.isWordStart c ↔ (c.isUpper ∨ c.isLower) ∨ c = '_' := by
    change (c.isUpper || c.isLower || c == '_') = true ↔ _
    rw [Bool.or_eq_true, Bool.or_eq_true, beq_iff_eq]
  rw [hstart, hupper, hlower, wordStarts, Set.mem_union, Set.mem_union, Set.mem_singleton_iff]
  tauto

theorem mem_wordChars {c : Char} : c ∈ wordChars ↔ Segment.isWordChar c := by
  have h : Segment.isWordChar c ↔ Segment.isWordStart c ∨ c.isDigit := by
    simp only [Segment.isWordChar, Segment.isWordStart, Char.isAlphanum, Bool.or_eq_true]
    tauto
  rw [h, ← mem_wordStarts, ← mem_digits]
  rfl

theorem mem_blanks {c : Char} : c ∈ blanks ↔ Segment.isBlank c := by
  simp [blanks, Segment.isBlank, or_assoc]

theorem isDigit_of_isWordStart {c : Char} (h : Segment.isWordStart c) : c.isDigit = false := by
  rw [Bool.eq_false_iff, Ne, ← mem_digits]
  intro hd
  rcases mem_wordStarts.mpr h with (⟨h, -⟩ | ⟨h, -⟩) | rfl
  · exact absurd (le_trans h hd.2) (by decide)
  · exact absurd (le_trans h hd.2) (by decide)
  · exact absurd hd.2 (by decide)

namespace Segment

theorem leading_of_digit {c : Char} (h : c.isDigit) (cs : List Char) :
    leading c cs = numeral c cs := by
  rw [leading, if_pos h]

theorem leading_of_wordStart {c : Char} (h : isWordStart c) (cs : List Char) :
    leading c cs = word c cs := by
  rw [leading, if_neg (by simp [isDigit_of_isWordStart h]), if_pos h]

theorem leading_quote (cs : List Char) : leading '"' cs = quoted cs := rfl

theorem leading_comment (cs : List Char) :
    leading '/' ('/' :: cs) = (.trivia, (('/' :: cs).takeWhile (· != '\n')).length) := rfl

theorem leading_lineBreak (cs : List Char) : leading '\n' cs = (.trivia, 0) := rfl

theorem leading_of_blank {c : Char} (h : isBlank c) (cs : List Char) :
    leading c cs = (.trivia, (cs.takeWhile isBlank).length) := by
  rcases mem_blanks.mpr h with rfl | rfl | rfl | rfl <;> rfl

theorem length_le_takeWhile {p : Char → Bool} {ds cs : List Char} (h : ds <+: cs)
    (hp : ∀ d ∈ ds, p d) : ds.length ≤ (cs.takeWhile p).length := by
  obtain ⟨r, rfl⟩ := h
  rw [List.takeWhile_append_of_pos hp, List.length_append]
  exact Nat.le_add_right _ _

theorem takeWhile_append_cons {p : Char → Bool} {ds : List Char} {d : Char} (r : List Char)
    (hp : ∀ d ∈ ds, p d) (hd : p d = false) : (ds ++ d :: r).takeWhile p = ds := by
  rw [List.takeWhile_append_of_pos hp, List.takeWhile_cons_of_neg (by simp [hd]), List.append_nil]

theorem dropWhile_append_cons {p : Char → Bool} {ds : List Char} {d : Char} (r : List Char)
    (hp : ∀ d ∈ ds, p d) (hd : p d = false) : (ds ++ d :: r).dropWhile p = d :: r := by
  rw [List.dropWhile_append_of_pos hp, List.dropWhile_cons_of_neg (by simp [hd])]

theorem bne_of_not_mem {q : Char} {ds : List Char} (h : q ∉ ds) : ∀ d ∈ ds, (d != q) = true := by
  intro d hd
  simpa using ne_of_mem_of_not_mem hd h

theorem not_mem_takeWhile_bne (q : Char) (cs : List Char) : q ∉ cs.takeWhile (· != q) := by
  intro h
  have := List.mem_takeWhile_imp h
  simp at this

/-- The front segment is not shorter than a text that a pattern matches there. -/
def Reaches (c : Char) (cs v : List Char) : Prop :=
  v.length ≤ (leading c cs).2 + 1 ∧ ∀ d, (leading c cs).1 ≠ .stray d

theorem reaches_number {c : Char} {cs v : List Char} (hv : v ∈ Pattern.number.language)
    (hp : v <+: c :: cs) : Reaches c cs v := by
  obtain ⟨c', ds, hc, hds, hw⟩ := mem_number.mp hv
  have hc := mem_digits.mp hc
  have hds : ∀ d ∈ ds, d.isDigit := fun d hd => mem_digits.mp (hds d hd)
  have hdot : '.'.isDigit = false := rfl
  rcases hw with rfl | ⟨e, es, he, hes, rfl⟩
  · obtain ⟨rfl, ht⟩ := List.cons_prefix_cons.mp hp
    have hle := length_le_takeWhile ht hds
    rw [Reaches, leading_of_digit hc]
    refine ⟨?_, fun d => by simp [numeral]⟩
    simp only [numeral, List.length_cons]
    omega
  · obtain ⟨rfl, r, rfl⟩ := List.cons_prefix_cons.mp hp
    have hes : ∀ d ∈ e :: es, d.isDigit := by
      intro d hd
      rcases List.mem_cons.mp hd with rfl | hd
      · exact mem_digits.mp he
      · exact mem_digits.mp (hes d hd)
    have hle : es.length + 1 ≤ ((e :: es ++ r).takeWhile Char.isDigit).length :=
      length_le_takeWhile (List.prefix_append (e :: es) r) hes
    have hne : ((e :: es ++ r).takeWhile Char.isDigit).isEmpty = false := by
      rw [List.isEmpty_eq_false_iff, ← List.length_pos_iff]
      omega
    rw [Reaches, leading_of_digit hc, List.append_assoc]
    refine ⟨?_, fun d => by simp [numeral]⟩
    simp only [numeral, List.cons_append, takeWhile_append_cons _ hds hdot,
      dropWhile_append_cons _ hds hdot]
    simp only [List.cons_append] at hne hle
    simp only [hne, Bool.false_eq_true, if_false, List.length_cons, List.length_append]
    omega

theorem reaches_string {c : Char} {cs v : List Char} (hv : v ∈ Pattern.string.language)
    (hp : v <+: c :: cs) : Reaches c cs v := by
  obtain ⟨inner, hi, rfl⟩ := mem_string.mp hv
  obtain ⟨rfl, r, rfl⟩ := List.cons_prefix_cons.mp hp
  have hin := bne_of_not_mem hi
  have hq : ('"' != '"') = false := rfl
  rw [Reaches, leading_quote, List.append_assoc, List.singleton_append]
  simp only [quoted, takeWhile_append_cons r hin hq, dropWhile_append_cons r hin hq]
  exact ⟨by simp, fun d => by simp⟩

theorem reaches_unterminated {c : Char} {cs v : List Char}
    (hv : v ∈ Pattern.unterminated.language) (hp : v <+: c :: cs) : Reaches c cs v := by
  obtain ⟨inner, hi, rfl⟩ := mem_unterminated.mp hv
  obtain ⟨rfl, ht⟩ := List.cons_prefix_cons.mp hp
  have hle := length_le_takeWhile ht (bne_of_not_mem hi)
  rw [Reaches, leading_quote, quoted]
  split
  · exact ⟨by simpa using hle, fun d => by simp⟩
  · refine ⟨?_, fun d => by simp⟩
    simp only [List.length_cons]
    omega

theorem reaches_identifier {c : Char} {cs v : List Char}
    (hv : v ∈ Pattern.identifier.language) (hp : v <+: c :: cs) : Reaches c cs v := by
  obtain ⟨c', ds, hc, hds, rfl⟩ := mem_identifier.mp hv
  obtain ⟨rfl, ht⟩ := List.cons_prefix_cons.mp hp
  have hle := length_le_takeWhile ht fun d hd => mem_wordChars.mp (hds d hd)
  rw [Reaches, leading_of_wordStart (mem_wordStarts.mp hc), word]
  exact ⟨by simpa using hle, fun d => by simp⟩

theorem reaches_comment {c : Char} {cs v : List Char}
    (hv : v ∈ Pattern.comment.language) (hp : v <+: c :: cs) : Reaches c cs v := by
  obtain ⟨ds, hds, rfl⟩ := mem_comment.mp hv
  obtain ⟨rfl, ht⟩ := List.cons_prefix_cons.mp hp
  have hin : '\n' ∉ '/' :: ds := List.not_mem_cons_of_ne_of_not_mem (by decide) hds
  have hle := length_le_takeWhile ht (bne_of_not_mem hin)
  obtain ⟨r, rfl⟩ := ht
  rw [Reaches, List.cons_append, leading_comment]
  exact ⟨by simpa using hle, fun d => by simp⟩

theorem reaches_lineBreak {c : Char} {cs v : List Char}
    (hv : v ∈ Pattern.lineBreak.language) (hp : v <+: c :: cs) : Reaches c cs v := by
  obtain rfl := mem_lineBreak.mp hv
  obtain ⟨rfl, -⟩ := List.cons_prefix_cons.mp hp
  rw [Reaches, leading_lineBreak]
  exact ⟨by simp, fun d => by simp⟩

theorem reaches_blank {c : Char} {cs v : List Char}
    (hv : v ∈ Pattern.blank.language) (hp : v <+: c :: cs) : Reaches c cs v := by
  obtain ⟨c', ds, hc, hds, rfl⟩ := mem_blank.mp hv
  obtain ⟨rfl, ht⟩ := List.cons_prefix_cons.mp hp
  have hle := length_le_takeWhile ht fun d hd => mem_blanks.mp (hds d hd)
  rw [Reaches, leading_of_blank (mem_blanks.mp hc)]
  exact ⟨by simpa using hle, fun d => by simp⟩

/-- Whether a text has the form of a word. -/
def isWord : List Char → Bool
  | [] => false
  | c :: cs => isWordStart c && cs.all isWordChar

theorem isWord_iff {w : List Char} : isWord w ↔ w ∈ Pattern.identifier.language := by
  rw [mem_identifier]
  cases w with
  | nil => simp [isWord]
  | cons c cs =>
    simp only [isWord, Bool.and_eq_true, List.all_eq_true, ← mem_wordStarts, ← mem_wordChars,
      List.cons.injEq]
    constructor
    · rintro ⟨hc, hcs⟩
      exact ⟨c, cs, hc, hcs, rfl, rfl⟩
    · rintro ⟨c', cs', hc, hcs, rfl, rfl⟩
      exact ⟨hc, hcs⟩

theorem eq_toList_of_some {text : String} {w : List Char}
    (h : some text = some (String.ofList w)) : w = text.toList := by
  rw [Option.some.inj h, String.toList_ofList]

/-- A fixed text is a word, a symbol, or a symbol with an equals sign. -/
theorem spelling_cases {kind : Kind} {w : List Char}
    (h : kind.spelling? = some (String.ofList w)) :
    isWord w ∨ (∃ c, w = [c] ∧ Kind.ofChar? c = some kind) ∨
      ∃ c, w = [c, '='] ∧ Kind.withEqual? c = some kind := by
  cases kind with
  | identifier | string | number | eof => cases h
  | andWord | classWord | elseWord | falseWord | forWord | funWord | ifWord | nilWord
  | orWord | printWord | returnWord | superWord | thisWord | trueWord | varWord | whileWord =>
    rw [eq_toList_of_some h]
    exact .inl rfl
  | leftParen | rightParen | leftBrace | rightBrace | comma | dot | minus | plus | semicolon
  | star | slash | bang | equal | greater | less | question | colon =>
    rw [eq_toList_of_some h]
    exact .inr (.inl ⟨_, rfl, rfl⟩)
  | bangEqual | equalEqual | greaterEqual | lessEqual =>
    rw [eq_toList_of_some h]
    exact .inr (.inr ⟨_, rfl, rfl⟩)

theorem symbol_ne_stray {c : Char} {kind : Kind} (h : Kind.ofChar? c = some kind) (cs : List Char)
    (d : Char) : (symbol c cs).1 ≠ .stray d := by
  unfold symbol
  split <;> simp_all

theorem leading_ne_stray {c : Char} {kind : Kind} (h : Kind.ofChar? c = some kind)
    (cs : List Char) (d : Char) : (leading c cs).1 ≠ .stray d := by
  unfold leading
  split_ifs
  · simp [numeral]
  · simp [word]
  · unfold quoted
    split <;> simp
  · simp
  · simp
  · simp
  · exact symbol_ne_stray h cs d

theorem leading_withEqual {c : Char} {kind : Kind} (h : Kind.withEqual? c = some kind)
    (cs : List Char) : leading c ('=' :: cs) = (.token kind none, 1) := by
  unfold Kind.withEqual? at h
  split at h <;> cases h <;> rfl

theorem reaches_fixed {kind : Kind} {c : Char} {cs v : List Char}
    (hv : v ∈ (Pattern.fixed kind).language) (hp : v <+: c :: cs) : Reaches c cs v := by
  rcases spelling_cases (mem_fixed.mp hv) with hw | ⟨c', rfl, hk⟩ | ⟨c', rfl, hk⟩
  · exact reaches_identifier (isWord_iff.mp hw) hp
  · obtain ⟨rfl, -⟩ := List.cons_prefix_cons.mp hp
    exact ⟨by simp, leading_ne_stray hk cs⟩
  · obtain ⟨rfl, r, rfl⟩ := List.cons_prefix_cons.mp hp
    rw [Reaches, List.singleton_append, leading_withEqual hk]
    exact ⟨by simp, fun d => by simp⟩

/-- No pattern matches more than the front segment, nor anything at a stray character. -/
theorem reaches_of_mem {q : Pattern} {c : Char} {cs v : List Char} (hv : v ∈ q.language)
    (hp : v <+: c :: cs) : Reaches c cs v := by
  cases q with
  | number => exact reaches_number hv hp
  | string => exact reaches_string hv hp
  | unterminated => exact reaches_unterminated hv hp
  | fixed kind => exact reaches_fixed hv hp
  | identifier => exact reaches_identifier hv hp
  | comment => exact reaches_comment hv hp
  | lineBreak => exact reaches_lineBreak hv hp
  | blank => exact reaches_blank hv hp

/-- A role is what a pattern makes of a text. -/
structure Explains (p : Pattern) (role : Role) (w : List Char) : Prop where
  matched : w ∈ p.language
  role_eq : role = p.role w
  reserved : p = .identifier → ∀ kind, w ∉ (Pattern.fixed kind).language

theorem explains_of_ne {p : Pattern} {role : Role} {w : List Char} (hp : p ≠ .identifier)
    (hw : w ∈ p.language) (hrole : role = p.role w) : Explains p role w :=
  ⟨hw, hrole, fun h => absurd h hp⟩

theorem take_takeWhile_add (p : Char → Bool) (cs : List Char) (n : Nat) :
    cs.take ((cs.takeWhile p).length + n) = cs.takeWhile p ++ (cs.dropWhile p).take n := by
  have hcs : cs.takeWhile p ++ cs.dropWhile p = cs := List.takeWhile_append_dropWhile
  nth_rewrite 2 [← hcs]
  exact List.take_length_add_append n

theorem take_takeWhile (p : Char → Bool) (cs : List Char) :
    cs.take (cs.takeWhile p).length = cs.takeWhile p := by
  simpa using take_takeWhile_add p cs 0

theorem drop_takeWhile (p : Char → Bool) (cs : List Char) :
    cs.drop (cs.takeWhile p).length = cs.dropWhile p := by
  have hcs := List.take_append_drop (cs.takeWhile p).length cs
  rw [take_takeWhile] at hcs
  exact List.append_cancel_left (hcs.trans List.takeWhile_append_dropWhile.symm)

/-- The digits before the point, and the point with the digits behind it if there are any. -/
theorem numeral_cut (c : Char) (cs : List Char) :
    ∃ fraction, (∀ d ∈ fraction, d.isDigit) ∧
      (numeral c cs).1 = .token .number
        (some (.number (Number.ofNumeral (c :: cs.takeWhile Char.isDigit) fraction))) ∧
      cs.take (numeral c cs).2 = cs.takeWhile Char.isDigit ++
        if fraction = [] then [] else '.' :: fraction := by
  unfold numeral
  split
  next rest hrest =>
    refine ⟨rest.takeWhile Char.isDigit, fun d => List.mem_takeWhile_imp, rfl, ?_⟩
    rw [take_takeWhile_add, hrest]
    by_cases hf : rest.takeWhile Char.isDigit = []
    · simp [hf]
    · simp [hf, take_takeWhile]
  next =>
    exact ⟨[], by simp, rfl, by simp [take_takeWhile]⟩

theorem literal?_number {whole fraction : List Char} (h : ∀ d ∈ whole, d.isDigit) :
    literal? .number (whole ++ if fraction = [] then [] else '.' :: fraction) =
      some (.number (Number.ofNumeral whole fraction)) := by
  have hdot : '.'.isDigit = false := rfl
  rw [literal?]
  by_cases hf : fraction = []
  · have hw : whole.takeWhile Char.isDigit = whole := List.takeWhile_eq_self_iff.mpr h
    have hd : whole.dropWhile Char.isDigit = [] := List.dropWhile_eq_nil_iff.mpr h
    simp [hf, hw, hd]
  · rw [if_neg hf, takeWhile_append_cons _ h hdot, dropWhile_append_cons _ h hdot, List.tail_cons]

theorem mem_number_of_isDigit {c : Char} {whole fraction : List Char} (hc : c.isDigit)
    (hwhole : ∀ d ∈ whole, d.isDigit) (hfraction : ∀ d ∈ fraction, d.isDigit) :
    (c :: whole ++ if fraction = [] then [] else '.' :: fraction) ∈ number.language := by
  refine mem_number.mpr ⟨c, whole, mem_digits.mpr hc, fun d hd => mem_digits.mpr (hwhole d hd), ?_⟩
  cases fraction with
  | nil => exact .inl (List.append_nil _)
  | cons e es =>
    have he : e ∈ digits := mem_digits.mpr (hfraction e List.mem_cons_self)
    have hes : ∀ d ∈ es, d ∈ digits := fun d hd =>
      mem_digits.mpr (hfraction d (List.mem_cons_of_mem e hd))
    exact .inr ⟨e, es, he, hes, rfl⟩

theorem explains_number {c : Char} (h : c.isDigit) (cs : List Char) :
    Explains .number (leading c cs).1 (c :: cs.take (leading c cs).2) := by
  obtain ⟨fraction, hf, hrole, hcut⟩ := numeral_cut c cs
  rw [leading_of_digit h, hrole, hcut, ← List.cons_append]
  have hwhole : ∀ d ∈ cs.takeWhile Char.isDigit, d.isDigit := fun d => List.mem_takeWhile_imp
  generalize cs.takeWhile Char.isDigit = whole at hwhole
  refine explains_of_ne (by simp) (mem_number_of_isDigit h hwhole hf) ?_
  have hall : ∀ d ∈ c :: whole, d.isDigit := List.forall_mem_cons.mpr ⟨h, hwhole⟩
  rw [← literal?_number hall]
  rfl

/-- A reserved word is the text of its kind. -/
theorem spelling_ofWord (w : List Char) :
    Kind.ofWord w = .identifier ∨ (Kind.ofWord w).spelling? = some (String.ofList w) := by
  have hall : ∀ entry ∈ Kind.keywords, entry.2.spelling? = some entry.1 := by decide
  rw [Kind.ofWord]
  cases hl : Kind.keywords.lookup (String.ofList w) with
  | none => exact .inl rfl
  | some kind =>
    obtain ⟨_, _, hk, -⟩ := List.lookup_eq_some_iff.mp hl
    exact .inr (hall (String.ofList w, kind) (by rw [hk]; simp))

theorem ofWord_of_spelling {kind : Kind} {w : List Char} (hw : isWord w)
    (h : kind.spelling? = some (String.ofList w)) : Kind.ofWord w = kind := by
  cases kind with
  | identifier | string | number | eof => cases h
  | andWord | classWord | elseWord | falseWord | forWord | funWord | ifWord | nilWord
  | orWord | printWord | returnWord | superWord | thisWord | trueWord | varWord | whileWord =>
    rw [eq_toList_of_some h]
    rfl
  | leftParen | rightParen | leftBrace | rightBrace | comma | dot | minus | plus | semicolon
  | star | slash | bang | equal | greater | less | question | colon
  | bangEqual | equalEqual | greaterEqual | lessEqual =>
    rw [eq_toList_of_some h] at hw
    cases hw

theorem explains_word {c : Char} (h : isWordStart c) (cs : List Char) :
    ∃ p, Explains p (leading c cs).1 (c :: cs.take (leading c cs).2) := by
  rw [leading_of_wordStart h, word]
  simp only [take_takeWhile]
  have hw : isWord (c :: cs.takeWhile isWordChar) := by
    rw [isWord, h, Bool.true_and, List.all_eq_true]
    exact fun d => List.mem_takeWhile_imp
  generalize c :: cs.takeWhile isWordChar = w at hw
  by_cases hk : Kind.ofWord w = .identifier
  · refine ⟨.identifier, isWord_iff.mp hw, by rw [hk]; rfl, fun _ kind hkind => ?_⟩
    have := ofWord_of_spelling hw (mem_fixed.mp hkind)
    rw [mem_fixed, ← this, hk] at hkind
    cases hkind
  · have hspelling := (spelling_ofWord w).resolve_left hk
    exact ⟨.fixed (Kind.ofWord w), explains_of_ne (by simp) (mem_fixed.mpr hspelling) rfl⟩

theorem explains_quoted (cs : List Char) :
    ∃ p, Explains p (leading '"' cs).1 ('"' :: cs.take (leading '"' cs).2) := by
  have hin := not_mem_takeWhile_bne '"' cs
  rw [leading_quote, quoted]
  split
  next hd =>
    simp only [take_takeWhile]
    exact ⟨.unterminated, explains_of_ne (by simp) (mem_unterminated.mpr ⟨_, hin, rfl⟩) rfl⟩
  next d rest hd =>
    have hq : d = '"' := by
      have := List.head?_dropWhile_not (· != '"') cs
      rw [hd] at this
      simpa using this
    simp only [take_takeWhile_add, hd, hq, List.take_succ_cons, List.take_zero]
    refine ⟨.string, explains_of_ne (by simp) (mem_string.mpr ⟨_, hin, rfl⟩) ?_⟩
    simp [Pattern.role, Pattern.kind?, literal?]

theorem explains_comment (cs : List Char) :
    Explains .comment (leading '/' ('/' :: cs)).1
      ('/' :: ('/' :: cs).take (leading '/' ('/' :: cs)).2) := by
  have hin := not_mem_takeWhile_bne '\n' cs
  rw [leading_comment]
  simp only [take_takeWhile]
  exact explains_of_ne (by simp) (mem_comment.mpr ⟨_, hin, rfl⟩) rfl

theorem explains_blank {c : Char} (h : isBlank c) (cs : List Char) :
    Explains .blank (leading c cs).1 (c :: cs.take (leading c cs).2) := by
  rw [leading_of_blank h]
  simp only [take_takeWhile]
  have hin : ∀ d ∈ cs.takeWhile isBlank, d ∈ blanks := fun d hd =>
    mem_blanks.mpr (List.mem_takeWhile_imp hd)
  exact explains_of_ne (by simp) (mem_blank.mpr ⟨c, _, mem_blanks.mpr h, hin, rfl⟩) rfl

theorem spelling_ofChar {c : Char} {kind : Kind} (h : Kind.ofChar? c = some kind) :
    kind.spelling? = some (String.ofList [c]) := by
  unfold Kind.ofChar? at h
  split at h <;> cases h <;> rfl

theorem spelling_withEqual {c : Char} {kind : Kind} (h : Kind.withEqual? c = some kind) :
    kind.spelling? = some (String.ofList [c, '=']) := by
  unfold Kind.withEqual? at h
  split at h <;> cases h <;> rfl

theorem explains_symbol (c : Char) (cs : List Char) :
    (∃ p, Explains p (symbol c cs).1 (c :: cs.take (symbol c cs).2)) ∨
      symbol c cs = (.stray c, 0) := by
  unfold symbol
  split
  next kind heq =>
    split_ifs at heq with hh
    obtain ⟨t, rfl⟩ := List.head?_eq_some_iff.mp hh
    exact .inl ⟨.fixed kind, explains_of_ne (by simp) (mem_fixed.mpr (spelling_withEqual heq)) rfl⟩
  next kind _ heq =>
    exact .inl ⟨.fixed kind, explains_of_ne (by simp) (mem_fixed.mpr (spelling_ofChar heq)) rfl⟩
  next => exact .inr rfl

/-- The front segment is what some pattern makes of its text, or a stray character. -/
theorem explains_leading (c : Char) (cs : List Char) :
    (∃ p, Explains p (leading c cs).1 (c :: cs.take (leading c cs).2)) ∨
      leading c cs = (.stray c, 0) := by
  by_cases hdigit : c.isDigit
  · exact .inl ⟨.number, explains_number hdigit cs⟩
  by_cases hstart : isWordStart c
  · exact .inl (explains_word hstart cs)
  by_cases hquote : c = '"'
  · exact .inl (hquote ▸ explains_quoted cs)
  by_cases hslash : c = '/' ∧ cs.head? = some '/'
  · obtain ⟨rfl, hh⟩ := hslash
    obtain ⟨t, rfl⟩ := List.head?_eq_some_iff.mp hh
    exact .inl ⟨.comment, explains_comment t⟩
  by_cases hbreak : c = '\n'
  · subst hbreak
    exact .inl ⟨.lineBreak, explains_of_ne (by simp) (mem_lineBreak.mpr rfl) rfl⟩
  by_cases hblank : isBlank c
  · exact .inl ⟨.blank, explains_blank hblank cs⟩
  have hlead : leading c cs = symbol c cs := by
    rw [leading, if_neg hdigit, if_neg hstart, if_neg hquote, if_neg hslash, if_neg hbreak,
      if_neg hblank]
  rw [hlead]
  exact explains_symbol c cs

/-- Either the longest match at the front is the text of the front segment, which is
read accordingly, or no pattern matches there. -/
theorem leads_leading (c : Char) (cs : List Char) :
    (∃ p, Leads p (c :: cs.take (leading c cs).2) (c :: cs) ∧
      (leading c cs).1 = p.role (c :: cs.take (leading c cs).2)) ∨
    leading c cs = (.stray c, 0) ∧
      ∀ (p : Pattern) (w : List Char), w ∈ p.language → ¬ w <+: c :: cs := by
  rcases explains_leading c cs with ⟨p, hp⟩ | hstray
  · refine .inl ⟨p, ⟨hp.matched, ?_, fun q v hv hpre => ?_, hp.reserved⟩, hp.role_eq⟩
    · exact List.cons_prefix_cons.mpr ⟨rfl, List.take_prefix _ cs⟩
    · have hreach := (reaches_of_mem hv hpre).1
      have hlen := hpre.length_le
      simp only [List.length_cons, List.length_take] at hlen ⊢
      omega
  · refine .inr ⟨hstray, fun p w hw hpre => ?_⟩
    exact (reaches_of_mem hw hpre).2 c (by rw [hstray])

end Segment

end Reckon
