import Reckon.Proofs.NumberBits
import Reckon.Proofs.NumberReading
import Reckon.Proofs.Parenthesization
import Reckon.Proofs.PrintStatement
import Reckon.Proofs.PrintedTree

/-!
# Literals are read back

The printed form of a literal, taken as a source text, is an expression with the value of
that literal. It is one token, but for a number with its sign set: that is a minus sign and
the numeral of its magnitude, and evaluation negates the magnitude again. The same tokens
are scanned if a semicolon follows.
-/
namespace Reckon
open Grammar Segment

/-- `ScansAs cs ts`: the characters `cs` are scanned as the tokens `ts` whatever separate text
follows them. -/
def ScansAs (cs : List Char) (ts : List Token) : Prop :=
  ∀ rest, Separated rest →
    let later := (Scan.ofChars rest).renumber (· + lineBreaks cs)
    Scan.ofChars (cs ++ rest) = ⟨ts ++ later.tokens, later.errors⟩

def minusToken : Token := { kind := .minus, lexeme := "-", line := 1 }

namespace ScansAs

theorem of_isStable {t : Token} (h : t.IsStable) :
    ScansAs t.lexeme.toList [t.renumber fun _ => 1 + lineBreaks t.lexeme.toList] := by
  obtain ⟨c, cs, hlexeme, hlead⟩ := h
  intro rest hrest
  have hscan := Scan.ofChars_token hlead hrest
  rw [← hlexeme, String.ofList_toList] at hscan
  exact hscan

/-- The minus sign joins nothing that follows it. -/
theorem minus {cs : List Char} {ts : List Token} (h : ScansAs cs ts) :
    ScansAs ('-' :: cs) (minusToken :: ts) := by
  intro rest hrest
  have hlead : ∀ cs, leading '-' cs = (.token .minus none, 0) := by
    intro cs
    simp [leading, symbol, isWordStart, isBlank, Kind.withEqual?, Kind.ofChar?]
  have hsplit : split (['-'] ++ (cs ++ rest)) =
      ⟨.token .minus none, ['-']⟩ :: split (cs ++ rest) := by
    rw [List.singleton_append, split_cons, hlead]
    rfl
  have hscan := Scan.ofChars_of_split (s := ⟨.token .minus none, ['-']⟩) hsplit
  have hlines : lineBreaks ['-'] = 0 := by decide
  have hsame : lineBreaks ('-' :: cs) = lineBreaks cs := List.count_cons_of_ne (by decide)
  rw [hlines, Scan.renumber_add_zero, h rest hrest] at hscan
  rw [hsame]
  exact hscan

section Source
variable {source : String} {ts : List Token}

theorem scan (h : ScansAs source.toList ts) :
    ∃ line, Reckon.scan source = ⟨ts ++ [.eof line], []⟩ := by
  have hscan := h [] nofun
  rw [List.append_nil] at hscan
  have hnil : Scan.ofChars [] = ⟨[.eof 1], []⟩ := by with_unfolding_all rfl
  rw [hnil] at hscan
  exact ⟨_, hscan⟩

theorem scan_semicolon (h : ScansAs source.toList ts) :
    ∃ u last, u.kind = .semicolon ∧
      Reckon.scan (source ++ ";") = ⟨ts ++ [u, .eof last], []⟩ := by
  have hseparated : Separated [';'] := by
    rintro d ⟨⟩
    exact ⟨rfl, rfl, by decide, by decide, by decide⟩
  have hscan := h [';'] hseparated
  have hsemicolon : Scan.ofChars [';'] =
      ⟨[{ kind := .semicolon, lexeme := ";", line := 1 }, .eof 1], []⟩ := by
    with_unfolding_all rfl
  have htext : (source ++ ";").toList = source.toList ++ [';'] := String.toList_append
  rw [hsemicolon] at hscan
  rw [Reckon.scan, htext, hscan]
  exact ⟨_, _, rfl, rfl⟩

end Source

end ScansAs

/-- A token that is no name is made again by its lexeme. -/
theorem Token.IsMade.isStable {t : Token} (h : t.IsMade) (hname : t.kind ≠ .identifier) :
    t.IsStable := by
  obtain ⟨p, hkind, hmem, hliteral⟩ := h
  have hp : p ≠ .identifier := by
    rintro rfl
    exact hname (Option.some.inj hkind).symm
  exact Token.isStable_of_leads hkind
    ⟨hmem, List.prefix_rfl, fun _ _ _ hv => hv.length_le, fun h => absurd h hp⟩ hliteral

theorem Token.IsSpelled.isMade {t : Token} (h : t.IsSpelled) : t.IsMade := by
  refine ⟨.fixed t.kind, rfl, ?_, h.literal⟩
  rw [Pattern.mem_fixed, String.ofList_toList]
  exact h.spelling

namespace Number

theorem decimalText_mem (steps : Nat) : decimalText steps ∈ Pattern.number.language := by
  have hwhole : ∀ c ∈ Nat.toDigits 10 (steps / Nat.pow 10 Decimal.places), c.isDigit :=
    fun c => Nat.isDigit_of_mem_toDigits (by decide) (by decide)
  rw [decimalText_eq]
  cases hdigits : Nat.toDigits 10 (steps / Nat.pow 10 Decimal.places) with
  | nil => exact absurd hdigits Nat.toDigits_ne_nil
  | cons c whole =>
    rw [hdigits] at hwhole
    obtain ⟨hc, hwhole⟩ := List.forall_mem_cons.mp hwhole
    exact mem_number_of_isDigit hc hwhole fun d => isDigit_of_mem_fractionDigits

/-- The numeral of a magnitude has the value it was written for. -/
theorem literal?_shortest {rank : Nat} (h : rank < Ladder.top) :
    Pattern.literal? .number (decimalText (Decimal.shortest rank)) =
      some (.number (Float.ofBits (UInt64.ofNat rank))) := by
  obtain ⟨hwhole, hfraction⟩ := decimalText_parts (Decimal.shortest rank)
  rw [Pattern.literal?, hwhole, hfraction, ofNumeral, rankOfNumeral_shortest h.le]

/-- The token of a magnitude. -/
def magnitudeToken (rank : Nat) : Token where
  kind := .number
  lexeme := String.ofList (magnitudeText rank)
  literal := some (.number (Float.ofBits (UInt64.ofNat rank)))
  line := 1

theorem isMade_magnitudeToken {rank : Nat} (h : rank < Ladder.top) :
    (magnitudeToken rank).IsMade := by
  have hlexeme : (magnitudeToken rank).lexeme.toList = decimalText (Decimal.shortest rank) := by
    rw [magnitudeToken, String.toList_ofList, magnitudeText, if_neg h.ne]
  refine ⟨.number, rfl, ?_, ?_⟩
  · rw [hlexeme]
    exact decimalText_mem _
  · rw [hlexeme, literal?_shortest h]
    rfl

end Number

/-- A text that is an expression with a given value, by itself and before a semicolon. -/
def Denotes (text : String) (value : Value) : Prop :=
  ∃ ts e, ScansAs text.toList ts ∧ Derives .ternary ts e ∧ e.evaluate = .ok value

theorem scansAs_of_atom {t : Token} {v : Value} (h : t.IsMade) (hatom : Atom t v) :
    ∃ u, ScansAs t.lexeme.toList [u] ∧ Atom u v := by
  have hname : t.kind ≠ .identifier := by
    cases hatom with
    | falsehood hkind | truth hkind | nothing hkind => simp [hkind]
    | literal hkind _ => rcases hkind with hkind | hkind <;> simp [hkind]
  exact ⟨_, .of_isStable (h.isStable hname), hatom.renumber _⟩

theorem denotes_of_atom {t : Token} {v : Value} (h : t.IsMade) (hatom : Atom t v) :
    Denotes t.lexeme v := by
  obtain ⟨u, hscan, hu⟩ := scansAs_of_atom h hatom
  exact ⟨[u], .literal v, hscan, (Derives.atom hu).of_primary .ternary, rfl⟩

/-- A number is the numeral of its magnitude, or the negation of that numeral. -/
theorem Number.denotes_text {x : Float} (h : x.isFinite) : Denotes (text x) (.number x) := by
  have hrank := rank_lt_top_of_isFinite h
  have htext := toList_text hrank.not_gt
  have hatom : Atom (magnitudeToken (rank x)) (.number (Float.ofBits (UInt64.ofNat (rank x)))) :=
    .literal (l := .number _) (.inl rfl) rfl
  have hmade := isMade_magnitudeToken hrank
  by_cases hsign : x.toBits.toNat < signBit
  · rw [if_pos hsign, List.nil_append] at htext
    have hlexeme : (magnitudeToken (rank x)).lexeme = text x :=
      String.toList_injective (String.toList_ofList.trans htext.symm)
    have hdenotes := denotes_of_atom hmade hatom
    rwa [hlexeme, ofBits_rank hrank.le hsign] at hdenotes
  · rw [if_neg hsign] at htext
    obtain ⟨u, hscan, hu⟩ := scansAs_of_atom hmade hatom
    rw [magnitudeToken, String.toList_ofList] at hscan
    have hunary := Derives.prefixed (o := minusToken) (.inr rfl) (.unprefixed (.atom hu))
    have hfactor : Derives (.binary .factor) _ _ := .single hunary
    refine ⟨_, _, ?_, hfactor.ternary_of_binary, ?_⟩
    · rw [htext]
      exact hscan.minus
    · exact congrArg (fun y => Except.ok (Value.number y)) (neg_ofBits_rank hrank.le hsign)

namespace Value

/-- A value that a literal can be written for: numbers are finite and strings have no quotes
in them. -/
def Writable : Value → Prop
  | number x => x.isFinite
  | string s => '"' ∉ s.toList
  | nil | boolean _ => True

instance (v : Value) : Decidable v.Writable :=
  match v with
  | number x => inferInstanceAs (Decidable (x.isFinite = true))
  | string s => inferInstanceAs (Decidable ('"' ∉ s.toList))
  | nil | boolean _ => inferInstanceAs (Decidable True)

theorem lexeme_token (v : Value) : v.token.lexeme = v.quoted := by
  cases v with
  | boolean b => cases b <;> rfl
  | nil | number _ | string _ => rfl

theorem isMade_token {v : Value} (hv : v.asNumber? = none) (h : v.Writable) :
    v.token.IsMade := by
  cases v with
  | nil => exact Token.IsSpelled.isMade ⟨rfl, rfl⟩
  | boolean b => cases b <;> exact Token.IsSpelled.isMade ⟨rfl, rfl⟩
  | number x => cases hv
  | string s =>
    have htext := toList_quoted_string s
    refine ⟨.string, rfl, Pattern.mem_string.mpr ⟨s.toList, h, htext⟩, ?_⟩
    simp [token, htext, Pattern.literal?]

theorem denotes_quoted {v : Value} (h : v.Writable) : Denotes v.quoted v := by
  cases v with
  | number x => exact Number.denotes_text h
  | nil | boolean _ | string _ =>
    have hdenotes := denotes_of_atom (isMade_token rfl h) (atom_token _)
    rwa [lexeme_token] at hdenotes

end Value

namespace Session
variable {text : String} {v : Value}

theorem evaluate_of_denotes (h : Denotes text v) : (evaluate text).result = .done v := by
  obtain ⟨ts, e, hscan, hderives, hvalue⟩ := h
  obtain ⟨line, hscan⟩ := hscan.scan
  have htree : treeOf (scan text) = .ok e := by
    rw [treeOf_eq_ok_iff, hscan]
    have hreads := Parse.reads_of_derives hderives (t := .eof line) (.inl rfl) []
    exact ⟨Parse.expression_eq_ok_iff.mpr ⟨_, _, hreads, rfl⟩, rfl⟩
  rw [evaluate_result, htree]
  simp only [valued, hvalue]

theorem run_of_denotes (h : Denotes text v) :
    (run ("print " ++ text ++ ";")).result = .done [v.text] := by
  obtain ⟨ts, e, hscan, hderives, hvalue⟩ := h
  obtain ⟨u, last, hu, hscan⟩ := hscan.scan_semicolon
  rw [run_result, String.append_assoc, programOf_print hscan hderives hu, printed_print]
  simp only [valued, hvalue, Verdict.map]

/-- The printed form of a literal is read back. As a text it evaluates to the value of the
literal, a number to the same bits, and a print statement of it prints that value. -/
theorem literal_reads_back (h : v.Writable) :
    (evaluate (Expr.literal v).print).result = .done v ∧
      (run ("print " ++ (Expr.literal v).print ++ ";")).result = .done [v.text] :=
  ⟨evaluate_of_denotes (Value.denotes_quoted h), run_of_denotes (Value.denotes_quoted h)⟩

/-- Zero with a sign, and a string over two lines with what would be a comment and a word. -/
theorem literal_reads_back_negative_zero :
    let zero : Value := .number (-0.0)
    let lines : Value := .string "//\nnil"
    zero.Writable ∧ lines.Writable ∧
    (Expr.literal zero).print = "-0" ∧ (Expr.literal lines).print = "\"//\nnil\"" ∧
    (evaluate "-0").result = .done zero ∧ (run "print -0;").result = .done ["-0"] ∧
    (evaluate "\"//\nnil\"").result = .done lines ∧
    (run "print \"//\nnil\";").result = .done ["//\nnil"] := by
  intro zero lines
  have hzero : zero.Writable := by decide +kernel
  have hlines : lines.Writable := by decide
  have hzeroText : (Expr.literal zero).print = "-0" := by decide +kernel
  have hlinesText : (Expr.literal lines).print = "\"//\nnil\"" := by decide
  obtain ⟨hvalue, hprint⟩ := literal_reads_back hzero
  obtain ⟨hvalue', hprint'⟩ := literal_reads_back hlines
  rw [hzeroText] at hvalue hprint
  rw [hlinesText] at hvalue' hprint'
  have hshown : zero.text = "-0" := hzeroText
  rw [hshown] at hprint
  exact ⟨hzero, hlines, hzeroText, hlinesText, hvalue, hprint, hvalue', hprint'⟩

end Session

end Reckon
