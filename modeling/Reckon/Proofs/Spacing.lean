import Reckon.Proofs.LineJoin

/-!
# Spacing between tokens

Spacing ends every token and makes none. A token that spacing follows is cut off as if
it stood alone, and spacing in front of a text only moves the text to later lines. So the
lexemes of a text, set apart by any spacing, scan as the same tokens again.
-/
namespace Reckon

namespace Segment
variable {c d : Char} {cs rest : List Char} {kind : Kind} {literal : Option Literal}

/-- What separates does not change the token before it, whichever it is. -/
theorem leading_append_separator (h : (leading c cs).1 = .token kind literal) (hd : Separates d)
    (b : List Char) : leading c (cs ++ d :: b) = leading c cs := by
  by_cases hc : c = '"'
  · subst hc
    exact quoted_append (by rw [← leading_quote, h]; simp) _
  · unfold leading at h ⊢
    simp only [hc, if_false] at h ⊢
    simp only [numeral_append hd, word_append hd, symbol_append hd,
      head?_append_of_ne hd.ne_slash]
    -- Comments and blanks would go on, but they are no tokens.
    split_ifs at h ⊢ <;> rfl

/-- A text that can follow any token: it is empty or starts with what separates. -/
def Separated (rest : List Char) : Prop := ∀ d ∈ rest.head?, Separates d

/-- A text that is empty or starts with spacing. -/
def Apart (rest : List Char) : Prop := ∀ d ∈ rest.head?, isSpacing d

theorem Apart.separated (h : Apart rest) : Separated rest :=
  fun d hd => separates_of_isSpacing (h d hd)

theorem leading_append_of_separated (h : (leading c cs).1 = .token kind literal)
    (hrest : Separated rest) : leading c (cs ++ rest) = leading c cs := by
  cases rest with
  | nil => rw [List.append_nil]
  | cons d rest => exact leading_append_separator h (hrest d rfl) rest

/-- A text that is one token is cut off in front of any text that can follow it. -/
theorem split_token (h : leading c cs = (.token kind literal, cs.length))
    (hrest : Separated rest) :
    split (c :: cs ++ rest) = ⟨.token kind literal, c :: cs⟩ :: split rest := by
  have hlead := leading_append_of_separated (congrArg Prod.fst h) hrest
  rw [List.cons_append, split_cons, hlead, h, List.take_left, List.drop_left]

/-- What a pattern matches as a whole is one segment. -/
theorem leading_of_leads {p : Pattern} (h : Leads p (c :: cs) (c :: cs)) :
    leading c cs = (p.role (c :: cs), cs.length) := by
  rcases leads_leading c cs with ⟨q, hq, hrole⟩ | ⟨-, hnone⟩
  · obtain ⟨rfl, htext⟩ := hq.unique h
    have hlength : (cs.take (leading c cs).2).length = cs.length := by rw [(List.cons.inj htext).2]
    rw [List.length_take_of_le (length_leading_le c cs)] at hlength
    rw [htext] at hrole
    exact Prod.ext hrole hlength
  · exact absurd h.isPrefix (hnone p _ h.matched)

end Segment
open Segment

namespace Scan
variable {cs rest : List Char}

/-- The scan of a text goes on behind its first segment as if the text started there, but
on later lines. -/
theorem ofChars_of_split {s : Segment} (h : split (s.text ++ rest) = s :: split rest) :
    let first : Placed := ⟨s, 0, byteLength s.text, 1 + lineBreaks s.text⟩
    let later := (ofChars rest).renumber (· + lineBreaks s.text)
    ofChars (s.text ++ rest) =
      ⟨first.token?.toList ++ later.tokens, first.error?.toList ++ later.errors⟩ := by
  intro first later
  have hadvance : lineBreaks s.text = s.advance :=
    lineBreaks_eq_advance (h ▸ List.mem_cons_self)
  have hlayout : Source.layout (s.text ++ rest) 1 = first ::
      (Source.layout rest 1).map (Placed.shift (byteLength s.text) (lineBreaks s.text)) := by
    rw [Source.layout, Source.layout, ← Placed.along_shift, h, Placed.along, Nat.zero_add,
      ← hadvance]
  have hlast : 1 + lineBreaks (s.text ++ rest) = 1 + lineBreaks rest + lineBreaks s.text := by
    rw [lineBreaks_append]
    omega
  simp only [later, ofChars, lineAfter_split, renumber, hlayout, hlast, List.filterMap_cons,
    Placed.filterMap_token?_shift, Placed.filterMap_error?_shift, List.map_append,
    List.map_singleton, Token.renumber_eof]
  cases first.token? <;> cases first.error? <;> rfl

/-- A token at the front of a text. -/
theorem ofChars_token {c : Char} {kind : Kind} {literal : Option Literal}
    (h : leading c cs = (.token kind literal, cs.length)) (hrest : Separated rest) :
    let later := (ofChars rest).renumber (· + lineBreaks (c :: cs))
    ofChars (c :: cs ++ rest) =
      ⟨⟨kind, String.ofList (c :: cs), literal, 1 + lineBreaks (c :: cs)⟩ :: later.tokens,
        later.errors⟩ :=
  ofChars_of_split (s := ⟨.token kind literal, c :: cs⟩) (split_token h hrest)

theorem renumber_add_zero (scan : Scan) : scan.renumber (· + 0) = scan := by
  have htoken : Token.renumber (· + 0) = id := rfl
  have herror : ScanError.renumber (· + 0) = id := by
    funext e
    cases e <;> rfl
  rw [renumber, htoken, herror, List.map_id, List.map_id]

theorem renumber_renumber (f g : Nat → Nat) (scan : Scan) :
    (scan.renumber f).renumber g = scan.renumber (g ∘ f) := by
  have herror : ScanError.renumber g ∘ ScanError.renumber f = ScanError.renumber (g ∘ f) := by
    funext e
    cases e <;> rfl
  simp only [renumber, List.map_map, herror]
  rfl

/-- Blanks at the front of a text are one segment. -/
theorem ofChars_blanks {d : Char} (hd : isBlank d) (cs : List Char) :
    ofChars (d :: cs) = ofChars (cs.dropWhile isBlank) := by
  have hsplit : split (d :: cs.takeWhile isBlank ++ cs.dropWhile isBlank) =
      ⟨.trivia, d :: cs.takeWhile isBlank⟩ :: split (cs.dropWhile isBlank) := by
    rw [List.cons_append, split_cons, List.takeWhile_append_dropWhile, leading_of_blank hd,
      take_takeWhile, drop_takeWhile]
  have hlines : lineBreaks (d :: cs.takeWhile isBlank) = 0 := by
    refine lineBreaks_eq_zero fun h => ?_
    have hblank : isBlank '\n' := by
      rcases List.mem_cons.mp h with rfl | h
      · exact hd
      · exact List.mem_takeWhile_imp h
    cases hblank
  have h := ofChars_of_split (s := ⟨.trivia, d :: cs.takeWhile isBlank⟩) hsplit
  rw [hlines, renumber_add_zero, List.cons_append, List.takeWhile_append_dropWhile] at h
  exact h

/-- A blank in front of a text changes nothing, whether or not more blanks follow. -/
theorem ofChars_blank {d : Char} (hd : isBlank d) (cs : List Char) :
    ofChars (d :: cs) = ofChars cs := by
  rw [ofChars_blanks hd]
  cases cs with
  | nil => rfl
  | cons e es =>
    by_cases he : isBlank e
    · rw [List.dropWhile_cons_of_pos he, ofChars_blanks he]
    · rw [List.dropWhile_cons_of_neg he]

theorem ofChars_lineBreak (cs : List Char) :
    ofChars ('\n' :: cs) = (ofChars cs).renumber (· + 1) :=
  ofChars_of_split (s := ⟨.trivia, ['\n']⟩) (by rw [List.singleton_append, split_cons]; rfl)

/-- Spacing in front of a text moves it to later lines and does nothing else. -/
theorem ofChars_spacing {gap : List Char} (h : ∀ c ∈ gap, isSpacing c) (cs : List Char) :
    ofChars (gap ++ cs) = (ofChars cs).renumber (· + lineBreaks gap) := by
  induction gap with
  | nil => exact (renumber_add_zero _).symm
  | cons d gap ih =>
    obtain ⟨hd, hgap⟩ := List.forall_mem_cons.mp h
    rw [List.cons_append]
    rcases Bool.or_eq_true_iff.mp hd with hblank | hbreak
    · have hlines : lineBreaks (d :: gap) = lineBreaks gap := by
        refine List.count_cons_of_ne ?_
        rintro rfl
        cases hblank
      rw [ofChars_blank hblank, ih hgap, hlines]
    · rw [beq_iff_eq] at hbreak
      subst hbreak
      have hlines : lineBreaks ('\n' :: gap) = lineBreaks gap + 1 := List.count_cons_self
      rw [ofChars_lineBreak, ih hgap, renumber_renumber, hlines]
      rfl

end Scan

/-- A token that its lexeme makes again when it stands alone. -/
def Token.IsStable (t : Token) : Prop :=
  ∃ c cs, t.lexeme.toList = c :: cs ∧ leading c cs = (.token t.kind t.literal, cs.length)

theorem Pattern.role_of_kind? {p : Pattern} {kind : Kind} (h : p.kind? = some kind)
    (w : List Char) : p.role w = .token kind (p.literal? w) := by
  cases p <;> cases h <;> rfl

theorem Token.isStable_of_leads {t : Token} {p : Pattern} (hkind : p.kind? = some t.kind)
    (hleads : Leads p t.lexeme.toList t.lexeme.toList)
    (hliteral : t.literal = p.literal? t.lexeme.toList) : t.IsStable := by
  cases hlexeme : t.lexeme.toList with
  | nil => exact absurd hlexeme (ne_nil_of_mem hleads.matched)
  | cons c cs =>
    rw [hlexeme] at hleads hliteral
    refine ⟨c, cs, hlexeme, ?_⟩
    rw [leading_of_leads hleads, Pattern.role_of_kind? hkind, ← hliteral]

theorem isStable_of_mem_scan {source : String} {t : Token}
    (h : t ∈ (scan source).tokens.dropLast) : t.IsStable := by
  obtain ⟨pieces, hmunch, -⟩ := munch_split source.toList
  rw [scan, Scan.ofChars, List.dropLast_concat] at h
  obtain ⟨p, hkind, hleads, hliteral⟩ := hmunch.exists_leads h
  exact Token.isStable_of_leads hkind hleads hliteral

/-- Lexemes with spacing after each of them, and in front of the first. -/
def respaced (before : String) (items : List (Token × String)) : String :=
  before ++ String.join (items.map fun item => item.1.lexeme ++ item.2)

/-- The characters of one lexeme and of the spacing after it. -/
def spaced (item : Token × String) : List Char := item.1.lexeme.toList ++ item.2.toList

theorem toList_respaced (before : String) (items : List (Token × String)) :
    (respaced before items).toList = before.toList ++ items.flatMap spaced := by
  rw [respaced, String.toList_append, String.toList_join, List.flatMap_map]
  simp only [String.toList_append]
  rfl

@[simp] theorem Scan.map_content_renumber (f : Nat → Nat) (scan : Scan) :
    (scan.renumber f).tokens.map Token.content = scan.tokens.map Token.content := by
  rw [renumber, List.map_map]
  rfl

@[simp] theorem Scan.errors_renumber_eq_nil (f : Nat → Nat) (scan : Scan) :
    (scan.renumber f).errors = [] ↔ scan.errors = [] := List.map_eq_nil_iff

section Respaced
variable {items : List (Token × String)}

/-- Gaps between tokens: spacing, of which only the last may be empty. -/
structure IsGapped (items : List (Token × String)) : Prop where
  spacing : ∀ item ∈ items, ∀ c ∈ item.2.toList, isSpacing c
  nonempty : ∀ item ∈ items.dropLast, item.2 ≠ ""

theorem IsGapped.tail {item : Token × String} (h : IsGapped (item :: items)) : IsGapped items where
  spacing i hi := h.spacing i (List.mem_cons_of_mem _ hi)
  nonempty i hi := by
    cases items with
    | nil => cases hi
    | cons next items => exact h.nonempty i (List.mem_cons_of_mem _ hi)

theorem IsGapped.apart {item : Token × String} (h : IsGapped (item :: items)) :
    Apart (item.2.toList ++ items.flatMap spaced) := by
  intro d hd
  cases hgap : item.2.toList with
  | cons c cs =>
    rw [hgap] at hd
    obtain rfl : c = d := Option.some.inj hd
    exact h.spacing item List.mem_cons_self c (by rw [hgap]; exact List.mem_cons_self)
  | nil =>
    cases items with
    | nil =>
      rw [hgap] at hd
      cases hd
    | cons next items =>
      have hne := h.nonempty item List.mem_cons_self
      exact absurd (String.toList_eq_nil_iff.mp hgap) hne

/-- Stable tokens are scanned from their lexemes, one by one. -/
theorem ofChars_spaced (hstable : ∀ item ∈ items, item.1.IsStable) (h : IsGapped items) :
    let scan := Scan.ofChars (items.flatMap spaced)
    scan.errors = [] ∧ scan.tokens.map Token.content =
      items.map (fun item => item.1.content) ++ [(Token.eof 0).content] := by
  induction items with
  | nil =>
    rw [List.flatMap_nil, Scan.ofChars, Source.layout, split_nil]
    exact ⟨rfl, rfl⟩
  | cons item items ih =>
    obtain ⟨⟨c, cs, hlexeme, hlead⟩, hrest⟩ := List.forall_mem_cons.mp hstable
    obtain ⟨herrors, htokens⟩ := ih hrest h.tail
    have hscan := Scan.ofChars_token hlead h.apart.separated
    have hgap := Scan.ofChars_spacing (h.spacing item List.mem_cons_self) (items.flatMap spaced)
    rw [← hlexeme, hgap] at hscan
    have htext : (item :: items).flatMap spaced =
        item.1.lexeme.toList ++ (item.2.toList ++ items.flatMap spaced) := by
      rw [List.flatMap_cons, spaced, List.append_assoc]
    rw [htext, hscan]
    refine ⟨by simp [herrors], ?_⟩
    simp only [List.map_cons, Scan.map_content_renumber, htokens, String.ofList_toList]
    rfl

end Respaced

/-- Lexemes that are set apart by spacing scan as the tokens they come from, whatever text
these were scanned from and whatever stood between them there. -/
theorem scan_respaced {source before : String} {items : List (Token × String)}
    (htokens : items.map Prod.fst = (scan source).tokens.dropLast)
    (hbefore : ∀ c ∈ before.toList, isSpacing c) (hitems : IsGapped items) :
    (scan (respaced before items)).isClean ∧
    (scan (respaced before items)).tokens.map Token.content =
      (scan source).tokens.map Token.content := by
  have hstable : ∀ item ∈ items, item.1.IsStable := by
    intro item hitem
    have hmem : item.1 ∈ (scan source).tokens.dropLast := by
      rw [← htokens]
      exact List.mem_map_of_mem hitem
    exact isStable_of_mem_scan hmem
  obtain ⟨herrors, hcontents⟩ := ofChars_spaced hstable hitems
  have hscan : scan (respaced before items) =
      (Scan.ofChars (items.flatMap spaced)).renumber (· + lineBreaks before.toList) := by
    rw [scan, toList_respaced, Scan.ofChars_spacing hbefore]
  have hsource : (scan source).tokens.map Token.content =
      items.map (fun item => item.1.content) ++ [(Token.eof 0).content] := by
    have hdrop := congrArg (List.map Token.content) htokens
    rw [scan, Scan.ofChars, List.dropLast_concat, List.map_map] at hdrop
    rw [scan, Scan.ofChars, List.map_append, ← hdrop]
    rfl
  rw [hscan, Scan.map_content_renumber, hcontents, hsource]
  exact ⟨List.isEmpty_iff.mpr (by simp [herrors]), rfl⟩

/-- A string over two lines with what would start a comment, an operator of two characters
and a name, on two lines and without the stray character. -/
theorem scan_respaced_two_lines :
    let quoted : Token := ⟨.string, "\"//\n\"", some (.string "//\n"), 2⟩
    let unequal : Token := { kind := .bangEqual, lexeme := "!=", line := 2 }
    let name : Token := { kind := .identifier, lexeme := "a", line := 2 }
    let items := [(quoted, "\t"), (unequal, "\n"), (name, "")]
    items.map Prod.fst = (scan "\"//\n\"!=a@").tokens.dropLast ∧
    (∀ c ∈ "\r".toList, isSpacing c) ∧ IsGapped items ∧
    respaced "\r" items = "\r\"//\n\"\t!=\na" ∧
    (scan "\r\"//\n\"\t!=\na").isClean ∧
    (scan "\r\"//\n\"\t!=\na").tokens.map Token.content =
      (scan "\"//\n\"!=a@").tokens.map Token.content := by
  intro quoted unequal name items
  have hscan : (scan "\"//\n\"!=a@").tokens = [quoted, unequal, name, .eof 2] := by
    with_unfolding_all rfl
  have htokens : items.map Prod.fst = (scan "\"//\n\"!=a@").tokens.dropLast := by
    rw [hscan]
    rfl
  have hbefore : ∀ c ∈ "\r".toList, isSpacing c := List.all_eq_true.mp (by decide)
  have hitems : IsGapped items := ⟨by simp [items, isSpacing, isBlank], by simp [items]⟩
  have htext : respaced "\r" items = "\r\"//\n\"\t!=\na" := by decide
  obtain ⟨hclean, hcontents⟩ := scan_respaced htokens hbefore hitems
  rw [htext] at hclean hcontents
  exact ⟨htokens, hbefore, hitems, htext, hclean, hcontents⟩

end Reckon
