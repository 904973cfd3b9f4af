import Mathlib.Data.List.Forall2
import Reckon.Parse.Program
import Reckon.Proofs.Spacing

/-!
# Stray characters act as blanks

A text with a blank in place of each stray character scans as the same tokens on the same
lines, and reports everything else that was wrong. A stray character ends the segment
before it as a blank does, so no neighbour grows, shrinks or is read otherwise. Stray
characters inside strings and comments are part of these and stay.
-/
namespace Reckon

namespace Segment
variable {c d : Char} {cs ds : List Char}

/-- The text of a segment with a blank in place of each stray character. -/
def blanked (s : Segment) : List Char :=
  match s.role with
  | .stray _ => s.text.map fun _ => ' '
  | _ => s.text

theorem blanked_of_ne {s : Segment} (h : ∀ c, s.role ≠ .stray c) : s.blanked = s.text := by
  unfold blanked
  split
  · next c hc => exact absurd hc (h c)
  · rfl

theorem leading_of_stray (h : (leading c cs).1 = .stray d) : leading c cs = (.stray c, 0) := by
  rcases explains_leading c cs with ⟨p, hp⟩ | hstray
  · rw [hp.role_eq] at h
    cases p <;> cases h
  · exact hstray

/-- `Similar c d`: the characters are the same, or `d` is a blank and `c` ends the segments
that a blank ends. -/
inductive Similar : Char → Char → Prop
  | same (c : Char) : Similar c c
  | blank {c : Char} : Separates c → c ≠ '"' → c ≠ '\n' → Similar c ' '

theorem separates_blank : Separates ' ' := separates_of_isSpacing rfl

theorem similar_of_stray (h : leading c cs = (.stray c, 0)) : Similar c ' ' := by
  unfold leading at h
  split_ifs at h with hdigit hstart hquote hslash hbreak hblank
  · simp [numeral] at h
  · simp [word] at h
  · unfold quoted at h
    split at h <;> simp at h
  · simp at h
  · simp at h
  · simp at h
  · have hword : isWordChar c = false := by
      simp only [isWordStart, Bool.or_eq_true, not_or, Bool.not_eq_true] at hstart
      simp only [isWordChar, Char.isAlphanum, hstart.1, hstart.2, hdigit, Bool.or_false]
    have hnone : Kind.ofChar? c = none := by
      unfold symbol at h
      split at h
      · simp at h
      · simp at h
      · assumption
    refine .blank ⟨by simpa using hdigit, hword, ?_, ?_, ?_⟩ hquote hbreak
    all_goals
      rintro rfl
      cases hnone

/-- Characters that end segments are told apart by no predicate that fails on them all. -/
theorem takeWhile_similar {p : Char → Bool} (hp : ∀ d, Separates d → p d = false)
    (h : List.Forall₂ Similar cs ds) :
    ds.takeWhile p = cs.takeWhile p ∧ List.Forall₂ Similar (cs.dropWhile p) (ds.dropWhile p) := by
  induction h with
  | nil => exact ⟨rfl, .nil⟩
  | @cons c d cs ds hcd hrest ih =>
    cases hcd with
    | same =>
      by_cases hc : p c
      · simp only [List.takeWhile_cons, List.dropWhile_cons, hc, if_true, ih.1, true_and]
        exact ih.2
      · simp only [List.takeWhile_cons, List.dropWhile_cons, hc, if_false, true_and,
          Bool.false_eq_true]
        exact .cons (.same c) hrest
    | blank hsep hquote hbreak =>
      simp only [List.takeWhile_cons, List.dropWhile_cons, hp c hsep, hp ' ' separates_blank,
        Bool.false_eq_true, if_false, true_and]
      exact .cons (.blank hsep hquote hbreak) hrest

theorem length_takeWhile_similar {p : Char → Bool} (hp : ∀ c d, Similar c d → p c = p d)
    (h : List.Forall₂ Similar cs ds) :
    (ds.takeWhile p).length = (cs.takeWhile p).length ∧
      (ds.dropWhile p).length = (cs.dropWhile p).length := by
  induction h with
  | nil => exact ⟨rfl, rfl⟩
  | @cons c d cs ds hcd hrest ih =>
    rw [List.takeWhile_cons, List.takeWhile_cons, List.dropWhile_cons, List.dropWhile_cons,
      hp c d hcd]
    split
    · exact ⟨congrArg (· + 1) ih.1, ih.2⟩
    · exact ⟨rfl, congrArg (· + 1) hrest.length_eq.symm⟩

theorem bne_similar {q : Char} (hq : q = '"' ∨ q = '\n') (h : Similar c d) :
    (c != q) = (d != q) := by
  cases h with
  | same => rfl
  | blank _ hquote hbreak => rcases hq with rfl | rfl <;> simp [hquote, hbreak]

theorem head?_similar (hd : ∀ d, Separates d → d ≠ c) (h : List.Forall₂ Similar cs ds) :
    ds.head? = some c ↔ cs.head? = some c := by
  cases h with
  | nil => exact Iff.rfl
  | cons hcd _ =>
    cases hcd with
    | same => exact Iff.rfl
    | blank hsep _ _ => simp [hd _ hsep, hd _ separates_blank]

theorem numeral_of_ne_dot (c : Char) (h : (cs.dropWhile Char.isDigit).head? ≠ some '.') :
    numeral c cs =
      (.token .number (some (.number (Number.ofNumeral (c :: cs.takeWhile Char.isDigit) []))),
        (cs.takeWhile Char.isDigit).length) := by
  unfold numeral
  split
  · next rest hrest => exact absurd (congrArg List.head? hrest) h
  · rfl

theorem numeral_similar (c : Char) (h : List.Forall₂ Similar cs ds) :
    numeral c ds = numeral c cs := by
  obtain ⟨hwhole, hrest⟩ := takeWhile_similar (fun d hd => hd.not_digit) h
  have hdot := head?_similar (fun d hd => hd.ne_dot) hrest
  by_cases hcs : (cs.dropWhile Char.isDigit).head? = some '.'
  · obtain ⟨xs, hxs⟩ := List.head?_eq_some_iff.mp hcs
    obtain ⟨ys, hys⟩ := List.head?_eq_some_iff.mp (hdot.mpr hcs)
    rw [hxs, hys] at hrest
    cases hrest with
    | cons _ htail =>
      have hfraction := (takeWhile_similar (fun d hd => hd.not_digit) htail).1
      simp only [numeral, hwhole, hxs, hys, hfraction]
  · rw [numeral_of_ne_dot c hcs, numeral_of_ne_dot c (mt hdot.mp hcs), hwhole]

theorem word_similar (c : Char) (h : List.Forall₂ Similar cs ds) : word c ds = word c cs := by
  unfold word
  rw [(takeWhile_similar (fun d hd => hd.not_wordChar) h).1]

theorem symbol_similar (c : Char) (h : List.Forall₂ Similar cs ds) :
    symbol c ds = symbol c cs := by
  unfold symbol
  simp only [head?_similar (fun d hd => hd.ne_equal) h]

/-- A string is read the same if nothing changes up to its end. -/
theorem quoted_similar (h : List.Forall₂ Similar cs ds)
    (hsame : ds.take (quoted cs).2 = cs.take (quoted cs).2) : quoted ds = quoted cs := by
  obtain ⟨hlength, hrest⟩ :=
    length_takeWhile_similar (p := (· != '"')) (fun c d => bne_similar (.inl rfl)) h
  have hinner : ds.takeWhile (· != '"') = cs.takeWhile (· != '"') := by
    have hle : (cs.takeWhile (· != '"')).length ≤ (quoted cs).2 := by
      unfold quoted
      split
      · exact Nat.le_refl _
      · exact Nat.le_succ _
    have htake := congrArg (List.take (cs.takeWhile (· != '"')).length) hsame
    rw [List.take_take, List.take_take, Nat.min_eq_left hle, take_takeWhile, ← hlength,
      take_takeWhile] at htake
    exact htake
  unfold quoted
  rw [hinner]
  cases hcs : cs.dropWhile (· != '"') <;> cases hds : ds.dropWhile (· != '"')
  · rfl
  · simp [hcs, hds] at hrest
  · simp [hcs, hds] at hrest
  · rfl

/-- The front segment is the same if it does not change itself. Blanks are left out, since
they go on where a stray character was. -/
theorem leading_similar (h : List.Forall₂ Similar cs ds) (hblank : isBlank c = false)
    (hsame : ds.take (leading c cs).2 = cs.take (leading c cs).2) :
    leading c ds = leading c cs := by
  by_cases hquote : c = '"'
  · subst hquote
    exact quoted_similar h hsame
  · have hcomment :=
      (length_takeWhile_similar (p := (· != '\n')) (fun c d => bne_similar (.inr rfl)) h).1
    unfold leading
    simp only [numeral_similar c h, word_similar c h, symbol_similar c h, hquote, if_false,
      hcomment, head?_similar (fun d hd => hd.ne_slash) h, hblank, Bool.false_eq_true]

end Segment
open Segment

namespace Source

/-- A text with a blank in place of each stray character. -/
def blanked (cs : List Char) : List Char := (split cs).flatMap Segment.blanked

@[simp] theorem blanked_nil : blanked [] = [] := by rw [blanked, split_nil, List.flatMap_nil]

/-- The front of a text is a stray character, for which there is a blank, or a segment that
stays. -/
theorem blanked_cases (c : Char) (cs : List Char) :
    leading c cs = (.stray c, 0) ∧ blanked (c :: cs) = ' ' :: blanked cs ∨
    (∀ d, (leading c cs).1 ≠ .stray d) ∧ blanked (c :: cs) =
      c :: (cs.take (leading c cs).2 ++ blanked (cs.drop (leading c cs).2)) := by
  have hcons : blanked (c :: cs) =
      Segment.blanked ⟨(leading c cs).1, c :: cs.take (leading c cs).2⟩ ++
        blanked (cs.drop (leading c cs).2) := by
    rw [blanked, split_cons, List.flatMap_cons]
    rfl
  by_cases hstray : ∃ d, (leading c cs).1 = .stray d
  · obtain ⟨d, hd⟩ := hstray
    have hlead := leading_of_stray hd
    rw [hlead] at hcons
    exact .inl ⟨hlead, hcons⟩
  · rw [blanked_of_ne (not_exists.mp hstray)] at hcons
    exact .inr ⟨not_exists.mp hstray, hcons⟩

theorem similar_append (w : List Char) {a b : List Char} (h : List.Forall₂ Similar a b) :
    List.Forall₂ Similar (w ++ a) (w ++ b) :=
  List.rel_append (List.forall₂_same.mpr fun c _ => .same c) h

theorem similar_blanked (cs : List Char) : List.Forall₂ Similar cs (blanked cs) := by
  fun_induction split cs with
  | case1 => rw [blanked_nil]; exact .nil
  | case2 c cs cut ih =>
    rcases blanked_cases c cs with ⟨hlead, hblanked⟩ | ⟨-, hblanked⟩
    · have hcut : cut = (.stray c, 0) := hlead
      rw [hcut] at ih
      rw [hblanked]
      exact .cons (similar_of_stray hlead) ih
    · have hrest := similar_append (cs.take cut.2) ih
      rw [List.take_append_drop] at hrest
      rw [hblanked]
      exact .cons (.same c) hrest

end Source

/-- Whether an error is about a stray character. -/
def ScanError.isUnexpected : ScanError → Bool
  | unexpectedCharacter _ _ => true
  | unterminatedString _ => false

namespace Scan
open Source

/-- A scan without what was reported about stray characters. -/
def withoutStray (scan : Scan) : Scan :=
  { scan with errors := scan.errors.filter (!·.isUnexpected) }

theorem withoutStray_renumber (f : Nat → Nat) (scan : Scan) :
    (scan.renumber f).withoutStray = scan.withoutStray.renumber f := by
  have hsame : (fun e : ScanError => !e.isUnexpected) ∘ ScanError.renumber f =
      fun e => !e.isUnexpected := by
    ext e
    cases e <;> rfl
  simp only [withoutStray, renumber, List.filter_map, hsame]

theorem withoutStray_append {tokens : List Token} {error? : Option ScanError} (scan : Scan)
    (h : ∀ e ∈ error?, e.isUnexpected = false) :
    (Scan.mk (tokens ++ scan.tokens) (error?.toList ++ scan.errors)).withoutStray =
      ⟨tokens ++ scan.withoutStray.tokens, error?.toList ++ scan.withoutStray.errors⟩ := by
  have hkept : error?.toList.filter (!·.isUnexpected) = error?.toList := by
    refine List.filter_eq_self.mpr fun e he => ?_
    rw [h e (Option.mem_toList.mp he)]
    rfl
  simp only [withoutStray, List.filter_append, hkept]

/-- A segment in front of two texts that scan alike but for stray characters. -/
theorem ofChars_withoutStray {s : Segment} {rest rest' : List Char}
    (hs : ∀ c, s.role ≠ .stray c) (hrest : split (s.text ++ rest) = s :: split rest)
    (hrest' : split (s.text ++ rest') = s :: split rest')
    (h : ofChars rest' = (ofChars rest).withoutStray) :
    ofChars (s.text ++ rest') = (ofChars (s.text ++ rest)).withoutStray := by
  rw [ofChars_of_split hrest, ofChars_of_split hrest', h, ← withoutStray_renumber]
  refine (withoutStray_append _ fun e he => ?_).symm
  unfold Placed.error? at he
  split at he
  · next c hc => exact absurd hc (hs c)
  · cases he
    rfl
  · cases he

theorem ofChars_stray {c : Char} {cs : List Char} (h : leading c cs = (.stray c, 0)) :
    (ofChars (c :: cs)).withoutStray = (ofChars cs).withoutStray := by
  have hsplit : split ([c] ++ cs) = ⟨.stray c, [c]⟩ :: split cs := by
    rw [List.singleton_append, split_cons, h]
    rfl
  have hlines : lineBreaks [c] = 0 := by
    refine lineBreaks_eq_zero fun hmem => ?_
    obtain rfl := List.mem_singleton.mp hmem
    cases h
  have hscan := ofChars_of_split (s := ⟨.stray c, [c]⟩) hsplit
  rw [hlines, renumber_add_zero] at hscan
  change ofChars (c :: cs) = ⟨_, .unexpectedCharacter c 1 :: (ofChars cs).errors⟩ at hscan
  rw [hscan]
  rfl

/-- The front segment stays, and what follows it is scanned from there. -/
theorem split_blanked {c : Char} (hblank : isBlank c = false) (cs : List Char) :
    let s : Segment := ⟨(leading c cs).1, c :: cs.take (leading c cs).2⟩
    let rest := cs.drop (leading c cs).2
    split (s.text ++ rest) = s :: split rest ∧
      split (s.text ++ blanked rest) = s :: split (blanked rest) := by
  intro s rest
  have hcs : cs.take (leading c cs).2 ++ rest = cs := List.take_append_drop _ _
  have hlength : (cs.take (leading c cs).2).length = (leading c cs).2 :=
    List.length_take_of_le (length_leading_le c cs)
  have hsimilar := similar_append (cs.take (leading c cs).2) (similar_blanked rest)
  rw [hcs] at hsimilar
  have hlead := leading_similar hsimilar hblank (List.take_left' hlength)
  constructor
  · rw [List.cons_append, hcs, split_cons]
  · rw [List.cons_append, split_cons, hlead, List.take_left' hlength, List.drop_left' hlength]

theorem ofChars_blanked (cs : List Char) :
    ofChars (blanked cs) = (ofChars cs).withoutStray := by
  fun_induction split cs with
  | case1 =>
    rw [blanked_nil, ofChars, Source.layout, split_nil]
    rfl
  | case2 c cs cut ih =>
    rcases blanked_cases c cs with ⟨hlead, hblanked⟩ | ⟨hkept, hblanked⟩
    · have hcut : cut = (.stray c, 0) := hlead
      rw [hcut] at ih
      rw [hblanked, ofChars_blank rfl, ofChars_stray hlead]
      exact ih
    · have hcs : c :: cs = c :: cs.take cut.2 ++ cs.drop cut.2 := by simp
      rw [hblanked, ← List.cons_append]
      by_cases hblank : isBlank c
      · have hcut : cut = (.trivia, (cs.takeWhile isBlank).length) := leading_of_blank hblank cs
        have hgap : ∀ d ∈ c :: cs.take cut.2, isSpacing d := by
          rw [hcut, take_takeWhile]
          refine List.forall_mem_cons.mpr ⟨Bool.or_eq_true_iff.mpr (.inl hblank), fun d hd => ?_⟩
          exact Bool.or_eq_true_iff.mpr (.inl (List.mem_takeWhile_imp hd))
        rw [hcs, ofChars_spacing hgap, ofChars_spacing hgap, withoutStray_renumber]
        exact congrArg _ ih
      · obtain ⟨hrest, hrest'⟩ := split_blanked (Bool.eq_false_iff.mpr hblank) cs
        rw [hcs]
        exact ofChars_withoutStray hkept hrest hrest' ih

end Scan

/-- A text with a blank in place of each stray character. -/
def blanked (source : String) : String := String.ofList (Source.blanked source.toList)

/-- A stray character acts as a blank. With a blank in its place a text has the same tokens on
the same lines, and the same errors but for those about stray characters. So it is the same
expression and the same program, or fails to be one in the same way. -/
theorem scan_blanked (source : String) :
    (blanked source).length = source.length ∧
    (scan (blanked source)).tokens = (scan source).tokens ∧
    (scan (blanked source)).errors = (scan source).errors.filter (!·.isUnexpected) ∧
    Parse.expression (scan (blanked source)).tokens = Parse.expression (scan source).tokens ∧
    Parse.program (scan (blanked source)).tokens = Parse.program (scan source).tokens := by
  have hscan : scan (blanked source) = (scan source).withoutStray := by
    rw [scan, blanked, String.toList_ofList]
    exact Scan.ofChars_blanked source.toList
  have htokens : (scan (blanked source)).tokens = (scan source).tokens := by
    rw [hscan]
    rfl
  have herrors : (scan (blanked source)).errors =
      (scan source).errors.filter (!·.isUnexpected) := by
    rw [hscan]
    rfl
  have hlength : (blanked source).length = source.length := by
    rw [blanked, String.length_ofList, ← (Source.similar_blanked _).length_eq,
      String.length_toList]
  exact ⟨hlength, htokens, herrors, congrArg _ htokens, congrArg _ htokens⟩

example : blanked "1@2\"@\"//@" = "1 2\"@\"//@" := by decide +kernel

end Reckon
