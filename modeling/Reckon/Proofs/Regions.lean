import Reckon.Proofs.LineJoin

/-!
# Strings and comments

A reading of a text character by character, in three states, that tells strings and comments
from code. Segments are cut by longest match and without any state, but they agree with this
reading: every string and every comment is one segment, and all other segments are code. So
a string is one token or one error, a comment is neither, and nothing inside them counts.
-/
namespace Reckon
open Segment

/-- What is being read. -/
inductive Zone where
  | code
  /-- A string, with what was read behind its opening quote. -/
  | string (inner : List Char)
  /-- A comment, with what was read of it. -/
  | comment (text : List Char)
  deriving DecidableEq

/-- What a text consists of. -/
inductive Region where
  /-- A character outside of strings and comments. -/
  | code (character : Char)
  | string (inner : List Char)
  /-- A string without its closing quote. -/
  | unclosed (inner : List Char)
  /-- A comment, up to its line break. -/
  | comment (text : List Char)
  deriving DecidableEq

namespace Region

def text : Region → List Char
  | code c => [c]
  | string inner => '"' :: (inner ++ ['"'])
  | unclosed inner => '"' :: inner
  | comment text => text

/-- What stands between the quotes of a string that is closed. -/
def quoted? : Region → Option (List Char)
  | string inner => some inner
  | _ => none

/-- The one segment that a string or a comment is. A comment contributes nothing, and a string
without its closing quote an error. -/
def segment? : Region → Option Segment
  | code _ => none
  | string inner =>
    some ⟨.token .string (some (.string (String.ofList inner))), '"' :: (inner ++ ['"'])⟩
  | unclosed inner => some ⟨.unclosed, '"' :: inner⟩
  | comment text => some ⟨.trivia, text⟩

end Region

namespace Zone

/-- The state after a character, given the one that follows. -/
def next (zone : Zone) (c : Char) (ahead : Option Char) : Zone :=
  match zone with
  | code =>
    if c = '"' then string []
    else if c = '/' ∧ ahead = some '/' then comment ['/']
    else code
  | string inner => if c = '"' then code else string (inner ++ [c])
  | comment text => if c = '\n' then code else comment (text ++ [c])

/-- The regions that end with a character, given the one that follows. -/
def ended (zone : Zone) (c : Char) (ahead : Option Char) : List Region :=
  match zone with
  | code => if c = '"' ∨ (c = '/' ∧ ahead = some '/') then [] else [.code c]
  | string inner => if c = '"' then [.string inner] else []
  | comment text => if c = '\n' then [.comment text, .code c] else []

/-- The region that the end of the text cuts off. -/
def pending : Zone → List Region
  | code => []
  | string inner => [.unclosed inner]
  | comment text => [.comment text]

/-- The regions of a text that is read from a state on. -/
def regions (zone : Zone) : List Char → List Region
  | [] => zone.pending
  | c :: cs => zone.ended c cs.head? ++ (zone.next c cs.head?).regions cs

/-- The state behind a text. -/
def after (zone : Zone) : List Char → Zone
  | [] => zone
  | c :: cs => (zone.next c cs.head?).after cs

theorem regions_string {inner : List Char} (h : '"' ∉ inner) (seen rest : List Char) :
    (string seen).regions (inner ++ '"' :: rest) =
      .string (seen ++ inner) :: code.regions rest := by
  induction inner generalizing seen with
  | nil => simp [regions, ended, next]
  | cons c inner ih =>
    have hc : c ≠ '"' := (List.ne_of_not_mem_cons h).symm
    have hinner : '"' ∉ inner := List.not_mem_of_not_mem_cons h
    simp only [List.cons_append, regions, ended, next, hc, if_false, List.nil_append]
    rw [ih hinner, List.append_assoc, List.singleton_append]

theorem regions_unclosed {inner : List Char} (h : '"' ∉ inner) (seen : List Char) :
    (string seen).regions inner = [.unclosed (seen ++ inner)] := by
  induction inner generalizing seen with
  | nil => simp [regions, pending]
  | cons c inner ih =>
    have hc : c ≠ '"' := (List.ne_of_not_mem_cons h).symm
    have hinner : '"' ∉ inner := List.not_mem_of_not_mem_cons h
    simp only [regions, ended, next, hc, if_false, List.nil_append]
    rw [ih hinner, List.append_assoc, List.singleton_append]

/-- A comment goes on to the line break, which is code again. -/
theorem regions_comment {w rest : List Char} (hw : '\n' ∉ w)
    (hrest : ∀ d ∈ rest.head?, d = '\n') (seen : List Char) :
    (comment seen).regions (w ++ rest) = .comment (seen ++ w) :: code.regions rest := by
  induction w generalizing seen with
  | nil =>
    cases rest with
    | nil => simp [regions, pending]
    | cons d rest =>
      obtain rfl : d = '\n' := hrest d rfl
      simp [regions, ended, next]
  | cons c w ih =>
    have hc : c ≠ '\n' := (List.ne_of_not_mem_cons hw).symm
    have hw : '\n' ∉ w := List.not_mem_of_not_mem_cons hw
    simp only [List.cons_append, regions, ended, next, hc, if_false, List.nil_append]
    rw [ih hw, List.append_assoc, List.singleton_append]

theorem regions_code_cons {c : Char} {cs : List Char} (hquote : c ≠ '"')
    (hcomment : ¬ (c = '/' ∧ cs.head? = some '/')) :
    code.regions (c :: cs) = .code c :: code.regions cs := by
  simp only [regions, ended, next, hquote, hcomment, or_self, if_false, List.singleton_append]

theorem regions_code {w : List Char} (h : ∀ d ∈ w, d ≠ '"' ∧ d ≠ '/') (rest : List Char) :
    code.regions (w ++ rest) = w.map .code ++ code.regions rest := by
  induction w with
  | nil => rfl
  | cons c w ih =>
    obtain ⟨⟨hquote, hslash⟩, hw⟩ := List.forall_mem_cons.mp h
    rw [List.cons_append, regions_code_cons hquote (fun hc => hslash hc.1), ih hw]
    rfl

/-- Only the state at the end can leave a string open. -/
theorem regions_eq (zone : Zone) (cs : List Char) :
    ∃ closed, zone.regions cs = closed ++ (zone.after cs).pending ∧
      ∀ inner, .unclosed inner ∉ closed := by
  induction cs generalizing zone with
  | nil => exact ⟨[], rfl, fun _ => List.not_mem_nil⟩
  | cons c cs ih =>
    obtain ⟨closed, hregions, hclosed⟩ := ih (zone.next c cs.head?)
    have hended : ∀ inner, .unclosed inner ∉ zone.ended c cs.head? := by
      intro inner
      unfold ended
      cases zone <;> dsimp only <;> split <;> simp
    refine ⟨zone.ended c cs.head? ++ closed, ?_, fun inner hmem => ?_⟩
    · rw [regions, hregions, List.append_assoc]
      rfl
    · rcases List.mem_append.mp hmem with h | h
      · exact hended inner h
      · exact hclosed inner h

theorem unclosed_mem_regions_iff {zone : Zone} {cs inner : List Char} :
    .unclosed inner ∈ zone.regions cs ↔ zone.after cs = .string inner := by
  obtain ⟨closed, hregions, hclosed⟩ := zone.regions_eq cs
  rw [hregions, List.mem_append, or_iff_right (hclosed inner)]
  cases zone.after cs <;> simp [pending, eq_comm]

end Zone

namespace Segment
variable {c d : Char} {cs inner : List Char}

theorem split_string (h : '"' ∉ inner) (rest : List Char) :
    split ('"' :: (inner ++ '"' :: rest)) =
      ⟨.token .string (some (.string (String.ofList inner))), '"' :: (inner ++ ['"'])⟩ ::
        split rest := by
  have hin := bne_of_not_mem h
  have hlead : leading '"' (inner ++ '"' :: rest) =
      (.token .string (some (.string (String.ofList inner))), (inner ++ ['"']).length) := by
    rw [leading_quote, quoted]
    simp only [takeWhile_append_cons rest hin (rfl : ('"' != '"') = false),
      dropWhile_append_cons rest hin (rfl : ('"' != '"') = false), List.length_append,
      List.length_singleton]
  have hcs : inner ++ '"' :: rest = (inner ++ ['"']) ++ rest := List.append_cons inner '"' rest
  rw [split_cons, hlead, hcs, List.take_left, List.drop_left]

theorem split_unclosed (h : '"' ∉ inner) : split ('"' :: inner) = [⟨.unclosed, '"' :: inner⟩] := by
  have hin := bne_of_not_mem h
  have hlead : leading '"' inner = (.unclosed, inner.length) := by
    rw [leading_quote, quoted]
    simp only [List.takeWhile_eq_self_iff.mpr hin, List.dropWhile_eq_nil_iff.mpr hin]
  rw [split_cons, hlead, List.take_length, List.drop_length, split_nil]

theorem split_comment (cs : List Char) :
    split ('/' :: '/' :: cs) =
      ⟨.trivia, '/' :: '/' :: cs.takeWhile (· != '\n')⟩ :: split (cs.dropWhile (· != '\n')) := by
  rw [split_cons, leading_comment, take_takeWhile, drop_takeWhile]
  rfl

theorem quote_of_string {literal : Option Literal}
    (h : (leading c cs).1 = .token .string literal) : c = '"' := by
  rcases explains_leading c cs with ⟨p, hp⟩ | hstray
  · rw [hp.role_eq] at h
    cases p with
    | string =>
      obtain ⟨inner, -, hw⟩ := Pattern.mem_string.mp hp.matched
      exact (List.cons.inj hw).1
    | fixed kind =>
      cases h
      cases Pattern.mem_fixed.mp hp.matched
    | number | identifier | unterminated | comment | lineBreak | blank => cases h
  · rw [hstray] at h
    cases h

/-- The literal of a segment that is a string. -/
def stringLiteral? (s : Segment) : Option (Option Literal) :=
  match s.role with
  | .token .string literal => some literal
  | _ => none

theorem stringLiteral?_of_ne {s : Segment} (h : ∀ literal, s.role ≠ .token .string literal) :
    s.stringLiteral? = none := by
  unfold stringLiteral?
  split
  · next literal hrole => exact absurd hrole (h literal)
  · rfl

theorem mem_take_symbol (h : d ∈ cs.take (symbol c cs).2) : d = '=' := by
  unfold symbol at h
  split at h
  · next kind hkind =>
    split_ifs at hkind with hequal
    obtain ⟨rest, rfl⟩ := List.head?_eq_some_iff.mp hequal
    exact List.mem_singleton.mp h
  · cases h
  · cases h

/-- Numbers, words, blanks and symbols go on with characters that open nothing. -/
theorem plain_of_mem_take (hquote : c ≠ '"') (hcomment : ¬ (c = '/' ∧ cs.head? = some '/'))
    (hd : d ∈ cs.take (leading c cs).2) : d ≠ '"' ∧ d ≠ '/' := by
  have hplain : ∀ p : Char → Bool, p '"' = false → p '/' = false → p d → d ≠ '"' ∧ d ≠ '/' := by
    intro p hq hs hpd
    constructor
    · rintro rfl
      exact absurd hpd (by rw [hq]; decide)
    · rintro rfl
      exact absurd hpd (by rw [hs]; decide)
  unfold leading at hd
  split_ifs at hd
  · obtain ⟨fraction, hfraction, -, hcut⟩ := numeral_cut c cs
    rw [hcut] at hd
    rcases List.mem_append.mp hd with hd | hd
    · exact hplain Char.isDigit rfl rfl (List.mem_takeWhile_imp hd)
    · split_ifs at hd
      · cases hd
      · rcases List.mem_cons.mp hd with rfl | hd
        · decide
        · exact hplain Char.isDigit rfl rfl (hfraction d hd)
  · rw [word, take_takeWhile] at hd
    exact hplain isWordChar rfl rfl (List.mem_takeWhile_imp hd)
  · cases hd
  · rw [take_takeWhile] at hd
    exact hplain isBlank rfl rfl (List.mem_takeWhile_imp hd)
  · obtain rfl := mem_take_symbol hd
    decide

end Segment

/-- `Covers segments regions`: each segment is code, or one string or comment as a whole. -/
inductive Covers : List Segment → List Region → Prop
  | nil : Covers [] []
  | code {s : Segment} {segments : List Segment} {regions : List Region} :
      s.role ≠ .unclosed → (∀ literal, s.role ≠ .token .string literal) →
      Covers segments regions → Covers (s :: segments) (s.text.map .code ++ regions)
  | region {r : Region} {s : Segment} {segments : List Segment} {regions : List Region} :
      r.segment? = some s → Covers segments regions → Covers (s :: segments) (r :: regions)

namespace Covers
variable {segments : List Segment} {regions : List Region}

/-- A segment outside of strings and comments does not reach into one. -/
theorem cons_code {c : Char} {cs : List Char} (hquote : c ≠ '"')
    (hcomment : ¬ (c = '/' ∧ cs.head? = some '/'))
    (h : Covers segments (Zone.code.regions (cs.drop (leading c cs).2))) :
    Covers (⟨(leading c cs).1, c :: cs.take (leading c cs).2⟩ :: segments)
      (Zone.code.regions (c :: cs)) := by
  have hplain : ∀ d ∈ cs.take (leading c cs).2, d ≠ '"' ∧ d ≠ '/' :=
    fun d => plain_of_mem_take hquote hcomment
  have hregions : Zone.code.regions (c :: cs) = (c :: cs.take (leading c cs).2).map .code ++
      Zone.code.regions (cs.drop (leading c cs).2) := by
    rw [Zone.regions_code_cons hquote hcomment, List.map_cons, List.cons_append,
      ← Zone.regions_code hplain, List.take_append_drop]
  rw [hregions]
  exact .code (leading_ne_unclosed hquote cs) (fun _ hrole => hquote (quote_of_string hrole)) h

theorem cons_quote {cs : List Char}
    (h : ∀ rest, rest.length < cs.length → Covers (split rest) (Zone.code.regions rest)) :
    Covers (split ('"' :: cs)) (Zone.code.regions ('"' :: cs)) := by
  have hopen : Zone.code.regions ('"' :: cs) = (Zone.string []).regions cs := rfl
  by_cases hmem : '"' ∈ cs
  · obtain ⟨inner, rest, rfl, hinner⟩ := List.eq_append_cons_of_mem hmem
    rw [hopen, split_string hinner, Zone.regions_string hinner]
    refine .region rfl (h rest ?_)
    rw [List.length_append, List.length_cons]
    omega
  · rw [hopen, split_unclosed hmem, Zone.regions_unclosed hmem]
    exact .region rfl .nil

theorem cons_comment {cs : List Char}
    (h : ∀ rest, rest.length ≤ cs.length → Covers (split rest) (Zone.code.regions rest)) :
    Covers (split ('/' :: '/' :: cs)) (Zone.code.regions ('/' :: '/' :: cs)) := by
  have hopen : Zone.code.regions ('/' :: '/' :: cs) = (Zone.comment ['/', '/']).regions cs := rfl
  have hregions : (Zone.comment ['/', '/']).regions cs =
      .comment ('/' :: '/' :: cs.takeWhile (· != '\n')) ::
        Zone.code.regions (cs.dropWhile (· != '\n')) := by
    have hbreak : ∀ d ∈ (cs.dropWhile (· != '\n')).head?, d = '\n' := by
      intro d hd
      have := List.head?_dropWhile_not (· != '\n') cs
      rw [hd] at this
      simpa using this
    have hcs : cs.takeWhile (· != '\n') ++ cs.dropWhile (· != '\n') = cs :=
      List.takeWhile_append_dropWhile
    have hcomment := Zone.regions_comment (not_mem_takeWhile_bne '\n' cs) hbreak ['/', '/']
    rwa [hcs] at hcomment
  rw [hopen, split_comment, hregions]
  exact .region rfl (h _ (List.dropWhile_suffix _).length_le)

/-- The segments of a text are those of its reading. -/
theorem split_regions (cs : List Char) : Covers (split cs) (Zone.code.regions cs) := by
  -- By the length of the text: a string or a comment is skipped as a whole, so the reading is
  -- in code again where the next segment starts.
  induction hn : cs.length using Nat.strong_induction_on generalizing cs with
  | _ n ih =>
    cases cs with
    | nil =>
      rw [split_nil]
      exact .nil
    | cons c cs =>
      have hlt : ∀ rest : List Char, rest.length ≤ cs.length →
          Covers (split rest) (Zone.code.regions rest) := by
        intro rest hrest
        exact ih rest.length (by rw [← hn, List.length_cons]; omega) rest rfl
      by_cases hquote : c = '"'
      · subst hquote
        exact cons_quote fun rest hrest => hlt rest (Nat.le_of_lt hrest)
      by_cases hcomment : c = '/' ∧ cs.head? = some '/'
      · obtain ⟨rfl, hhead⟩ := hcomment
        obtain ⟨cs, rfl⟩ := List.head?_eq_some_iff.mp hhead
        exact cons_comment fun rest hrest => hlt rest (Nat.le_succ_of_le hrest)
      · rw [split_cons]
        refine cons_code hquote hcomment (hlt _ ?_)
        rw [List.length_drop]
        omega

theorem text_of_segment? {r : Region} {s : Segment} (h : r.segment? = some s) :
    r.text = s.text := by
  cases r with
  | code => cases h
  | string | unclosed | comment =>
    cases h
    rfl

theorem flatMap_text (h : Covers segments regions) :
    regions.flatMap Region.text = segments.flatMap Segment.text := by
  induction h with
  | nil => rfl
  | @code s segments regions _ _ _ ih =>
    have hcode : (s.text.map Region.code).flatMap Region.text = s.text := by
      rw [List.flatMap_map]
      exact List.flatMap_singleton' s.text
    rw [List.flatMap_append, hcode, ih, List.flatMap_cons]
  | region hr _ ih => rw [List.flatMap_cons, List.flatMap_cons, text_of_segment? hr, ih]

/-- A string or a comment is not among the characters of code in front of it. -/
theorem code_append {w : List Char} {front back : List Region} {r : Region} {s : Segment}
    (hr : r.segment? = some s) (h : w.map .code ++ regions = front ++ r :: back) :
    ∃ middle, front = w.map .code ++ middle ∧ regions = middle ++ r :: back := by
  induction w generalizing front with
  | nil => exact ⟨front, rfl, h⟩
  | cons c w ih =>
    cases front with
    | nil =>
      obtain ⟨rfl, -⟩ := List.cons.inj h
      cases hr
    | cons f front =>
      obtain ⟨rfl, hrest⟩ := List.cons.inj h
      obtain ⟨middle, rfl, hregions⟩ := ih hrest
      exact ⟨middle, rfl, hregions⟩

/-- Where a string or a comment is, the segments can be cut. -/
theorem cut {front back : List Region} {r : Region} {s : Segment}
    (h : Covers segments (front ++ r :: back)) (hr : r.segment? = some s) :
    ∃ earlier later, segments = earlier ++ s :: later ∧ Covers earlier front := by
  generalize hregions : front ++ r :: back = regions at h
  induction h generalizing front with
  | nil => simp at hregions
  | @code t segments regions hunclosed hstring _ ih =>
    obtain ⟨middle, rfl, hmiddle⟩ := code_append hr hregions.symm
    obtain ⟨earlier, later, rfl, hearlier⟩ := ih hmiddle.symm
    exact ⟨t :: earlier, later, rfl, .code hunclosed hstring hearlier⟩
  | @region q t segments regions hq _ ih =>
    cases front with
    | nil =>
      obtain ⟨rfl, rfl⟩ := List.cons.inj hregions
      obtain rfl := Option.some.inj (hq.symm.trans hr)
      exact ⟨[], segments, rfl, .nil⟩
    | cons f front =>
      obtain ⟨rfl, hrest⟩ := List.cons.inj hregions
      obtain ⟨earlier, later, rfl, hearlier⟩ := ih hrest
      exact ⟨t :: earlier, later, rfl, .region hq hearlier⟩

/-- Only a string that is not closed is such a segment. -/
theorem exists_unclosed {s : Segment} (h : Covers segments regions) (hs : s ∈ segments)
    (hrole : s.role = .unclosed) : ∃ inner, .unclosed inner ∈ regions := by
  induction h with
  | nil => cases hs
  | code hunclosed _ _ ih =>
    rcases List.mem_cons.mp hs with rfl | hs
    · exact absurd hrole hunclosed
    · obtain ⟨inner, hinner⟩ := ih hs
      exact ⟨inner, List.mem_append_right _ hinner⟩
  | @region r t segments regions hr _ ih =>
    rcases List.mem_cons.mp hs with rfl | hs
    · cases r with
      | unclosed inner => exact ⟨inner, List.mem_cons_self⟩
      | code => cases hr
      | string | comment =>
        cases hr
        cases hrole
    · obtain ⟨inner, hinner⟩ := ih hs
      exact ⟨inner, List.mem_cons_of_mem _ hinner⟩

theorem filterMap_stringLiteral? (h : Covers segments regions) :
    segments.filterMap stringLiteral? =
      (regions.filterMap Region.quoted?).map fun inner => some (.string (String.ofList inner)) := by
  induction h with
  | nil => rfl
  | @code s segments regions _ hstring _ ih =>
    have hcode : (s.text.map Region.code).filterMap Region.quoted? = [] := by
      rw [List.filterMap_map]
      exact List.filterMap_eq_nil_iff.mpr fun _ _ => rfl
    rw [List.filterMap_append, hcode, List.nil_append, ← ih,
      List.filterMap_cons_none (stringLiteral?_of_ne hstring)]
  | @region r s segments regions hr _ ih =>
    cases r with
    | code => cases hr
    | string =>
      cases hr
      exact congrArg (_ :: ·) ih
    | unclosed | comment =>
      cases hr
      exact ih

end Covers

/-- The literals of the string tokens are those of the segments. -/
theorem Scan.map_literal_ofChars (cs : List Char) :
    ((ofChars cs).tokens.filter (·.kind = .string)).map Token.literal =
      (split cs).filterMap stringLiteral? := by
  have hplaced : ∀ p : Placed,
      (p.token?.filter (·.kind = .string)).map Token.literal = p.toSegment.stringLiteral? := by
    intro p
    unfold Placed.token? stringLiteral?
    cases p.role with
    | token kind literal => cases kind <;> rfl
    | trivia | stray | unclosed => rfl
  have heof : ([.eof (1 + lineBreaks cs)] : List Token).filter (·.kind = .string) = [] := rfl
  rw [tokens_ofChars, List.filter_append, heof, List.append_nil, List.filter_filterMap,
    List.map_filterMap, funext hplaced, Source.layout]
  nth_rewrite 2 [← Placed.map_toSegment_along 0 1 (split cs)]
  rw [List.filterMap_map]
  rfl

/-- A cut between segments is one between segments at their places. -/
theorem layout_of_split {cs : List Char} {earlier later : List Segment} {s : Segment}
    (h : split cs = earlier ++ s :: later) (line : Nat) :
    ∃ (before : List Placed) (p : Placed) (after : List Placed),
      Source.layout cs line = before ++ p :: after ∧
      before.map Placed.toSegment = earlier ∧ p.toSegment = s := by
  rw [← Placed.map_toSegment_along 0 line (split cs)] at h
  obtain ⟨before, rest, hlayout, hbefore, hrest⟩ := List.map_eq_append_iff.mp h
  obtain ⟨p, after, rfl, hp, -⟩ := List.map_eq_cons_iff.mp hrest
  exact ⟨before, p, after, hlayout, hbefore, hp⟩

/-- A string or a comment is one segment of the text, which starts where the text before it
ends. -/
theorem layout_of_region {cs : List Char} {front back : List Region} {r : Region} {s : Segment}
    (hregions : Zone.code.regions cs = front ++ r :: back) (hr : r.segment? = some s)
    (line : Nat) :
    ∃ (before : List Placed) (p : Placed) (after : List Placed),
      Source.layout cs line = before ++ p :: after ∧
      before.flatMap (·.text) = front.flatMap Region.text ∧ p.toSegment = s := by
  have hcovers := Covers.split_regions cs
  rw [hregions] at hcovers
  obtain ⟨earlier, later, hsplit, hearlier⟩ := hcovers.cut hr
  obtain ⟨before, p, after, hlayout, rfl, hp⟩ := layout_of_split hsplit line
  refine ⟨before, p, after, hlayout, ?_, hp⟩
  rw [hearlier.flatMap_text, List.flatMap_map]

/-- A string that is not closed is the last segment, and there is only one. -/
theorem layout_of_open {cs inner : List Char} (h : Zone.code.after cs = .string inner)
    (line : Nat) :
    ∃ (before : List Placed) (p : Placed),
      Source.layout cs line = before ++ [p] ∧ p.toSegment = ⟨.unclosed, '"' :: inner⟩ ∧
      ∀ q ∈ before, q.role ≠ .unclosed := by
  obtain ⟨front, back, hregions⟩ := List.append_of_mem (Zone.unclosed_mem_regions_iff.mpr h)
  obtain ⟨before, p, after, hlayout, -, hp⟩ := layout_of_region hregions rfl line
  have hrole : p.role = .unclosed := congrArg Segment.role hp
  have hlast := unclosed_last hrole _ (split_of_layout hlayout)
  obtain rfl : after = [] := List.map_eq_nil_iff.mp hlast
  refine ⟨before, p, hlayout, hp, fun q hq hunclosed => ?_⟩
  -- An unclosed string further in front would be the last segment as well.
  obtain ⟨first, second, rfl⟩ := List.append_of_mem hq
  rw [List.append_assoc, List.cons_append] at hlayout
  have hnil := unclosed_last hunclosed _ (split_of_layout hlayout)
  simp at hnil

/-- The tokens and errors of a text that leaves a string open. -/
theorem scan_of_open {cs inner : List Char} (h : Zone.code.after cs = .string inner) :
    let last := 1 + lineBreaks cs
    ∃ (before : List Placed) (p : Placed),
      Source.layout cs 1 = before ++ [p] ∧ p.text = '"' :: inner ∧
      (Scan.ofChars cs).tokens = before.filterMap Placed.token? ++ [.eof last] ∧
      (Scan.ofChars cs).errors =
        before.filterMap Placed.error? ++ [.unterminatedString last] ∧
      ∀ n, .unterminatedString n ∉ before.filterMap Placed.error? := by
  intro last
  obtain ⟨before, p, hlayout, hp, hbefore⟩ := layout_of_open h 1
  have hrole : p.role = .unclosed := congrArg Segment.role hp
  have htoken : p.token? = none := by simp only [Placed.token?, hrole]
  have herror : p.error? = some (.unterminatedString last) := by
    have he : p.error? = some (.unterminatedString p.line) := by
      simp only [Placed.error?, hrole]
    have hmem : p ∈ Source.layout cs 1 := by
      rw [hlayout]
      exact List.mem_concat_self
    rwa [line_of_unterminated hmem he] at he
  refine ⟨before, p, hlayout, congrArg Segment.text hp, ?_, ?_, fun n hn => ?_⟩
  · simp only [Scan.tokens_ofChars, hlayout, List.filterMap_append, List.filterMap_cons, htoken,
      List.filterMap_nil, List.append_nil, last]
  · simp only [Scan.ofChars, hlayout, List.filterMap_append, List.filterMap_cons, herror,
      List.filterMap_nil]
  · obtain ⟨q, hq, he⟩ := List.mem_filterMap.mp hn
    exact hbefore q hq (Placed.role_of_error? he)

theorem unterminated_iff {cs : List Char} :
    (∃ n, .unterminatedString n ∈ (Scan.ofChars cs).errors) ↔
      ∃ inner, Zone.code.after cs = .string inner := by
  constructor
  · rintro ⟨n, hn⟩
    obtain ⟨p, hp, he⟩ := List.mem_filterMap.mp hn
    have hmem : p.toSegment ∈ split cs := by
      rw [← Placed.map_toSegment_along 0 1 (split cs)]
      exact List.mem_map_of_mem hp
    obtain ⟨inner, hinner⟩ :=
      (Covers.split_regions cs).exists_unclosed hmem (Placed.role_of_error? he)
    exact ⟨inner, Zone.unclosed_mem_regions_iff.mp hinner⟩
  · rintro ⟨inner, hinner⟩
    obtain ⟨before, -, -, -, -, herrors, -⟩ := scan_of_open hinner
    refine ⟨1 + lineBreaks cs, ?_⟩
    rw [herrors]
    exact List.mem_concat_self

/-- Strings and comments are delimited by the reading. The string tokens are the closed
strings, in order. An unclosed string is reported if the text ends inside a string, once, as
the last error and on the last line, and nothing else comes from its text. Every string and
every comment is one segment, so nothing inside it is a token or an error of its own. -/
theorem scan_delimited (source : String) :
    let regions := Zone.code.regions source.toList
    let layout := Source.layout source.toList 1
    let last := 1 + lineBreaks source.toList
    regions.flatMap Region.text = source.toList ∧
    layout.flatMap (·.text) = source.toList ∧
    (scan source).tokens = layout.filterMap Placed.token? ++ [.eof last] ∧
    (scan source).errors = layout.filterMap Placed.error? ∧
    ((scan source).tokens.filter (·.kind = .string)).map Token.literal =
      (regions.filterMap Region.quoted?).map
        (fun inner => some (.string (String.ofList inner))) ∧
    ((∃ n, .unterminatedString n ∈ (scan source).errors) ↔
      ∃ inner, Zone.code.after source.toList = .string inner) ∧
    (∀ inner, Zone.code.after source.toList = .string inner →
      ∃ (before : List Placed) (p : Placed), layout = before ++ [p] ∧ p.text = '"' :: inner ∧
        (scan source).tokens = before.filterMap Placed.token? ++ [.eof last] ∧
        (scan source).errors =
          before.filterMap Placed.error? ++ [.unterminatedString last] ∧
        ∀ n, .unterminatedString n ∉ before.filterMap Placed.error?) ∧
    ∀ (front : List Region) (r : Region) (back : List Region), regions = front ++ r :: back →
      ∀ s ∈ r.segment?, ∃ (before : List Placed) (p : Placed) (after : List Placed),
        layout = before ++ p :: after ∧
        before.flatMap (·.text) = front.flatMap Region.text ∧ p.toSegment = s := by
  intro regions layout last
  have hcovers : Covers (split source.toList) regions := Covers.split_regions source.toList
  have htext : regions.flatMap Region.text = source.toList := by
    rw [hcovers.flatMap_text, flatMap_text_split]
  have hstrings := Scan.map_literal_ofChars source.toList
  rw [hcovers.filterMap_stringLiteral?] at hstrings
  exact ⟨htext, flatMap_text_layout _ 1, Scan.tokens_ofChars _, rfl, hstrings, unterminated_iff,
    fun inner h => scan_of_open h, fun front r back h s hs => layout_of_region h hs 1⟩

/-- A comment that holds a quote, a string that holds slashes, and a string that is not closed
and holds a stray character. -/
theorem scan_delimited_nested :
    let source := "//\"\n\"//\"\"@"
    Zone.code.after source.toList = .string ['@'] ∧
    Zone.code.regions source.toList = [] ++ .comment ['/', '/', '"'] ::
      [.code '\n', .string ['/', '/'], .unclosed ['@']] ∧
    ((scan source).tokens.filter (·.kind = .string)).map Token.literal = [some (.string "//")] ∧
    (∃ before : List Placed,
      (scan source).tokens = before.filterMap Placed.token? ++ [.eof 2] ∧
      (scan source).errors = before.filterMap Placed.error? ++ [.unterminatedString 2] ∧
      ∀ n, .unterminatedString n ∉ before.filterMap Placed.error?) ∧
    ∃ (before : List Placed) (p : Placed) (after : List Placed),
      Source.layout source.toList 1 = before ++ p :: after ∧
      before.flatMap (·.text) = [] ∧ p.toSegment = ⟨.trivia, ['/', '/', '"']⟩ := by
  intro source
  obtain ⟨-, -, -, -, hstrings, -, hopen, hregion⟩ := scan_delimited source
  have hafter : Zone.code.after source.toList = .string ['@'] := by decide +kernel
  have hregions : Zone.code.regions source.toList = [] ++ .comment ['/', '/', '"'] ::
      [.code '\n', .string ['/', '/'], .unclosed ['@']] := by decide +kernel
  have hlast : 1 + lineBreaks source.toList = 2 := by decide +kernel
  obtain ⟨before, -, -, -, htokens, herrors, honce⟩ := hopen ['@'] hafter
  rw [hlast] at htokens herrors
  rw [hregions] at hstrings
  exact ⟨hafter, hregions, hstrings, ⟨before, htokens, herrors, honce⟩,
    hregion [] _ _ hregions _ rfl⟩

end Reckon
