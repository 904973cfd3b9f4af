import Reckon.Expr.Print
import Reckon.Proofs.LineBlindness
import Reckon.Proofs.NumberText

/-!
# A printed tree can be read in one way

What a tree is printed as determines the tree, up to the lines of its operators. A literal
ends where a space or a parenthesis follows, unless it is a string, which ends at its second
quote. Any other tree is a parenthesis, a name without spaces and the printed children, each
after a space. So in a text that starts with a printed tree it is clear where that tree ends
and what its parts are. For this, strings must have no quotes in them and operators must be
written as their kinds are, and scanning makes no other strings and operators.
-/
namespace Reckon

section Cut
variable {p : Char → Bool} {v w r s : List Char}

theorem takeWhile_append_stop (hv : ∀ c ∈ v, p c) (hr : ∀ c ∈ r.head?, p c = false) :
    (v ++ r).takeWhile p = v := by
  cases r with
  | nil => rw [List.append_nil, List.takeWhile_eq_self_iff.mpr hv]
  | cons c r => exact Segment.takeWhile_append_cons r hv (hr c rfl)

/-- A text can be cut in one way into characters of one sort and a rest that starts with
none of these. -/
theorem cut_unique (hv : ∀ c ∈ v, p c) (hw : ∀ c ∈ w, p c) (hr : ∀ c ∈ r.head?, p c = false)
    (hs : ∀ c ∈ s.head?, p c = false) (h : v ++ r = w ++ s) : v = w ∧ r = s := by
  have hvw : v = w := by
    rw [← takeWhile_append_stop hv hr, h, takeWhile_append_stop hw hs]
  subst hvw
  exact ⟨rfl, List.append_cancel_left h⟩

end Cut

/-- Whether a character does not end a word of a printed tree. -/
def isInner (c : Char) : Bool := c != ' ' && c != ')'

/-- What can follow a printed tree inside another one. -/
abbrev Delimits (rest : List Char) : Prop := ∀ c ∈ rest.head?, isInner c = false

namespace Value

/-- The characters of literals that are no strings. -/
def isPlainChar (c : Char) : Bool := c.isAlphanum || c == '-' || c == '.'

theorem isInner_of_isPlainChar {c : Char} (h : isPlainChar c) : isInner c := by
  rw [isInner, Bool.and_eq_true, bne_iff_ne, bne_iff_ne]
  constructor
  · rintro rfl
    cases h
  · rintro rfl
    cases h

theorem isPlainChar_of_mem_text {x : Float} {c : Char} (h : c ∈ (Number.text x).toList) :
    isPlainChar c := by
  rcases Number.mem_text h with hdigit | hmem
  · simp [isPlainChar, Char.isAlphanum, hdigit]
  · have hall : ['-', '.', 'i', 'n', 'f', 'N', 'a'].all isPlainChar := by decide
    exact List.all_eq_true.mp hall c hmem

theorem isPlainChar_of_mem {v : Value} (hv : v.isString = false) :
    ∀ c ∈ v.quoted.toList, isPlainChar c := by
  cases v with
  | nil => exact List.all_eq_true.mp (by decide)
  | boolean b => cases b <;> exact List.all_eq_true.mp (by decide)
  | number x => exact fun c => isPlainChar_of_mem_text
  | string s => cases hv

/-- No number is shown with one of these letters. -/
theorem quoted_number_ne {x : Float} {text : String} {c : Char} (h : c ∈ text.toList)
    (hc : c = 'l' ∨ c = 't') : (number x).quoted ≠ text := by
  rintro rfl
  have hmem := Number.mem_text h
  revert hmem
  rcases hc with rfl | rfl <;> decide

theorem eq_number_of_quoted {x : Float} {w : Value} (hw : w.isString = false)
    (h : (number x).quoted = w.quoted) : number x = w := by
  cases w with
  | nil => exact absurd h (quoted_number_ne (by decide) (.inl rfl))
  | boolean b =>
    cases b with
    | true => exact absurd h (quoted_number_ne (by decide) (.inr rfl))
    | false => exact absurd h (quoted_number_ne (by decide) (.inl rfl))
  | number y => exact congrArg number (Number.text_injective h)
  | string s => cases hw

theorem quoted_injective {v w : Value} (hv : v.isString = false) (hw : w.isString = false)
    (h : v.quoted = w.quoted) : v = w := by
  cases v with
  | number x => exact eq_number_of_quoted hw h
  | string s => cases hv
  | nil =>
    cases w with
    | nil => rfl
    | boolean b => cases b <;> exact absurd h (by decide)
    | number x => exact (eq_number_of_quoted hv h.symm).symm
    | string s => cases hw
  | boolean b =>
    cases w with
    | nil => cases b <;> exact absurd h (by decide)
    | boolean b' =>
      cases b <;> cases b'
      · rfl
      · exact absurd h (by decide)
      · exact absurd h (by decide)
      · rfl
    | number x => exact (eq_number_of_quoted hv h.symm).symm
    | string s => cases hw

/-- A literal as it is scanned: a string has no quotes in it. -/
def Legible (v : Value) : Prop := ∀ s, v = string s → '"' ∉ s.toList

theorem toList_quoted_string (s : String) :
    (string s).quoted.toList = '"' :: (s.toList ++ ['"']) := by simp [quoted]

/-- No other literal starts like a string or a node. -/
theorem quoted_append_ne {v : Value} (hv : v.isString = false) {c : Char} {r rest : List Char}
    (hr : Delimits r) (hc : c = '"' ∨ c = '(') : v.quoted.toList ++ r ≠ c :: rest := by
  intro h
  cases htext : v.quoted.toList with
  | nil =>
    rw [htext, List.nil_append] at h
    have hinner := hr c (by rw [h]; rfl)
    rcases hc with rfl | rfl <;> cases hinner
  | cons d text =>
    rw [htext] at h
    obtain rfl : d = c := (List.cons.inj h).1
    have hplain := isPlainChar_of_mem hv d (by rw [htext]; exact List.mem_cons_self)
    rcases hc with rfl | rfl <;> cases hplain

theorem string_or_plain (v : Value) : (∃ s, v = string s) ∨ v.isString = false := by
  cases v with
  | string s => exact .inl ⟨s, rfl⟩
  | nil | boolean _ | number _ => exact .inr rfl

theorem quoted_append_ne_node (v : Value) {r : List Char} (hr : Delimits r) (rest : List Char) :
    v.quoted.toList ++ r ≠ '(' :: rest := by
  rcases v.string_or_plain with ⟨s, rfl⟩ | hplain
  · simp [toList_quoted_string]
  · exact quoted_append_ne hplain hr (.inr rfl)

/-- A string ends at the second quote. -/
theorem quoted_string_unique {a b : String} (ha : (string a).Legible) (hb : (string b).Legible)
    {r s : List Char} (h : (string a).quoted.toList ++ r = (string b).quoted.toList ++ s) :
    a = b ∧ r = s := by
  have hinner : ∀ {u : String}, (string u).Legible → ∀ c ∈ u.toList, (c != '"') = true :=
    fun hu => Segment.bne_of_not_mem (hu _ rfl)
  simp only [toList_quoted_string, List.cons_append, List.append_assoc, List.cons.injEq,
    true_and, List.nil_append] at h
  have hquote : ∀ rest : List Char, ∀ c ∈ ('"' :: rest).head?, (c != '"') = false := by simp
  obtain ⟨hab, hrest⟩ := cut_unique (hinner ha) (hinner hb) (hquote r) (hquote s) h
  exact ⟨String.toList_injective hab, (List.cons.inj hrest).2⟩

/-- Where a literal ends can be seen from the text, and which one it is. -/
theorem quoted_unique {v w : Value} (hv : v.Legible) (hw : w.Legible) {r s : List Char}
    (hr : Delimits r) (hs : Delimits s) (h : v.quoted.toList ++ r = w.quoted.toList ++ s) :
    v = w ∧ r = s := by
  rcases v.string_or_plain with ⟨a, rfl⟩ | hplain
  · rcases w.string_or_plain with ⟨b, rfl⟩ | hplain'
    · obtain ⟨rfl, hrest⟩ := quoted_string_unique hv hw h
      exact ⟨rfl, hrest⟩
    · rw [toList_quoted_string] at h
      exact absurd h.symm (quoted_append_ne hplain' hs (.inl rfl))
  · rcases w.string_or_plain with ⟨b, rfl⟩ | hplain'
    · rw [toList_quoted_string] at h
      exact absurd h (quoted_append_ne hplain hr (.inl rfl))
    · have hinner : ∀ {u : Value}, u.isString = false → ∀ c ∈ u.quoted.toList, isInner c :=
        fun hu c hc => isInner_of_isPlainChar (isPlainChar_of_mem hu c hc)
      obtain ⟨htext, hrest⟩ := cut_unique (hinner hplain) (hinner hplain') hr hs h
      exact ⟨quoted_injective hplain hplain' (String.toList_injective htext), hrest⟩

end Value

/-- An operator as it is scanned: always written the same, and without a literal. -/
structure Token.IsSpelled (t : Token) : Prop where
  spelling : t.kind.spelling? = some t.lexeme
  literal : t.literal = none

namespace Token.IsSpelled
variable {t u : Token}

theorem kind_eq (ht : t.IsSpelled) (hu : u.IsSpelled) (h : t.lexeme = u.lexeme) :
    t.kind = u.kind := by
  have hmem : ∀ {v : Token}, v.IsSpelled → v.lexeme.toList ∈ (Pattern.fixed v.kind).language := by
    intro v hv
    rw [Pattern.mem_fixed, String.ofList_toList]
    exact hv.spelling
  have hkind := ofSpelling_of_mem (hmem ht)
  rw [h, ofSpelling_of_mem (hmem hu)] at hkind
  exact (Option.some.inj hkind).symm

/-- The text of an operator determines all of it but its line. -/
theorem renumber_eq (ht : t.IsSpelled) (hu : u.IsSpelled) (h : t.lexeme = u.lexeme) :
    t.renumber (fun _ => 0) = u.renumber fun _ => 0 := by
  simp only [Token.renumber, h, ht.kind_eq hu h, ht.literal, hu.literal]

theorem isInner_of_mem (ht : t.IsSpelled) (hkind : t.kind ∈ unaryKinds ++ binaryKinds) :
    ∀ c ∈ t.lexeme.toList, isInner c := by
  have hall : ∀ kind ∈ unaryKinds ++ binaryKinds, ∀ text ∈ kind.spelling?,
      text.toList.all isInner := by decide
  exact List.all_eq_true.mp (hall _ hkind _ ht.spelling)

end Token.IsSpelled

namespace Expr

/-- The name of a node. -/
def heading : Expr → String
  | literal value => value.quoted
  | unary operator _ => operator.lexeme
  | binary _ operator _ => operator.lexeme
  | grouping _ => "group"
  | ternary _ _ _ => "ternary"

def children : Expr → List Expr
  | literal _ => []
  | unary _ operand => [operand]
  | binary left _ right => [left, right]
  | grouping inner => [inner]
  | ternary condition thenBranch elseBranch => [condition, thenBranch, elseBranch]

theorem exists_literal {e : Expr} (h : e.children = []) : ∃ value, e = literal value := by
  cases e with
  | literal value => exact ⟨value, rfl⟩
  | unary | binary | grouping | ternary => cases h

/-- A proof about the children of a tree carries over to the tree. -/
theorem children_induction {P : Expr → Prop} (step : ∀ e, (∀ c ∈ e.children, P c) → P e)
    (e : Expr) : P e := by
  induction e with
  | literal value => exact step _ (by simp [children])
  | unary operator operand ih => exact step _ (by simp [children, ih])
  | binary left operator right ihl ihr => exact step _ (by simp [children, ihl, ihr])
  | grouping inner ih => exact step _ (by simp [children, ih])
  | ternary condition thenBranch elseBranch ihc iha ihb =>
    exact step _ (by simp [children, ihc, iha, ihb])

/-- A child as it stands in a printed node. -/
def spacedPrint (e : Expr) : List Char := ' ' :: e.print.toList

theorem toList_print {e : Expr} (h : e.children ≠ []) :
    e.print.toList = '(' :: (e.heading.toList ++ (e.children.flatMap spacedPrint ++ [')'])) := by
  cases e with
  | literal value => exact absurd rfl h
  | unary | binary | grouping | ternary =>
    simp [print, node, heading, children, spacedPrint, String.intercalate_cons_cons]

/-- A tree as it is read from a scanned text. -/
def Legible : Expr → Prop
  | literal value => value.Legible
  | unary operator operand =>
    operator.kind ∈ unaryKinds ∧ operator.IsSpelled ∧ operand.Legible
  | binary left operator right =>
    operator.kind ∈ binaryKinds ∧ operator.IsSpelled ∧ left.Legible ∧ right.Legible
  | grouping inner => inner.Legible
  | ternary condition thenBranch elseBranch =>
    condition.Legible ∧ thenBranch.Legible ∧ elseBranch.Legible

namespace Legible
variable {e e' : Expr}

theorem children (h : e.Legible) : ∀ c ∈ e.children, c.Legible := by
  cases e with
  | literal value => simp [Expr.children]
  | unary operator operand => simpa [Expr.children] using h.2.2
  | binary left operator right => simpa [Expr.children] using h.2.2
  | grouping inner => exact List.forall_mem_singleton.mpr h
  | ternary condition thenBranch elseBranch => simpa [Expr.children, Legible] using h

theorem isInner_heading (h : e.Legible) (hnode : e.children ≠ []) :
    ∀ c ∈ e.heading.toList, isInner c := by
  cases e with
  | literal value => exact absurd rfl hnode
  | unary operator operand => exact h.2.1.isInner_of_mem (List.mem_append_left _ h.1)
  | binary left operator right => exact h.2.1.isInner_of_mem (List.mem_append_right _ h.1)
  | grouping inner =>
    have hall : "group".toList.all isInner := by decide
    exact List.all_eq_true.mp hall
  | ternary condition thenBranch elseBranch =>
    have hall : "ternary".toList.all isInner := by decide
    exact List.all_eq_true.mp hall

/-- No operator is called like a group. -/
theorem lexeme_ne_group {t : Token} (ht : t.IsSpelled) (hkind : t.kind ∈ unaryKinds) :
    t.lexeme ≠ "group" := by
  have hall : ∀ kind ∈ unaryKinds, kind.spelling? ≠ some "group" := by decide
  intro h
  exact hall _ hkind (h ▸ ht.spelling)

/-- The name of a node and its children determine the node. The number of children tells an
operator before an operand from one between operands. -/
theorem renumber_eq (h : e.Legible) (h' : e'.Legible) (hnode : e.children ≠ [])
    (hheading : e.heading = e'.heading)
    (hchildren : e.children.map (renumber fun _ => 0) = e'.children.map (renumber fun _ => 0)) :
    e.renumber (fun _ => 0) = e'.renumber fun _ => 0 := by
  cases e with
  | literal value => exact absurd rfl hnode
  | unary o a =>
    cases e' with
    | unary o' a' =>
      simp only [renumber, h.2.1.renumber_eq h'.2.1 hheading, (List.cons.inj hchildren).1]
    | grouping a' => exact absurd hheading (lexeme_ne_group h.2.1 h.1)
    | literal _ | binary _ _ _ | ternary _ _ _ => simp [Expr.children] at hchildren
  | grouping a =>
    cases e' with
    | grouping a' => simp only [renumber, (List.cons.inj hchildren).1]
    | unary o' a' => exact absurd hheading.symm (lexeme_ne_group h'.2.1 h'.1)
    | literal _ | binary _ _ _ | ternary _ _ _ => simp [Expr.children] at hchildren
  | binary a o b =>
    cases e' with
    | binary a' o' b' =>
      obtain ⟨hleft, hright⟩ := List.cons.inj hchildren
      simp only [renumber, h.2.1.renumber_eq h'.2.1 hheading, hleft, (List.cons.inj hright).1]
    | literal _ | unary _ _ | grouping _ | ternary _ _ _ => simp [Expr.children] at hchildren
  | ternary c a b =>
    cases e' with
    | ternary c' a' b' =>
      obtain ⟨hc, hrest⟩ := List.cons.inj hchildren
      obtain ⟨ha, hb⟩ := List.cons.inj hrest
      simp only [renumber, hc, ha, (List.cons.inj hb).1]
    | literal _ | unary _ _ | grouping _ | binary _ _ _ => simp [Expr.children] at hchildren

end Legible

/-- A tree and where it ends can be seen from any text that starts with its printed form. -/
def ReadsOff (e : Expr) : Prop :=
  ∀ (e' : Expr) (r r' : List Char), e.Legible → e'.Legible → Delimits r → Delimits r' →
    e.print.toList ++ r = e'.print.toList ++ r' →
    e.renumber (fun _ => 0) = e'.renumber (fun _ => 0) ∧ r = r'

/-- Behind a name or a child comes the next child, or the parenthesis that closes the node. -/
theorem delimits_children (es : List Expr) (r : List Char) :
    Delimits (es.flatMap spacedPrint ++ ')' :: r) := by
  cases es with
  | nil =>
    rintro c ⟨⟩
    rfl
  | cons e es =>
    rintro c ⟨⟩
    rfl

theorem readsOff_children {es es' : List Expr} (hes : ∀ e ∈ es, e.ReadsOff)
    (hl : ∀ e ∈ es, e.Legible) (hl' : ∀ e ∈ es', e.Legible) {r r' : List Char}
    (h : es.flatMap spacedPrint ++ ')' :: r = es'.flatMap spacedPrint ++ ')' :: r') :
    es.map (renumber fun _ => 0) = es'.map (renumber fun _ => 0) ∧ r = r' := by
  induction es generalizing es' with
  | nil =>
    cases es' with
    | nil => exact ⟨rfl, (List.cons.inj h).2⟩
    | cons e' es' => simp [spacedPrint] at h
  | cons e es ih =>
    cases es' with
    | nil => simp [spacedPrint] at h
    | cons e' es' =>
      obtain ⟨he, hes⟩ := List.forall_mem_cons.mp hes
      obtain ⟨hle, hl⟩ := List.forall_mem_cons.mp hl
      obtain ⟨hle', hl'⟩ := List.forall_mem_cons.mp hl'
      simp only [List.flatMap_cons, spacedPrint, List.cons_append, List.append_assoc,
        List.cons.injEq, true_and] at h
      obtain ⟨hfirst, hrest⟩ := he e' _ _ hle hle' (delimits_children es r)
        (delimits_children es' r') h
      obtain ⟨hothers, hr⟩ := ih hes hl hl' hrest
      exact ⟨by rw [List.map_cons, List.map_cons, hfirst, hothers], hr⟩

/-- A node of which the children read off reads off. -/
theorem readsOff_node {e e' : Expr} (ih : ∀ c ∈ e.children, c.ReadsOff) (hl : e.Legible)
    (hl' : e'.Legible) (hnode : e.children ≠ []) (hnode' : e'.children ≠ []) {r r' : List Char}
    (h : e.print.toList ++ r = e'.print.toList ++ r') :
    e.renumber (fun _ => 0) = e'.renumber (fun _ => 0) ∧ r = r' := by
  simp only [toList_print hnode, toList_print hnode', List.cons_append, List.append_assoc,
    List.cons.injEq, true_and, List.nil_append] at h
  obtain ⟨hheading, hrest⟩ := cut_unique (hl.isInner_heading hnode) (hl'.isInner_heading hnode')
    (delimits_children e.children r) (delimits_children e'.children r') h
  obtain ⟨hchildren, hr⟩ := readsOff_children ih hl.children hl'.children hrest
  exact ⟨hl.renumber_eq hl' hnode (String.toList_injective hheading) hchildren, hr⟩

theorem readsOff (e : Expr) : e.ReadsOff := by
  refine children_induction (fun e ih => ?_) e
  intro e' r r' hl hl' hr hr' h
  by_cases hnode : e.children = []
  · obtain ⟨v, rfl⟩ := exists_literal hnode
    by_cases hnode' : e'.children = []
    · obtain ⟨w, rfl⟩ := exists_literal hnode'
      obtain ⟨rfl, hrest⟩ := Value.quoted_unique hl hl' hr hr' h
      exact ⟨rfl, hrest⟩
    · rw [toList_print hnode'] at h
      exact absurd h (v.quoted_append_ne_node hr _)
  · by_cases hnode' : e'.children = []
    · obtain ⟨w, rfl⟩ := exists_literal hnode'
      rw [toList_print hnode] at h
      exact absurd h.symm (w.quoted_append_ne_node hr' _)
    · exact readsOff_node ih hl hl' hnode hnode' h

/-- Legible trees that are printed as the same text differ at most in lines. -/
theorem renumber_eq_of_print {e e' : Expr} (hl : e.Legible) (hl' : e'.Legible)
    (h : e.print = e'.print) : e.renumber (fun _ => 0) = e'.renumber fun _ => 0 := by
  have hnone : Delimits [] := nofun
  exact (e.readsOff e' [] [] hl hl' hnone hnone (by rw [h])).1

end Expr

/-- A token that some pattern makes. -/
def Token.IsMade (t : Token) : Prop :=
  ∃ p : Pattern, p.kind? = some t.kind ∧ t.lexeme.toList ∈ p.language ∧
    t.literal = p.literal? t.lexeme.toList

namespace Token.IsMade
variable {t : Token}

theorem isSpelled (h : t.IsMade) (hkind : t.kind.spelling?.isSome) : t.IsSpelled := by
  obtain ⟨p, hp, hw, hliteral⟩ := h
  cases p with
  | fixed kind =>
    cases hp
    rw [Pattern.mem_fixed, String.ofList_toList] at hw
    exact ⟨hw, hliteral⟩
  | number | string | identifier =>
    rw [← Option.some.inj hp] at hkind
    cases hkind
  | unterminated | comment | lineBreak | blank => cases hp

/-- A string that is scanned has no quotes in it. -/
theorem not_mem_string (h : t.IsMade) {s : String} (hs : t.literal = some (.string s)) :
    '"' ∉ s.toList := by
  obtain ⟨p, -, hw, hliteral⟩ := h
  rw [hs] at hliteral
  cases p with
  | string =>
    obtain ⟨inner, hinner, hlexeme⟩ := Pattern.mem_string.mp hw
    have hs : s = String.ofList inner := by
      rw [hlexeme] at hliteral
      simpa [Pattern.literal?] using hliteral
    rwa [hs, String.toList_ofList]
  | number | fixed _ | identifier | unterminated | comment | lineBreak | blank => cases hliteral

end Token.IsMade

theorem isMade_of_mem_scan {source : String} {t : Token}
    (h : t ∈ (scan source).tokens.dropLast) : t.IsMade := by
  obtain ⟨pieces, hmunch, -⟩ := munch_split source.toList
  rw [scan, Scan.ofChars, List.dropLast_concat] at h
  exact hmunch.exists_pattern h

theorem Grammar.Atom.legible {t : Token} {v : Value} (h : Atom t v) (ht : t.IsMade) :
    v.Legible := by
  cases h with
  | falsehood _ | truth _ | nothing _ => nofun
  | @literal l _ hl =>
    intro s hs
    cases l with
    | number x => cases hs
    | string s' =>
      cases hs
      exact ht.not_mem_string hl

/-- The tree of tokens that are scanned is legible. -/
theorem Grammar.Derives.legible {s : Symbol} {p : List Token} {e : Expr} (h : Derives s p e)
    (hp : ∀ t ∈ p, t.IsMade) : e.Legible := by
  have hoperators : ∀ kind ∈ unaryKinds ++ binaryKinds, kind.spelling?.isSome := by decide
  induction h with
  | unconditional _ ih | single _ ih | unprefixed _ ih => exact ih hp
  | conditional _ _ _ _ _ ihc iha ihb =>
    simp only [List.forall_mem_append, List.forall_mem_cons] at hp
    exact ⟨ihc hp.1, iha hp.2.2.1, ihb hp.2.2.2.2⟩
  | joined _ ho _ iha ihb =>
    simp only [List.forall_mem_append, List.forall_mem_cons] at hp
    have hkind := joiners_subset _ ho
    exact ⟨hkind, hp.2.1.isSpelled (hoperators _ (List.mem_append_right _ hkind)), iha hp.1,
      ihb hp.2.2⟩
  | @prefixed p e o ho _ ih =>
    obtain ⟨hop, hp⟩ := List.forall_mem_cons.mp hp
    have hkind : o.kind ∈ unaryKinds := by rcases ho with ho | ho <;> simp [ho, unaryKinds]
    exact ⟨hkind, hop.isSpelled (hoperators _ (List.mem_append_left _ hkind)), ih hp⟩
  | atom ha => exact ha.legible (hp _ List.mem_cons_self)
  | group _ _ _ ih =>
    simp only [List.forall_mem_cons, List.forall_mem_append] at hp
    exact ih hp.2.1

namespace Session

theorem legible_of_treeOf {source : String} {e : Expr} (h : treeOf (scan source) = .ok e) :
    e.Legible := by
  obtain ⟨ts, line, htokens, hts⟩ := scan_tokens source
  obtain ⟨hparse, -⟩ := treeOf_eq_ok_iff.mp h
  rw [htokens] at hparse
  refine (Parse.derives_of_expression hts hparse).legible fun t ht => ?_
  have hmem : t ∈ (scan source).tokens.dropLast := by rwa [htokens, List.dropLast_concat]
  exact isMade_of_mem_scan hmem

theorem treeOf_of_render {source text : String} (h : (render source).result = .done text) :
    ∃ e, treeOf (scan source) = .ok e ∧ e.print = text := by
  rw [render_result] at h
  cases htree : treeOf (scan source) with
  | error failure =>
    rw [htree] at h
    cases h
  | ok e =>
    rw [htree] at h
    exact ⟨e, rfl, Verdict.done.inj h⟩

/-- A supported tree has a value or is refused. -/
theorem valued_cases {e : Expr} (h : e.Supported) :
    (∃ value, valued (.ok e) = .done value) ∨
      ∃ x, valued (.ok e) = .failed { diagnostics := [.runtime x] } := by
  simp only [valued]
  rcases settles_iff.mp h.settles with ⟨value, hvalue⟩ | ⟨x, operands, hx⟩
  · exact .inl ⟨value, by rw [hvalue]⟩
  · exact .inr ⟨x, by rw [hx]; rfl⟩

/-- Trees that differ only in lines have the same value, or are refused in the same way. -/
theorem valued_of_renumber_eq {e e' : Expr} (he : e.Supported) (he' : e'.Supported)
    (h : e.renumber (fun _ => 0) = e'.renumber fun _ => 0) :
    (∃ value, valued (.ok e) = .done value ∧ valued (.ok e') = .done value) ∨
      ∃ x y : RuntimeError, valued (.ok e) = .failed { diagnostics := [.runtime x] } ∧
        valued (.ok e') = .failed { diagnostics := [.runtime y] } ∧
        x.renumber (fun _ => 0) = y.renumber fun _ => 0 := by
  have hvalued : (valued (.ok e)).renumber (fun _ => 0) =
      (valued (.ok e')).renumber fun _ => 0 := by
    rw [← valued_renumber, ← valued_renumber, renumberFront, renumberFront, h]
  rcases valued_cases he with ⟨value, hv⟩ | ⟨x, hx⟩
  · rcases valued_cases he' with ⟨value', hv'⟩ | ⟨y, hy⟩
    · rw [hv, hv'] at hvalued
      cases hvalued
      exact .inl ⟨value, hv, hv'⟩
    · rw [hv, hy] at hvalued
      cases hvalued
  · rcases valued_cases he' with ⟨value', hv'⟩ | ⟨y, hy⟩
    · rw [hx, hv'] at hvalued
      cases hvalued
    · rw [hx, hy] at hvalued
      have hfailure := congrArg Failure.diagnostics (Verdict.failed.inj hvalued)
      have hruntime := Diagnostic.runtime.inj (List.cons.inj hfailure).1
      exact .inr ⟨x, y, hx, hy, hruntime⟩

/-- The printed tree of a text determines the tree up to the lines of its operators. So texts
with the same printed tree have the same value, or are refused for the same reason. -/
theorem eq_of_render {a b text : String} (ha : (render a).result = .done text)
    (hb : (render b).result = .done text) :
    ∃ e e', (expression a).result = .ok e ∧ (expression b).result = .ok e' ∧
      e.renumber (fun _ => 0) = e'.renumber (fun _ => 0) ∧
      ((∃ value, (evaluate a).result = .done value ∧ (evaluate b).result = .done value) ∨
        ∃ x y : RuntimeError,
          (evaluate a).result = .failed { diagnostics := [.runtime x] } ∧
          (evaluate b).result = .failed { diagnostics := [.runtime y] } ∧
          x.renumber (fun _ => 0) = y.renumber fun _ => 0) := by
  obtain ⟨e, he, hprint⟩ := treeOf_of_render ha
  obtain ⟨e', he', hprint'⟩ := treeOf_of_render hb
  have htrees := Expr.renumber_eq_of_print (legible_of_treeOf he) (legible_of_treeOf he')
    (hprint.trans hprint'.symm)
  have hexpr := (expression_result a).trans he
  have hexpr' := (expression_result b).trans he'
  refine ⟨e, e', hexpr, hexpr', htrees, ?_⟩
  rw [evaluate_result, evaluate_result, he, he']
  exact valued_of_renumber_eq (expression_supported hexpr) (expression_supported hexpr') htrees

/-- A product with a string that looks like a node, in one line and in two with a comment.
The printed trees agree, and the refusals are on different lines. -/
theorem eq_of_render_two_lines :
    let text := "(* (group (- nil)) \"(- 1)\")"
    let minus (line : Nat) : Token := { kind := .minus, lexeme := "-", line }
    (render "(-nil)*\"(- 1)\"").result = .done text ∧
    (render "( //\n-nil) * \"(- 1)\"").result = .done text ∧
    (evaluate "(-nil)*\"(- 1)\"").result =
      .failed { diagnostics := [.runtime ⟨.number, minus 1⟩] } ∧
    (evaluate "( //\n-nil) * \"(- 1)\"").result =
      .failed { diagnostics := [.runtime ⟨.number, minus 2⟩] } ∧
    ∃ e e', (expression "(-nil)*\"(- 1)\"").result = .ok e ∧
      (expression "( //\n-nil) * \"(- 1)\"").result = .ok e' ∧
      e.renumber (fun _ => 0) = e'.renumber fun _ => 0 := by
  intro text minus
  have hnarrow : (render "(-nil)*\"(- 1)\"").result = .done text := by with_unfolding_all rfl
  have hwide : (render "( //\n-nil) * \"(- 1)\"").result = .done text := by
    with_unfolding_all rfl
  obtain ⟨e, e', he, he', htrees, -⟩ := eq_of_render hnarrow hwide
  exact ⟨hnarrow, hwide, by with_unfolding_all rfl, by with_unfolding_all rfl, e, e', he, he',
    htrees⟩

end Session

end Reckon
