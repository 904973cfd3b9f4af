import Mathlib.Computability.Language
import Mathlib.Data.Char
import Mathlib.Order.Interval.Set.Basic
import Reckon.Source.Segment

/-!
# Token patterns

The patterns that a source text is made of, each as the language of the texts it
matches. The languages are put together from sets of characters and fixed texts,
without reference to how a text is cut into segments.
-/
namespace Reckon
open scoped Computability

/-- The texts of one character from a set. -/
def oneOf (S : Set Char) : Language Char := {w | ∃ c ∈ S, w = [c]}

/-- A single text. -/
def exactly (text : String) : Language Char := {text.toList}

namespace Pattern

def digits : Set Char := Set.Icc '0' '9'

def wordStarts : Set Char := Set.Icc 'a' 'z' ∪ Set.Icc 'A' 'Z' ∪ {'_'}

def wordChars : Set Char := wordStarts ∪ digits

def blanks : Set Char := {' ', '\t', '\r', '\x0c'}

end Pattern

/-- The text of a kind of token that is always written the same. -/
def Kind.spelling? : Kind → Option String
  | leftParen => "(" | rightParen => ")" | leftBrace => "\x7b" | rightBrace => "\x7d"
  | comma => "," | dot => "." | minus => "-" | plus => "+"
  | semicolon => ";" | star => "*" | slash => "/"
  | bang => "!" | bangEqual => "!=" | equal => "=" | equalEqual => "=="
  | greater => ">" | greaterEqual => ">=" | less => "<" | lessEqual => "<="
  | question => "?" | colon => ":"
  | andWord => "and" | classWord => "class" | elseWord => "else" | falseWord => "false"
  | forWord => "for" | funWord => "fun" | ifWord => "if" | nilWord => "nil"
  | orWord => "or" | printWord => "print" | returnWord => "return" | superWord => "super"
  | thisWord => "this" | trueWord => "true" | varWord => "var" | whileWord => "while"
  | identifier | string | number | eof => none

inductive Pattern where
  | number
  | string
  /-- A string without its closing quote. -/
  | unterminated
  /-- A token that is always written the same. -/
  | fixed (kind : Kind)
  | identifier
  | comment
  | lineBreak
  | blank
  deriving DecidableEq, Repr

namespace Pattern

/-- The texts that a pattern matches. -/
def language : Pattern → Language Char
  | number =>
    oneOf digits * (oneOf digits)∗ * (1 + exactly "." * (oneOf digits * (oneOf digits)∗))
  | string => exactly "\"" * (oneOf {'"'}ᶜ)∗ * exactly "\""
  | unterminated => exactly "\"" * (oneOf {'"'}ᶜ)∗
  | fixed kind => {w | kind.spelling? = some (String.ofList w)}
  | identifier => oneOf wordStarts * (oneOf wordChars)∗
  | comment => exactly "//" * (oneOf {'\n'}ᶜ)∗
  | lineBreak => exactly "\n"
  | blank => oneOf blanks * (oneOf blanks)∗

theorem mem_kstar_oneOf {S : Set Char} {w : List Char} :
    w ∈ (oneOf S)∗ ↔ ∀ c ∈ w, c ∈ S := by
  constructor
  · rintro ⟨L, rfl, hL⟩ c hc
    obtain ⟨y, hy, hcy⟩ := List.mem_flatten.mp hc
    obtain ⟨d, hd, rfl⟩ := hL y hy
    rw [List.mem_singleton.mp hcy]
    exact hd
  · intro h
    refine ⟨w.map ([·]), by rw [← List.flatMap_def, List.flatMap_singleton'], ?_⟩
    intro y hy
    obtain ⟨c, hc, rfl⟩ := List.mem_map.mp hy
    exact ⟨c, h c hc, rfl⟩

theorem mem_plus_oneOf {S T : Set Char} {w : List Char} :
    w ∈ oneOf S * (oneOf T)∗ ↔ ∃ c cs, c ∈ S ∧ (∀ d ∈ cs, d ∈ T) ∧ w = c :: cs := by
  constructor
  · intro h
    obtain ⟨a, ⟨c, hc, rfl⟩, cs, hcs, rfl⟩ := Language.mem_mul.mp h
    exact ⟨c, cs, hc, mem_kstar_oneOf.mp hcs, rfl⟩
  · rintro ⟨c, cs, hc, hcs, rfl⟩
    exact Language.mem_mul.mpr ⟨[c], ⟨c, hc, rfl⟩, cs, mem_kstar_oneOf.mpr hcs, rfl⟩

theorem mem_exactly_mul {text : String} {L : Language Char} {w : List Char} :
    w ∈ exactly text * L ↔ ∃ cs ∈ L, w = text.toList ++ cs := by
  constructor
  · intro h
    obtain ⟨a, rfl, cs, hcs, rfl⟩ := Language.mem_mul.mp h
    exact ⟨cs, hcs, rfl⟩
  · rintro ⟨cs, hcs, rfl⟩
    exact Language.mem_mul.mpr ⟨_, rfl, cs, hcs, rfl⟩

theorem mem_number {w : List Char} :
    w ∈ number.language ↔ ∃ c ds, c ∈ digits ∧ (∀ d ∈ ds, d ∈ digits) ∧
      (w = c :: ds ∨
        ∃ e es, e ∈ digits ∧ (∀ d ∈ es, d ∈ digits) ∧ w = c :: (ds ++ '.' :: e :: es)) := by
  constructor
  · intro h
    obtain ⟨a, ha, b, hb, rfl⟩ := Language.mem_mul.mp h
    obtain ⟨c, ds, hc, hds, rfl⟩ := mem_plus_oneOf.mp ha
    refine ⟨c, ds, hc, hds, ?_⟩
    rcases hb with rfl | hb
    · exact .inl (List.append_nil _)
    · obtain ⟨x, hx, rfl⟩ := mem_exactly_mul.mp hb
      obtain ⟨e, es, he, hes, rfl⟩ := mem_plus_oneOf.mp hx
      exact .inr ⟨e, es, he, hes, rfl⟩
  · rintro ⟨c, ds, hc, hds, hw⟩
    have ha : c :: ds ∈ oneOf digits * (oneOf digits)∗ := mem_plus_oneOf.mpr ⟨c, ds, hc, hds, rfl⟩
    rcases hw with rfl | ⟨e, es, he, hes, rfl⟩
    · exact Language.mem_mul.mpr ⟨c :: ds, ha, [], .inl rfl, List.append_nil _⟩
    · have hb : '.' :: e :: es ∈ exactly "." * (oneOf digits * (oneOf digits)∗) :=
        mem_exactly_mul.mpr ⟨e :: es, mem_plus_oneOf.mpr ⟨e, es, he, hes, rfl⟩, rfl⟩
      exact Language.mem_mul.mpr ⟨c :: ds, ha, '.' :: e :: es, .inr hb, rfl⟩

theorem mem_unterminated {w : List Char} :
    w ∈ unterminated.language ↔ ∃ inner, '"' ∉ inner ∧ w = '"' :: inner := by
  constructor
  · intro h
    obtain ⟨inner, hi, rfl⟩ := mem_exactly_mul.mp h
    exact ⟨inner, fun hq => mem_kstar_oneOf.mp hi _ hq rfl, rfl⟩
  · rintro ⟨inner, hi, rfl⟩
    refine mem_exactly_mul.mpr ⟨inner, mem_kstar_oneOf.mpr fun c hc hq => ?_, rfl⟩
    rw [Set.mem_singleton_iff.mp hq] at hc
    exact hi hc

theorem mem_string {w : List Char} :
    w ∈ string.language ↔ ∃ inner, '"' ∉ inner ∧ w = '"' :: (inner ++ ['"']) := by
  constructor
  · intro h
    obtain ⟨a, ha, b, rfl, rfl⟩ := Language.mem_mul.mp h
    obtain ⟨inner, hi, rfl⟩ := mem_unterminated.mp ha
    exact ⟨inner, hi, rfl⟩
  · rintro ⟨inner, hi, rfl⟩
    exact Language.mem_mul.mpr ⟨'"' :: inner, mem_unterminated.mpr ⟨inner, hi, rfl⟩, _, rfl, rfl⟩

theorem mem_identifier {w : List Char} :
    w ∈ identifier.language ↔
      ∃ c cs, c ∈ wordStarts ∧ (∀ d ∈ cs, d ∈ wordChars) ∧ w = c :: cs :=
  mem_plus_oneOf

theorem mem_comment {w : List Char} :
    w ∈ comment.language ↔ ∃ cs, '\n' ∉ cs ∧ w = '/' :: '/' :: cs := by
  constructor
  · intro h
    obtain ⟨cs, hcs, rfl⟩ := mem_exactly_mul.mp h
    exact ⟨cs, fun hq => mem_kstar_oneOf.mp hcs _ hq rfl, rfl⟩
  · rintro ⟨cs, hcs, rfl⟩
    refine mem_exactly_mul.mpr ⟨cs, mem_kstar_oneOf.mpr fun c hc hq => ?_, rfl⟩
    rw [Set.mem_singleton_iff.mp hq] at hc
    exact hcs hc

theorem mem_lineBreak {w : List Char} : w ∈ lineBreak.language ↔ w = ['\n'] := Iff.rfl

theorem mem_blank {w : List Char} :
    w ∈ blank.language ↔ ∃ c cs, c ∈ blanks ∧ (∀ d ∈ cs, d ∈ blanks) ∧ w = c :: cs :=
  mem_plus_oneOf

theorem mem_fixed {kind : Kind} {w : List Char} :
    w ∈ (fixed kind).language ↔ kind.spelling? = some (String.ofList w) := Iff.rfl

end Pattern

end Reckon
