import Reckon.Number.Text

/-!
# Tokens

A token is a kind together with the text it was read from, the literal that text
denotes, if any, and the line on which it ends. A token sequence is closed by a
token of kind `eof` with an empty text.
-/
namespace Reckon

inductive Kind where
  | leftParen | rightParen | leftBrace | rightBrace
  | comma | dot | minus | plus | semicolon | star | slash
  | bang | bangEqual | equal | equalEqual
  | greater | greaterEqual | less | lessEqual
  | question | colon
  | identifier | string | number
  | andWord | classWord | elseWord | falseWord | forWord | funWord | ifWord | nilWord
  | orWord | printWord | returnWord | superWord | thisWord | trueWord | varWord | whileWord
  | eof
  deriving DecidableEq, Repr

namespace Kind

/-- The name under which a kind is shown. -/
def name : Kind → String
  | leftParen => "LeftParen" | rightParen => "RightParen"
  | leftBrace => "LeftBrace" | rightBrace => "RightBrace"
  | comma => "Comma" | dot => "Dot" | minus => "Minus" | plus => "Plus"
  | semicolon => "Semicolon" | star => "Star" | slash => "Slash"
  | bang => "Bang" | bangEqual => "BangEqual" | equal => "Equal" | equalEqual => "EqualEqual"
  | greater => "Greater" | greaterEqual => "GreaterEqual"
  | less => "Less" | lessEqual => "LessEqual"
  | question => "Question" | colon => "Colon"
  | identifier => "Identifier" | string => "String" | number => "Number"
  | andWord => "And" | classWord => "Class" | elseWord => "Else" | falseWord => "False"
  | forWord => "For" | funWord => "Fun" | ifWord => "If" | nilWord => "Nil"
  | orWord => "Or" | printWord => "Print" | returnWord => "Return" | superWord => "Super"
  | thisWord => "This" | trueWord => "True" | varWord => "Var" | whileWord => "While"
  | eof => "Eof"

def all : List Kind :=
  [leftParen, rightParen, leftBrace, rightBrace, comma, dot, minus, plus, semicolon, star, slash,
    bang, bangEqual, equal, equalEqual, greater, greaterEqual, less, lessEqual, question, colon,
    identifier, string, number, andWord, classWord, elseWord, falseWord, forWord, funWord, ifWord,
    nilWord, orWord, printWord, returnWord, superWord, thisWord, trueWord, varWord, whileWord, eof]

/-- Reserved words. -/
def keywords : List (String × Kind) :=
  [("and", andWord), ("class", classWord), ("else", elseWord), ("false", falseWord),
    ("for", forWord), ("fun", funWord), ("if", ifWord), ("nil", nilWord), ("or", orWord),
    ("print", printWord), ("return", returnWord), ("super", superWord), ("this", thisWord),
    ("true", trueWord), ("var", varWord), ("while", whileWord)]

/-- A word is an identifier unless it is reserved. -/
def ofWord (word : List Char) : Kind := (keywords.lookup (String.ofList word)).getD identifier

/-- The kind of a single character that is a token by itself. -/
def ofChar? : Char → Option Kind
  | '(' => some leftParen | ')' => some rightParen
  | '{' => some leftBrace | '}' => some rightBrace
  | ',' => some comma | '.' => some dot | '-' => some minus | '+' => some plus
  | ';' => some semicolon | '*' => some star | '/' => some slash
  | '?' => some question | ':' => some colon
  | '!' => some bang | '=' => some equal | '>' => some greater | '<' => some less
  | _ => none

/-- The kind of a character followed by an equals sign, if the two form a token. -/
def withEqual? : Char → Option Kind
  | '!' => some bangEqual | '=' => some equalEqual
  | '>' => some greaterEqual | '<' => some lessEqual
  | _ => none

/-- Words that begin a statement, at which recovery from a broken one stops. -/
def startsStatement : Kind → Bool
  | classWord | funWord | varWord | forWord | ifWord | whileWord | printWord | returnWord => true
  | _ => false

end Kind

inductive Literal where
  | number (value : Float)
  | string (value : String)
  deriving BEq

def Literal.text : Literal → String
  | number x => Number.text x
  | string s => s

structure Token where
  kind : Kind
  lexeme : String
  literal : Option Literal := none
  line : Nat
  deriving BEq

namespace Token

/-- The token that closes a sequence. -/
def eof (line : Nat) : Token := { kind := .eof, lexeme := "", line }

/-- How a token is shown. -/
def text (token : Token) : String :=
  let base := token.kind.name ++ " " ++ token.lexeme
  match token.literal with
  | some literal => base ++ " " ++ literal.text
  | none => base

/-- How a diagnostic refers to a token. -/
def location (token : Token) : String :=
  if token.kind = .eof then " at end" else " at '" ++ token.lexeme ++ "'"

@[simp] theorem kind_eof (line : Nat) : (eof line).kind = .eof := rfl

@[simp] theorem line_eof (line : Nat) : (eof line).line = line := rfl

end Token

end Reckon
