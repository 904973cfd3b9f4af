import Reckon.Event
import Reckon.Text.Terminal

/-!
# Command-line arguments

Arguments are read from left to right. Short switches may share one argument, and
everything after `--` is positional. The first fault settles the request, as do
the switches that ask for help or the version when they are reached. Whether two
switches exclude each other is looked at once all arguments are read.
-/
namespace Reckon.CommandLine

/-- Switches that may be given once. -/
inductive Flag where
  | file | ast | program
  deriving DecidableEq, Repr

def Flag.name : Flag → String
  | file => "--file"
  | ast => "--ast"
  | program => "--program"

inductive Switch where
  | once (flag : Flag)
  | verbose | help | version
  deriving DecidableEq, Repr

namespace Switch

def name : Switch → String
  | once flag => flag.name
  | verbose => "--verbose"
  | help => "--help"
  | version => "--version"

/-- How a message refers to a switch. One that may be repeated is followed by dots. -/
def shown : Switch → String
  | verbose => verbose.name ++ "..."
  | switch => switch.name

def all : List Switch := [once .file, once .ast, once .program, verbose, help, version]

def ofName? (text : String) : Option Switch := all.find? (·.name == text)

def ofChar? : Char → Option Switch
  | 'f' => some (once .file)
  | 'a' => some (once .ast)
  | 'p' => some (once .program)
  | 'v' => some verbose
  | 'h' => some help
  | 'V' => some version
  | _ => none

end Switch

/-- Why arguments are not accepted. -/
inductive Refusal where
  | unexpectedArgument (text : String)
  | unexpectedValue (value : String) (switch : Switch)
  | repeated (flag : Flag)
  | conflict (first second : Flag)

/-- How a refusal is shown. What was given is shown without terminal controls. -/
def Refusal.message : Refusal → String
  | unexpectedArgument text =>
    "error: unexpected argument '" ++ Text.Terminal.plain text ++ "' found"
  | unexpectedValue value switch =>
    "error: unexpected value '" ++ Text.Terminal.plain value ++ "' for '" ++ switch.shown ++
      "' found; no more were expected"
  | repeated flag => "error: the argument '" ++ flag.name ++ "' cannot be used multiple times"
  | conflict first second =>
    "error: the argument '" ++ first.name ++ "' cannot be used with '" ++ second.name ++ "'"

/-- What is done with a source text. -/
inductive Mode where
  | value | tree | program
  deriving DecidableEq, Repr

structure Options where
  mode : Mode := .value
  detail : Detail := .warn
  /-- The positional argument names a file. -/
  file : Bool := false

/-- What the arguments ask for. -/
inductive Request where
  | help | version
  | refuse (refusal : Refusal)
  /-- One source text, given directly or as a path. -/
  | once (options : Options) (contents : String)
  | prompt (options : Options)

/-- What was read of the arguments so far. -/
structure Draft where
  /-- In the order given. -/
  flags : List Flag := []
  verbosity : Nat := 0
  contents : Option String := none

namespace Draft

/-- Reading goes on with a draft or the request is settled. -/
abbrev Step := Except Request Draft

def switch (draft : Draft) : Switch → Step
  | .help => .error .help
  | .version => .error .version
  | .verbose => .ok { draft with verbosity := draft.verbosity + 1 }
  | .once flag =>
    if flag ∈ draft.flags then .error (.refuse (.repeated flag))
    else .ok { draft with flags := draft.flags ++ [flag] }

/-- Short switches that share one argument. -/
def short (draft : Draft) : List Char → Step
  | [] => .ok draft
  | c :: rest => do
    match Switch.ofChar? c with
    | some s => (← draft.switch s).short rest
    | none => .error (.refuse (.unexpectedArgument (String.ofList ['-', c])))

/-- A long switch, given without its dashes. No switch takes a value. -/
def long (draft : Draft) (text : List Char) : Step :=
  let name := "--" ++ String.ofList (text.takeWhile (· != '='))
  match Switch.ofName? name, text.dropWhile (· != '=') with
  | none, _ => .error (.refuse (.unexpectedArgument name))
  | some s, [] => draft.switch s
  | some s, _ :: value => .error (.refuse (.unexpectedValue (String.ofList value) s))

def positional (draft : Draft) (text : String) : Step :=
  match draft.contents with
  | none => .ok { draft with contents := some text }
  | some _ => .error (.refuse (.unexpectedArgument text))

/-- One argument before `--`. A lone dash is positional. -/
def argument (draft : Draft) (text : String) : Step :=
  match text.toList with
  | '-' :: '-' :: name => draft.long name
  | '-' :: c :: rest => draft.short (c :: rest)
  | _ => draft.positional text

def read (draft : Draft) : List String → Step
  | [] => .ok draft
  | text :: rest =>
    if text = "--" then rest.foldlM positional draft
    else do (← draft.argument text).read rest

def request (draft : Draft) : Request :=
  match draft.flags.filter (· ≠ .file) with
  | first :: second :: _ => .refuse (.conflict first second)
  | modes =>
    let options : Options :=
      { mode :=
          if modes = [.ast] then .tree else if modes = [.program] then .program else .value
        detail := .ofCount draft.verbosity
        file := .file ∈ draft.flags }
    match draft.contents with
    | some contents => .once options contents
    | none => .prompt options

end Draft

/-- What a list of arguments asks for. -/
def Request.ofArguments (arguments : List String) : Request :=
  match Draft.read {} arguments with
  | .ok draft => draft.request
  | .error request => request

end Reckon.CommandLine
