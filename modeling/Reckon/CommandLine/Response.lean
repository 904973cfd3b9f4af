import Reckon.CommandLine.Arguments
import Reckon.Session

/-!
# Responses

What is written for a request, and the exit code. Log lines go to the standard
output ahead of the results they lead to. The lines of a failed program come
before its diagnostics, which go to the standard error output.
-/
namespace Reckon.CommandLine

structure Response where
  stdout : String := ""
  stderr : String := ""
  exit : Nat := 0

namespace Response

/-- The exit code for bad arguments. -/
def badArguments : Nat := 2

/-- The exit code for a text with scan or syntax errors. -/
def badText : Nat := 65

/-- The exit code for a runtime error. -/
def badOperand : Nat := 70

/-- The exit code for a file that cannot be read. -/
def badFile : Nat := 74

/-- The exit code for a tree with a token that is no operator. -/
def badTree : Nat := 101

/-- One response after the other. The later one decides the exit code. -/
def append (first second : Response) : Response where
  stdout := first.stdout ++ second.stdout
  stderr := first.stderr ++ second.stderr
  exit := second.exit

instance : Append Response := ⟨append⟩

end Response

/-- The texts one after the other, each on a line. -/
def lines (texts : List String) : String := String.join (texts.map (· ++ "\n"))

/-- The log lines of those events that the chosen detail shows. -/
def logLines (stamp : String) (detail : Detail) (events : List Event) : String :=
  lines <| (events.filter fun e => e.detail.rank ≤ detail.rank).map fun e =>
    stamp ++ " " ++ e.detail.column ++ " [" ++ e.target ++ "] " ++ e.message

/-- Runs one source text in the chosen mode. -/
def runIn (mode : Mode) (source : String) : Traced (Verdict (List String)) :=
  match mode with
  | .tree => let t := Session.render source; ⟨t.result.map ([·]), t.events⟩
  | .program => Session.run source
  | .value => let t := Session.evaluate source; ⟨t.result.map ([·.text]), t.events⟩

/-- What is written for one source text. -/
def respond (options : Options) (stamp source : String) : Response :=
  let run := runIn options.mode source
  let log := logLines stamp options.detail run.events
  match run.result with
  | .done results => { stdout := log ++ lines results }
  | .failed failure =>
    { stdout := log ++ lines failure.output
      stderr := lines [failure.message]
      exit := if failure.hadError then Response.badText else Response.badOperand }
  | .misused misuse => { stdout := log, stderr := lines [misuse.message], exit := Response.badTree }

/-- Why a file cannot be read. -/
inductive Unreadable where
  | missing | isFolder | notFolder | nameTooLong | notText
  deriving DecidableEq, Repr

def Unreadable.reason : Unreadable → String
  | missing => "No such file or directory (os error 2)"
  | isFolder => "Is a directory (os error 21)"
  | notFolder => "Not a directory (os error 20)"
  | nameTooLong => "File name too long (os error 36)"
  | notText => "stream did not contain valid UTF-8"

/-- What is written for a file that cannot be read. -/
def unreadable (path : String) (cause : Unreadable) : Response where
  stderr := lines ["Failed to read the input file '" ++ path ++ "': " ++ cause.reason]
  exit := Response.badFile

/-- What is written for arguments that are not accepted. -/
def refuse (refusal : Refusal) : Response where
  stderr := lines [refusal.message]
  exit := Response.badArguments

end Reckon.CommandLine
