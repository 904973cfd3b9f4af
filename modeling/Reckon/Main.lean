import Reckon.CommandLine.Run

/-!
# The program

Connects the command to the standard streams and the file system. Log lines are
stamped with the milliseconds of the monotonic clock.
-/
namespace Reckon.CommandLine

def clock : IO String := return toString (← IO.monoMsNow)

/-- Why the file system did not deliver a file. -/
def Unreadable.ofError : IO.Error → Unreadable
  | .inappropriateType _ 21 _ => .isFolder
  | .inappropriateType _ _ _ => .notFolder
  | .invalidArgument _ 36 _ => .nameTooLong
  | _ => .missing

def readText (path : String) : IO (Except Unreadable String) := do
  try
    let bytes ← IO.FS.readBinFile path
    match String.fromUTF8? bytes with
    | some text => return .ok text
    | none => return .error .notText
  catch error => return .error (.ofError error)

def write (response : Response) : IO UInt32 := do
  IO.print response.stdout
  IO.eprint response.stderr
  (← IO.getStdout).flush
  return response.exit.toUInt32

/-- The bytes of the next line, with its line break. -/
partial def readLine (input : IO.FS.Stream) (line : ByteArray := .empty) : IO ByteArray := do
  let byte ← input.read 1
  if byte.isEmpty then return line
  if byte.toList.any Prompt.endsLine then return line ++ byte
  readLine input (line ++ byte)

/-- Takes turns at the prompt. -/
partial def converse (options : Options) : IO UInt32 := do
  let _ ← write { stdout := Prompt.mark }
  let line ← readLine (← IO.getStdin)
  let turn := Prompt.turn options (← clock) line
  let exit ← write turn.response
  if turn.goesOn then converse options else return exit

end Reckon.CommandLine

open Reckon.CommandLine in
def main (arguments : List String) : IO UInt32 := do
  match Request.ofArguments arguments with
  | .prompt options =>
    let _ ← write { stdout := logLines (← clock) options.detail [.prompting] }
    converse options
  | .once options contents =>
    let source ← if options.file then readText contents else pure (.ok contents)
    write (once (fun _ => source) options (← clock) contents)
  | _ => write (run (fun _ => .error .missing) .empty (← clock) arguments)
