import Reckon.CommandLine.Prompt

/-!
# The command

The response to a list of arguments, given the files that can be read and the
standard input.
-/
namespace Reckon.CommandLine

def helpText : String :=
  lines
    ["A tree-walking evaluator for a small expression language.",
      "",
      "Usage: lumen [OPTIONS] [CONTENTS]",
      "",
      "Arguments:",
      "  [CONTENTS]  The source text, or a path when `--file` is given",
      "",
      "Options:",
      "  -f, --file        Tells lumen to read the input from a file instead of the argument",
      "  -a, --ast         Prints the parenthesized syntax tree instead of evaluating",
      "  -p, --program     Treats the input as `print` and expression statements separated by `;`",
      "  -v, --verbose...  Increases log verbosity (-v info, -vv debug, -vvv trace)",
      "  -h, --help        Print help",
      "  -V, --version     Print version"]

def versionText : String := lines ["lumen 0.1.0"]

/-- How the text of a file is found by its path. -/
abbrev Reader := String → Except Unreadable String

/-- The response to one source text, given directly or as the path of a file. -/
def once (read : Reader) (options : Options) (stamp contents : String) : Response :=
  if options.file then
    ({ stdout := logLines stamp options.detail [.reading contents] } : Response) ++
      match read contents with
      | .ok source => respond options stamp source
      | .error cause => unreadable contents cause
  else respond options stamp contents

/-- The response to a whole session at the prompt. -/
def prompt (options : Options) (stamp : String) (input : ByteArray) : Response :=
  ({ stdout := logLines stamp options.detail [.prompting] } : Response) ++
    Prompt.session options stamp (Prompt.splitLines input.toList)

/-- The response to a list of arguments. -/
def run (read : Reader) (input : ByteArray) (stamp : String) (arguments : List String) :
    Response :=
  match Request.ofArguments arguments with
  | .help => { stdout := helpText }
  | .version => { stdout := versionText }
  | .refuse refusal => refuse refusal
  | .once options contents => once read options stamp contents
  | .prompt options => prompt options stamp input

end Reckon.CommandLine
