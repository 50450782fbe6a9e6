import FlowTyping.CommandLine.Output

/-!
# The program

Reads the command line and the files it names, and prints the command's output, or on the error
stream why there is none.
-/

namespace FlowTyping

/-- What the program is called with. -/
def usage : String :=
  "Refine type qualifiers along a method's control flow graph\n\n" ++
  "Usage:\n" ++
  "  analyze [-v] [-c FILE] [--concurrent-semantics] [--infer] [--assume-side-effect-free]\n" ++
  "          [--json] FIXTURE\n" ++
  "  config [-v] [--json]\n" ++
  "  help [COMMAND]\n\n" ++
  "Options:\n" ++
  "  -v, --verbose   Say which files are read\n" ++
  "  -h, --help      Print help\n" ++
  "  -V, --version   Print version"

def versionText : String := "0.4.0"

def readFile? (file : String) : IO (Option String) :=
  tryCatch (some <$> IO.FS.readFile file) fun _ => pure none

/-- Runs a command on the files that it names. -/
def runCommand (c : CommandLine) : IO UInt32 := do
  let texts ← c.command.files.mapM fun file => do
    if c.verbose then IO.eprintln ("reading " ++ file)
    return (file, ← readFile? file)
  let colours ← (← IO.getStdout).isTty
  let read := fun file => ((texts.find? fun e => e.1 = file).map (·.2)).join
  match c.command.output read colours with
  | .ok text => do
    IO.println text
    return 0
  | .error e => do
    IO.eprintln ("Error: " ++ e.message)
    return 1

end FlowTyping

open FlowTyping

def main (words : List String) : IO UInt32 := do
  match CommandLine.parse words with
  | .ok c => runCommand c
  | .error .helpRequested => do
    IO.println usage
    return 0
  | .error .versionRequested => do
    IO.println versionText
    return 0
  | .error e => do
    IO.eprintln ("error: " ++ e.message ++ "\n\n" ++ usage)
    return 2
