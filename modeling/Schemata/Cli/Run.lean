import Schemata.Cli.Command
import Schemata.Cli.Log
import Schemata.Json.Reader
import Schemata.Model.Encoding
import Schemata.Report
import Schemata.Text.Lines

/-!
# Running the command

A run is a function of the arguments and of the files in the workspace. It yields
what goes to the two output streams, the exit status, and the file to be written,
if there is one.

A wrong use of the command ends with status 2, and a schema that is malformed or
refused by its options with status 1. Whatever else is in the way breaks the run
off. Outcomes and messages are shown without terminal commands; the log and files
keep them.
-/

namespace Schemata.Cli

open Source

/-- What a run yields. -/
structure Ending where
  status : Nat := 0
  stdout : String := ""
  stderr : String := ""
  written : Option (String × String) := none
deriving DecidableEq, Repr

def usageText : String :=
  "Usage: json_schema_to_ir [OPTIONS] PATH [OUTPUT]\n"

def hintText : String :=
  "Try 'json_schema_to_ir --help' for help.\n\n"

def helpText : String :=
  usageText ++ "\nOptions:\n" ++
    "  -n, --name TEXT           Name of an untitled root schema\n" ++
    "  -c, --config PATH\n" ++
    "  -f, --format [json|text]\n" ++
    "  --fail-on-error           Exit with status 1 when any error violation is\n" ++
    "                            reported\n" ++
    "  -v, --verbose             Log analyzer progress to stderr\n" ++
    "  --help                    Show this message and exit.\n"

namespace Ending

def errorText (message : Str) : Str :=
  Text.plain ("Error: " ++ message ++ "\n")

/-- The end of a run with wrong arguments. -/
def ofUsageError (error : UsageError) : Ending :=
  { status := 2
    stderr := shown ((if error.showsUsage then usageText ++ hintText else "") ++
      errorText error.message) }

/-- The end of a run without an outcome, after what was logged. -/
def stopped (log message : Str) : Ending :=
  { status := 1, stderr := shown (log ++ errorText message) }

end Ending

namespace Command

/-- The options that a configuration file sets. -/
def readConfig (workspace : Workspace) (path : String) : Except Abort Options := do
  let text ← workspace.text path
  let value ← (Config.read (Text.unifyLines text)).mapError .config
  (Options.ofConfig value).mapError .options

/-- The options of a conversion. The name given for the root overrides the one in
the configuration file. -/
def options (workspace : Workspace) (command : Command) : Except Abort Options := do
  let options ←
    match command.config with
    | some path => readConfig workspace path
    | none => pure {}
  match command.rootName with
  | some name => return { options with rootName := name }
  | none => return options

/-- The text of an outcome. -/
def outputText (command : Command) (outcome : Outcome) : Except Abort Str :=
  match command.format with
  | .json => .ok (outcome.encode.write ++ "\n")
  | .text => outcome.report.mapError .failure

/-- Show an outcome or write it to a file, after what was logged. -/
def finish (workspace : Workspace) (command : Command) (log : Str) (outcome : Outcome) :
    Except Abort Ending := do
  let status := if command.failOnError && !outcome.errors.isEmpty then 1 else 0
  let text ← outputText command outcome
  match command.output with
  | none =>
      let shownText ← encode (Text.plain text)
      return { status := status, stdout := shownText, stderr := shown log }
  | some path =>
      match workspace.writeFault? path with
      | some fault => throw (.unopened fault path)
      | none =>
          let written ← encode text
          return { status := status, stderr := shown log, written := some (path, written) }

/-- The end of a run whose schema is not converted, after what was logged. -/
def refuse (log : Str) (failure : Failure) : Except Abort Ending :=
  match failure with
  | .tupleItems _ | .circularReference _ _ => .ok (.stopped log failure.message)
  | _ => .error (.failure failure)

/-- Convert the schema file. -/
def run (workspace : Workspace) (command : Command) : Except Abort Ending := do
  let text ← workspace.text command.path
  let options ← options workspace command
  let start := startLine command.path
  match Json.read (Text.unifyLines text) with
  | .error (.number fault) => throw (.number fault)
  | .error error =>
      return .stopped (logText command.verbose [start]) (command.path ++ ": " ++ error.message)
  | .ok document =>
      let result := Analysis.outcome ⟨document, command.path, options⟩
      let log (stopped : Bool) : Str :=
        logText command.verbose (start :: contextLines result.2 stopped)
      match result.1 with
      | .error failure => refuse (log true) failure
      | .ok outcome => finish workspace command (log false) outcome

end Command

/-- Run the command with the given arguments. -/
def run (workspace : Workspace) (arguments : List String) : Except Abort Ending :=
  let request : Except Refusal Request := do
    let arguments ← (readArguments none arguments).mapError .usage
    Request.ofArguments workspace arguments
  match request with
  | .error (.usage error) => .ok (.ofUsageError error)
  | .error (.abort abort) => .error abort
  | .ok .help => .ok { stdout := helpText }
  | .ok (.convert command) => command.run workspace

end Schemata.Cli
