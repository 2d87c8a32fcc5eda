import Schemata.Cli.Arguments
import Schemata.Cli.Workspace

/-!
# The command that the arguments ask for

The command converts one schema file. Its values are checked in the order in which
they are given, options before paths.
-/

namespace Schemata.Cli

inductive Format
  | json
  | text
deriving DecidableEq, Repr

def Format.ofName? : String → Option Format
  | "json" => some .json
  | "text" => some .text
  | _ => none

/-- What the command is to do. Paths are absolute. -/
structure Command where
  path : String
  output : Option String
  rootName : Option String
  config : Option String
  format : Format
  failOnError : Bool
  verbose : Bool
deriving DecidableEq, Repr

/-- What the arguments ask for. -/
inductive Request
  | help
  | convert (command : Command)
deriving DecidableEq, Repr

/-- Why arguments ask for nothing that can be done. -/
inductive Refusal
  | usage (error : UsageError)
  | abort (abort : Abort)
deriving DecidableEq, Repr

namespace Request

/-- The absolute form of a path. -/
def resolve (workspace : Workspace) (path : String) : Except Refusal String :=
  (workspace.resolve path).mapError .abort

/-- The path that a parameter gives, which must be there. -/
def existing (workspace : Workspace) (parameter path : String) : Except Refusal String := do
  let resolved ← resolve workspace path
  if (workspace.place? resolved).isSome then return resolved
  else throw (.usage (.missingFile parameter path))

/-- Check the value of a switch. -/
def checkSwitch (workspace : Workspace) (arguments : Arguments) (switch : Switch) :
    Except Refusal Unit :=
  match switch, arguments.value? switch with
  | .config, some path => do
      let _ ← existing workspace "'--config' / '-c'" path
  | .format, some name =>
      if (Format.ofName? name).isSome then .ok () else .error (.usage (.unknownFormat name))
  | _, _ => .ok ()

/-- The request that some arguments make in a workspace. -/
def ofArguments (workspace : Workspace) (arguments : Arguments) : Except Refusal Request := do
  if arguments.has .help then return .help
  arguments.given.forM fun given => checkSwitch workspace arguments given.switch
  let path ←
    match arguments.paths with
    | [] => throw (.usage .missingPath)
    | path :: _ => existing workspace "'PATH'" path
  let output ← (arguments.paths[1]?).mapM (resolve workspace)
  if 2 < arguments.paths.length then throw (.usage (.extraArguments (arguments.paths.drop 2)))
  let config ← (arguments.value? .config).mapM (resolve workspace)
  return .convert {
    path := path
    output := output
    rootName := arguments.value? .name
    config := config
    format := ((arguments.value? .format).bind Format.ofName?).getD .json
    failOnError := arguments.has .failOnError
    verbose := arguments.has .verbose }

end Request

end Schemata.Cli
