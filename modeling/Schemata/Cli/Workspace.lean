import Schemata.Config.Reader
import Schemata.Model.Violation
import Schemata.Options
import Schemata.Source.Path

/-!
# The workspace of the command

The command sees the files and directories that matter to it. What it cannot work
with breaks the run off: files that do not open, a configuration that is none, schemas
that fail in a way that has no message of its own, and strings with surrogates, which
no file and no stream takes.
-/

namespace Schemata.Cli

open Source

/-- What a path names. -/
inductive Place
  | file (text : String)
  | directory
deriving DecidableEq, Repr

/-- Why a file does not open. -/
inductive PlaceFault
  | missing
  | notDirectory
  | directory
  | nameTooLong
deriving DecidableEq, Repr

def PlaceFault.message : PlaceFault → String
  | missing => "[Errno 2] No such file or directory"
  | notDirectory => "[Errno 20] Not a directory"
  | directory => "[Errno 21] Is a directory"
  | nameTooLong => "[Errno 36] File name too long"

/-- A string as it is shown in messages, surrogates by their escapes. -/
def shown (text : Str) : String :=
  String.ofList <| text.flatMap fun
    | .char c => [c]
    | .surrogate index => Json.numberedEscape (0xD800 + index)

/-- Why a run is broken off. -/
inductive Abort
  | unopened (fault : PlaceFault) (path : String)
  | nullCharacter
  | number (fault : Json.NumberFault)
  | config (error : Config.ReadError)
  | options (fault : OptionFault)
  | failure (failure : Failure)
  | unencodable (first : CodePoint) (position count : Nat)
deriving DecidableEq, Repr

def Abort.message : Abort → Str
  | unopened fault path => fault.message ++ ": " ++ Text.quoted path
  | nullCharacter => "embedded null byte"
  | number fault => fault.message
  | config error => error.message
  | options fault => fault.message
  | failure cause => cause.message
  | unencodable first position count =>
      "'utf-8' codec can't encode character" ++
        (if count = 1 then " '" ++ shown [first] ++ "' in position " ++ Text.integerText position
          else "s in position " ++ Text.integerText position ++ "-" ++
            Text.integerText (position + count - 1)) ++ ": surrogates not allowed"

/-- The text that a string is put out as. It may hold no surrogates. -/
def encode (text : Str) : Except Abort String :=
  match text.dropWhile CodePoint.isChar with
  | [] => .ok (String.ofList text.chars)
  | first :: rest =>
      .error (.unencodable first (text.length - (rest.length + 1))
        ((rest.takeWhile fun c => !c.isChar).length + 1))

/-- The working directory, and what is at the paths that matter. All paths are
absolute. -/
structure Workspace where
  directory : String
  places : List (String × Place)

namespace Workspace

/-- The absolute form of a path. No path holds a null character. -/
def resolve (workspace : Workspace) (path : String) : Except Abort String :=
  if path.toList.contains '\x00' then .error .nullCharacter
  else .ok (Path.resolve workspace.directory path)

def place? (workspace : Workspace) (path : String) : Option Place :=
  workspace.places.lookup path

/-- The text of a file. -/
def text (workspace : Workspace) (path : String) : Except Abort String :=
  match workspace.place? path with
  | some (.file text) => .ok text
  | some .directory => .error (.unopened .directory path)
  | none => .error (.unopened .missing path)

/-- How many bytes the name of a file may take. -/
def nameLimit : Nat := 255

/-- Why a name cannot be looked up in a directory, if it cannot. -/
def lookupFault? (workspace : Workspace) (directory name : String) : Option PlaceFault :=
  match workspace.place? directory with
  | none => some .missing
  | some (.file _) => some .notDirectory
  | some .directory => if nameLimit < name.utf8ByteSize then some .nameTooLong else none

/-- Why a file cannot be written, if it cannot. The directories on the way are
gone through from the root. -/
def writeFault? (workspace : Workspace) (path : String) : Option PlaceFault :=
  let names := (Path.parts path.toList).map String.ofList
  let onTheWay := ((Path.ancestors path).zip names).findSome? fun (directory, name) =>
    workspace.lookupFault? directory name
  match onTheWay, workspace.place? path with
  | some fault, _ => some fault
  | none, some .directory => some .directory
  | none, _ => none

end Workspace

end Schemata.Cli
