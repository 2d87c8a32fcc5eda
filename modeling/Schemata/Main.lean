import Schemata.Cli.Run

/-!
# The program

The program looks at the files that its arguments name and runs the command.
-/

namespace Schemata.Main

open Cli Source

/-- What is at a path. What can be opened but not read as text is not a file here. -/
def look (path : String) : IO (Option Place) := do
  let opened ← (IO.FS.Handle.mk path .read).toBaseIO
  match opened with
  | .error _ => return none
  | .ok handle =>
      match ← handle.readToEnd.toBaseIO with
      | .ok text => return some (.file text)
      | .error _ => return some .directory

/-- The paths that the given arguments may concern. -/
def mentioned (directory : String) (arguments : Arguments) : List String :=
  let paths :=
    (arguments.paths ++ arguments.given.map Given.value).map (Path.resolve directory)
  paths ++ paths.flatMap Path.ancestors

/-- The workspace as far as the given arguments concern it. -/
def workspace (arguments : List String) : IO Workspace := do
  let directory := (← IO.currentDir).toString
  let paths :=
    match readArguments none arguments with
    | .ok arguments => mentioned directory arguments
    | .error _ => []
  let places ← paths.mapM fun path => return (← look path).map fun place => (path, place)
  return ⟨directory, places.filterMap id⟩

/-- Show how a run ended, and write its file. The result is the exit status. -/
def conclude (ending : Ending) : IO UInt32 := do
  (← IO.getStdout).putStr ending.stdout
  (← IO.getStderr).putStr ending.stderr
  if let some (path, text) := ending.written then
    IO.FS.writeFile path text
  return ending.status.toUInt32

end Schemata.Main

def main (arguments : List String) : IO UInt32 := do
  match Schemata.Cli.run (← Schemata.Main.workspace arguments) arguments with
  | .ok ending => Schemata.Main.conclude ending
  | .error abort =>
      (← IO.getStderr).putStrLn (Schemata.Cli.shown abort.message)
      return 1
