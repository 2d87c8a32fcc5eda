/-!
# Paths of sources

A path is a text with slashes between its parts. Empty parts and single dots do
not count. The stem of a path is its last part up to the last dot, unless that
dot is the first or the last character of the part.
-/

namespace Schemata.Source.Path

/-- The parts of a path that count. -/
def parts (path : List Char) : List (List Char) :=
  (path.splitOn '/').filter fun part => part ≠ [] && part ≠ ['.']

/-- The last part of a path, empty if there is none. -/
def name (path : List Char) : List Char :=
  (parts path).getLast?.getD []

/-- A part up to its last dot. -/
def beforeLastDot (part : List Char) : List Char :=
  let suffix := part.reverse.takeWhile (· ≠ '.')
  let start := part.take (part.length - (suffix.length + 1))
  if suffix.isEmpty || suffix.length = part.length || start.isEmpty then part else start

/-- The stem of a path. -/
def stem (path : String) : String :=
  String.ofList (beforeLastDot (name path.toList))

/-- Go along the parts of a path. Two dots lead up again. -/
def walk (start : List (List Char)) (path : List Char) : List (List Char) :=
  (parts path).foldl
    (fun place part => if part = ['.', '.'] then place.dropLast else place ++ [part]) start

/-- The absolute path of the parts below the root. -/
def absolute (place : List (List Char)) : String :=
  String.ofList ('/' :: ['/'].intercalate place)

/-- The absolute form of a path that is taken from a directory. -/
def resolve (directory path : String) : String :=
  let start := if path.toList.head? = some '/' then [] else parts directory.toList
  absolute (walk start path.toList)

/-- The directories on the way to what an absolute path names, the root first. -/
def ancestors (path : String) : List String :=
  let names := parts path.toList
  (List.range names.length).map fun count => absolute (names.take count)

end Schemata.Source.Path
