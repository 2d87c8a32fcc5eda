import Schemata.Model.Entry

/-!
# Text reports

A report lists the entries and violations of an outcome for people to read. Ranges
are shown by the path of their source and the line and column where they start.
-/

namespace Schemata

open Source

namespace Report

/-- The least number that can be looked up in a list. -/
def leastIndex : Int :=
  -(Nat.pow 2 63 : Nat)

/-- The path with the given number. A negative number counts from the end; a
number past the end has no path. -/
def sourcePath (paths : List String) (source : Int) : Except Failure String :=
  if paths.length ≤ source then .ok ""
  else if source < leastIndex then .error .unboundedSource
  else
    let index := if source < 0 then paths.length + source else source
    if index < 0 then .error .noSource else .ok (paths[index.toNat]?.getD "")

/-- Where a range starts. A range that is missing or malformed starts where the
first source does. -/
def position (loc : Option LocationCode) (paths : List String) : Except Failure String := do
  let location := Location.ofCode loc
  let path ← sourcePath paths location.source
  let start := location.range.first
  return path ++ ":" ++ Text.integerText start.line ++ ":" ++ Text.integerText start.column

/-- The head of a section, with the number of its entries. -/
def heading (title : String) (count : Nat) : String :=
  title ++ " (" ++ Text.integerText count ++ "):\n"

def ruleNames (rules : List Rule) : String :=
  ", ".intercalate (rules.map fun rule => rule.constraint.name)

def propertyLine (property : Property) : Str :=
  "    " ++ property.name.value ++ ": " ++ property.type.summary ++
    (if property.type.rules.isEmpty then ""
      else "  [" ++ ruleNames property.type.rules ++ "]") ++ "\n"

def typeLines (paths : List String) (type : ObjectType) : Except Failure Str := do
  let place ← position type.loc paths
  return "  " ++ type.name.value ++ "  " ++ place ++ "\n" ++
    (type.properties.map propertyLine).flatten ++
    (if type.rules.isEmpty then "" else "    rules: " ++ ruleNames type.rules ++ "\n")

def enumLine (type : EnumType) : Str :=
  "  " ++ type.name.value ++ ": " ++ (" | " : Str).intercalate (type.members.map Label.value) ++
    "\n"

/-- The property that tells the members of a union apart, if there is one. -/
def discriminatorText : Option Label → Str
  | some name => " on " ++ name.value
  | none => []

def unionLine (type : UnionType) : Str :=
  "  " ++ type.name.value ++ " (" ++ type.kind.name ++
    discriminatorText type.discriminator ++ "): " ++
    (" | " : Str).intercalate (type.members.map ValueType.summary) ++ "\n"

def violationLine (paths : List String) (violation : Violation) : Except Failure Str := do
  let place ← position violation.range paths
  return "  " ++ place ++ " " ++ violation.severity.name ++ " " ++ violation.code.name ++ ": " ++
    violation.message ++ "\n"

/-- The part of a report that lists the entries, given the lines of the object types. -/
def entriesText (service : Service) (types : List Str) : Str :=
  service.title.value ++ " (major version " ++ service.majorVersion.text ++ ")\n\n" ++
    heading "Types" service.types.length ++ types.flatten ++ "\n" ++
    heading "Enums" service.enums.length ++ (service.enums.map enumLine).flatten ++ "\n" ++
    heading "Unions" service.unions.length ++ (service.unions.map unionLine).flatten ++ "\n"

end Report

open Report in
/-- The report of an outcome. -/
def Outcome.report (outcome : Outcome) : Except Failure Str := do
  let service := outcome.service
  let types ← service.types.mapM (typeLines service.sourcePaths)
  let violations ← outcome.violations.mapM (violationLine service.sourcePaths)
  return entriesText service types ++
    heading "Violations" outcome.violations.length ++ violations.flatten

end Schemata
