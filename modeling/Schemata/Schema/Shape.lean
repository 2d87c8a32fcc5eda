import Schemata.Schema.Keyword

/-!
# Shapes of schemas

Which keyword decides how a schema is converted. The first that matches counts,
in the order in which the shapes are listed.
-/

namespace Schemata.Schema

inductive Shape
  | reference
  | intersection
  | anyOf
  | union
  | typeList
  | enumeration
  | object
  | array
  | primitive
deriving DecidableEq, Repr

namespace Shape

/-- The name of a shape in logs. -/
def name : Shape → String
  | reference => "ref"
  | intersection => "intersection"
  | anyOf => "any_of"
  | union => "union"
  | typeList => "type_array"
  | enumeration => "enum"
  | object => "object"
  | array => "array"
  | primitive => "primitive"

/-- Whether schemas of this shape become entries with a name. -/
def isNamed : Shape → Bool
  | intersection | union | enumeration | object => true
  | _ => false

end Shape

namespace View

/-- The shape of a schema without composition keywords, by its declared type. -/
def shapeOfType (view : View) : Except Failure Shape := do
  if ← view.hasType "object" then return .object
  if ← view.hasType "array" then return .array
  return .primitive

/-- The shape of a schema. -/
def shape (view : View) : Except Failure Shape :=
  if view.reference?.isSome then .ok .reference
  else if view.allOf?.isSome then .ok .intersection
  else if view.anyOf?.isSome then .ok .anyOf
  else if view.oneOf?.isSome then .ok .union
  else
    match view.type? with
    | some (.many _) => .ok .typeList
    | _ => if view.enum?.isSome then .ok .enumeration else view.shapeOfType

/-- Whether an enumeration is one of strings: it declares no other type. -/
def isStringEnum (view : View) : Except Failure Bool :=
  if view.type?.isNone then .ok true else view.hasType "string"

/-- The shape that a schema is converted as. An enumeration that declares another
type than string is converted as that type. -/
def conversionShape (view : View) : Except Failure Shape := do
  match ← view.shape with
  | .enumeration => if ← view.isStringEnum then return .enumeration else view.shapeOfType
  | shape => return shape

end View

end Schemata.Schema
