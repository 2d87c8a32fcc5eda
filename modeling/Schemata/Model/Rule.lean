import Schemata.Number.Basic
import Schemata.Source.Location

/-!
# Validation rules

A rule is a constraint that a schema puts on its values, with the range of the
keyword that says so. Whether a rule concerns single values or whole objects is
decided by its constraint.
-/

namespace Schemata

open Source

/-- What a rule demands of a value. -/
inductive Constraint
  | maxLength (length : Number)
  | minLength (length : Number)
  | pattern (pattern : Str)
  | format (format : Str)
  | oneOf (values : List Str)
  | multipleOf (value : Number)
  | greaterThan (value : Number)
  | atLeast (value : Number)
  | lessThan (value : Number)
  | atMost (value : Number)
  | minItems (count : Number)
  | maxItems (count : Number)
  | uniqueItems (required : Bool)
  | minProperties (count : Number)
  | maxProperties (count : Number)
deriving DecidableEq

/-- A constraint and the range of the keyword it came from. -/
structure Rule where
  constraint : Constraint
  loc : Option LocationCode
deriving DecidableEq

/-- Whether a constraint is one on whole objects. -/
def Constraint.isOnObjects : Constraint → Bool
  | minProperties _ => true
  | maxProperties _ => true
  | _ => false

/-- The name of a constraint in reports. -/
def Constraint.name : Constraint → String
  | maxLength _ => "StringMaxLength"
  | minLength _ => "StringMinLength"
  | pattern _ => "StringPattern"
  | format _ => "StringFormat"
  | oneOf _ => "StringEnum"
  | multipleOf _ => "NumberMultipleOf"
  | greaterThan _ => "NumberGT"
  | atLeast _ => "NumberGTE"
  | lessThan _ => "NumberLT"
  | atMost _ => "NumberLTE"
  | minItems _ => "ArrayMinItems"
  | maxItems _ => "ArrayMaxItems"
  | uniqueItems _ => "ArrayUniqueItems"
  | minProperties _ => "ObjectMinProperties"
  | maxProperties _ => "ObjectMaxProperties"

end Schemata
