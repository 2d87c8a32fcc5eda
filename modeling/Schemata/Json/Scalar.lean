import Schemata.Number.Basic
import Schemata.Text.Str

/-!
# Scalars

The values of a JSON document that hold no other values.
-/

namespace Schemata.Json

/-- A JSON value without parts. -/
inductive Scalar
  | null
  | bool (value : Bool)
  | number (value : Number)
  | string (value : Str)
deriving DecidableEq, Inhabited

namespace Scalar

/-- The value of a string. -/
def string? : Scalar → Option Str
  | string value => some value
  | _ => none

/-- The value of a number. -/
def number? : Scalar → Option Number
  | number value => some value
  | _ => none

/-- Whether the value is null, false, zero or the empty string. -/
def isVoid : Scalar → Bool
  | null => true
  | bool value => !value
  | number value => value.isZero
  | string value => value = ""

/-- A scalar as it appears in names and messages. -/
def text : Scalar → Str
  | null => "None"
  | bool true => "True"
  | bool false => "False"
  | number value => value.text
  | string value => value

end Scalar

end Schemata.Json
