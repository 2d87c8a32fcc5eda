import Schemata.Schema.Keyword
import Schemata.Text.Lines

/-!
# Labels and constants

A label is a piece of text taken from a schema, with the range it was taken
from. Names, descriptions and enumeration values are labels.
-/

namespace Schemata

open Source

/-- A string and the range it came from. -/
structure Label where
  value : Str
  loc : Option LocationCode
deriving DecidableEq, Repr

/-- The value of a schema that allows only one. Null is no such value. -/
inductive ConstantValue
  | bool (value : Bool)
  | number (value : Number)
  | string (value : Str)
deriving DecidableEq

/-- A constant and the range it came from. -/
structure Constant where
  value : ConstantValue
  loc : Option LocationCode
deriving DecidableEq

/-- The constant value that a scalar is. -/
def ConstantValue.ofScalar? : Json.Scalar → Option ConstantValue
  | .null => none
  | .bool value => some (.bool value)
  | .number value => some (.number value)
  | .string value => some (.string value)

/-- A key as a label. -/
def Json.Key.label (key : Json.Key) : Label :=
  ⟨key.name, key.range.code⟩

namespace Schema.View

/-- The scalar in view as a label. -/
def label (view : View) : Except Failure Label :=
  view.scalar.map fun value => ⟨value.text, view.code⟩

/-- The paragraphs of a string in view, if there are any. -/
def paragraphs? (view : View) : Option (List Label) :=
  view.string?.bind fun text =>
    let paragraphs := Text.paragraphs text
    if paragraphs.isEmpty then none
    else some (paragraphs.map fun paragraph => ⟨paragraph, view.code⟩)

/-- The description of a schema. -/
def paragraphs (view : View) : Option (List Label) :=
  view.description?.bind paragraphs?

/-- The scalar in view as a constant. -/
def constantOf? (view : View) : Option Constant := do
  let value ← ConstantValue.ofScalar? (← view.scalar?)
  return ⟨value, view.code⟩

end Schema.View

end Schemata
