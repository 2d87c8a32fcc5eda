import Schemata.Schema.View

/-!
# Keywords of a schema

What a schema says under each of its keywords. Nothing is interpreted here: a
keyword with a value of an unexpected kind is still there, except that keywords
that take a list are missing when they hold anything but an array.
-/

namespace Schemata.Schema

open Json

/-- One thing or a list of them. -/
inductive OneOrMany (α : Type)
  | one (value : α)
  | many (values : List α)

/-- The keywords that hold named definitions. -/
def definitionKeywords : List Str :=
  ["definitions", "$defs"]

namespace View

def reference? (view : View) : Option View :=
  view.child? "$ref"

def description? (view : View) : Option View :=
  view.child? "description"

def constant? (view : View) : Option View :=
  view.child? "const"

def format? (view : View) : Option View :=
  view.child? "format"

def properties? (view : View) : Option View :=
  view.child? "properties"

def required? (view : View) : Option (List View) :=
  view.children? "required"

def enum? (view : View) : Option (List View) :=
  view.children? "enum"

def allOf? (view : View) : Option (List View) :=
  view.children? "allOf"

def anyOf? (view : View) : Option (List View) :=
  view.children? "anyOf"

def oneOf? (view : View) : Option (List View) :=
  view.children? "oneOf"

def discriminator? (view : View) : Option View :=
  view.child? "discriminator"

/-- The maps of named definitions, in the order of their keywords. -/
def definitions (view : View) : List View :=
  definitionKeywords.filterMap view.child?

/-- The value under a key, or the views of its items when it is an array. -/
def oneOrMany? (view : View) (key : Str) : Option (OneOrMany View) :=
  match view.children? key with
  | some views => some (.many views)
  | none => (view.child? key).map .one

/-- The schema of all items, or the schemas of the items one by one. -/
def items? (view : View) : Option (OneOrMany View) :=
  view.oneOrMany? "items"

/-- The name of a type, or a list of alternatives. -/
def type? (view : View) : Option (OneOrMany View) :=
  view.oneOrMany? "type"

/-- Whether a schema declares the one type of the given name. A single type that
is not a scalar is refused. -/
def hasType (view : View) (name : Str) : Except Failure Bool :=
  match view.type? with
  | some (.one type) => type.scalar.map fun value => value = .string name
  | _ => .ok false

/-- Whether a schema declares a number or an integer. -/
def hasNumericType (view : View) : Except Failure Bool := do
  return (← view.hasType "number") || (← view.hasType "integer")

end View

end Schemata.Schema
