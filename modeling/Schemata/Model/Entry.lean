import Schemata.Json.Value
import Schemata.Model.Label
import Schemata.Model.Rule
import Schemata.Model.Violation

/-!
# Entries and outcomes

A converted schema document is a collection of entries: object types,
enumerations and unions. They refer to each other by name. Types of single values
have no entries of their own. The outcome of a conversion holds the entries in the
order in which they were first met, and the violations on the way.
-/

namespace Schemata

open Source

/-- A type of single values. `untyped` stands in for whatever has no type. -/
inductive Primitive
  | boolean
  | integer
  | long
  | number
  | float
  | double
  | string
  | date
  | dateTime
  | untyped
deriving DecidableEq, Repr

def Primitive.name : Primitive → String
  | boolean => "boolean"
  | integer => "integer"
  | long => "long"
  | number => "number"
  | float => "float"
  | double => "double"
  | string => "string"
  | date => "date"
  | dateTime => "date-time"
  | untyped => "untyped"

/-- What the values of a type are, lists and absence aside. -/
inductive Content
  | primitive (type : Primitive) (loc : Option LocationCode) (constant : Option Constant)
  | named (name : Label)
deriving DecidableEq

/-- The type of a value: a primitive type or an entry, or lists of these. -/
structure ValueType where
  isArray : Bool
  isOptional : Bool
  rules : List Rule
  content : Content
deriving DecidableEq

namespace ValueType

/-- The type of what cannot be typed. -/
def untyped : ValueType :=
  ⟨false, false, [], .primitive .untyped none none⟩

/-- The type of lists of what cannot be typed. -/
def untypedArray : ValueType :=
  { untyped with isArray := true }

/-- The entry of the given name. -/
def named (name : Label) : ValueType :=
  ⟨false, false, [], .named name⟩

def isPrimitive (type : ValueType) : Bool :=
  match type.content with
  | .primitive _ _ _ => true
  | .named _ => false

def isUntyped (type : ValueType) : Bool :=
  match type.content with
  | .primitive .untyped _ _ => true
  | _ => false

/-- The name of the primitive type or the entry. -/
def contentName (type : ValueType) : Str :=
  match type.content with
  | .primitive type _ _ => type.name
  | .named name => name.value

/-- The type in reports: brackets mark lists and a question mark what may be
absent. -/
def summary (type : ValueType) : Str :=
  type.contentName ++ (if type.isArray then "[]" else "") ++
    (if type.isOptional then "?" else "")

/-- Give a primitive type a constant. -/
def withConstant (type : ValueType) (constant : Option Constant) : ValueType :=
  match type.content with
  | .primitive primitive loc _ => { type with content := .primitive primitive loc constant }
  | .named _ => type

end ValueType

structure Property where
  name : Label
  description : Option (List Label)
  type : ValueType
  loc : Option LocationCode
deriving DecidableEq

/-- An object type. `source` is the pointer to the schema it was made from. -/
structure ObjectType where
  name : Label
  description : Option (List Label)
  properties : List Property
  rules : List Rule
  loc : Option LocationCode
  source : Pointer
deriving DecidableEq

/-- An enumeration of strings. -/
structure EnumType where
  name : Label
  description : Option (List Label)
  members : List Label
  loc : Option LocationCode
  source : Pointer
deriving DecidableEq

/-- How the members of a union are told apart: not at all, since it has none; by a
property; or not, all of them being primitive or all named. -/
inductive UnionKind
  | simple
  | discriminated
  | primitive
  | complex
deriving DecidableEq, Repr

def UnionKind.name : UnionKind → String
  | simple => "SimpleUnion"
  | discriminated => "DiscriminatedUnion"
  | primitive => "PrimitiveUnion"
  | complex => "ComplexUnion"

structure UnionType where
  name : Label
  kind : UnionKind
  description : Option (List Label)
  members : List ValueType
  discriminator : Option Label
  loc : Option LocationCode
  source : Pointer
deriving DecidableEq

/-! ### Outcomes -/

/-- A converted document. Its version is meant to be an integer, but any value is taken as it
is. -/
structure Service where
  title : Label
  majorVersion : Json.Value
  sourcePaths : List String
  loc : Option LocationCode
  types : List ObjectType
  enums : List EnumType
  unions : List UnionType
deriving DecidableEq

structure Outcome where
  service : Service
  violations : List Violation
deriving DecidableEq

/-- The violations that are errors. -/
def Outcome.errors (outcome : Outcome) : List Violation :=
  outcome.violations.filter fun violation => violation.severity = .error

end Schemata
