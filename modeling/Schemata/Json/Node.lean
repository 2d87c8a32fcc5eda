import Schemata.Json.Scalar
import Schemata.Source.Location

/-!
# Document trees

The tree of a JSON text keeps everything the text says: members stay in order,
repeated keys included, scalars keep their written form, and every node knows
its range.
-/

namespace Schemata.Json

open Source

/-- The key of an object member, decoded and as written. -/
structure Key where
  name : Str
  raw : String
  range : Range
deriving DecidableEq, Repr

/-- A key and what it maps to. -/
structure Member (α : Type) where
  key : Key
  value : α

/-- A value of a JSON text. -/
inductive Node
  | object (range : Range) (members : List (Member Node))
  | array (range : Range) (items : List Node)
  | scalar (range : Range) (value : Scalar) (raw : String)

namespace Node

def range : Node → Range
  | object range _ => range
  | array range _ => range
  | scalar range _ _ => range

/-- The members of an object, and none of any other value. -/
def members : Node → List (Member Node)
  | object _ members => members
  | _ => []

/-- The items of an array, and none of any other value. -/
def items : Node → List Node
  | array _ items => items
  | _ => []

def scalar? : Node → Option Scalar
  | scalar _ value _ => some value
  | _ => none

def array? : Node → Option (List Node)
  | array _ items => some items
  | _ => none

/-- The first member of an object with the given key. -/
def member? (node : Node) (name : Str) : Option (Member Node) :=
  node.members.find? fun member => member.key.name = name

end Node

/-- A member reaches from the start of its key to the end of its value. -/
def Member.range (member : Member Node) : Range :=
  ⟨member.key.range.first, member.value.range.last⟩

mutual

/-- How many values a tree holds, itself included. -/
def Node.size : Node → Nat
  | .object _ members => membersSize members + 1
  | .array _ items => itemsSize items + 1
  | .scalar _ _ _ => 1

def membersSize : List (Member Node) → Nat
  | [] => 0
  | ⟨_, value⟩ :: rest => value.size + membersSize rest

def itemsSize : List Node → Nat
  | [] => 0
  | item :: rest => item.size + itemsSize rest

end

end Schemata.Json
