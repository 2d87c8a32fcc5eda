import Schemata.Json.Escape
import Schemata.Json.Node
import Schemata.Text.Printable

/-!
# Plain values

A plain value is a JSON value without positions, or the value that is no number.
Its members are in order, repeated names included. It is written with one member or
item to a line, indented by two spaces for each level, in ASCII characters alone.
Infinite numbers and the value that is no number are written as words, for which
JSON has no meaning.
-/

namespace Schemata.Json

inductive Value
  | scalar (value : Scalar)
  | nan
  | array (items : List Value)
  | object (members : List (Str × Value))
deriving Inhabited

namespace Value

def null : Value :=
  scalar .null

def bool (value : Bool) : Value :=
  scalar (.bool value)

def number (value : Number) : Value :=
  scalar (.number value)

def int (value : Int) : Value :=
  number (.integer value)

def string (value : Str) : Value :=
  scalar (.string value)

/-- An object from the members that are there. -/
def ofFields (fields : List (Str × Option Value)) : Value :=
  object (fields.filterMap fun (name, value?) => value?.map (name, ·))

end Value

/-! ### Equality -/

mutual

def Value.decEq : (value other : Value) → Decidable (value = other)
  | .scalar value, .scalar other =>
      if h : value = other then isTrue (congrArg _ h)
      else isFalse fun heq => h (Value.scalar.inj heq)
  | .nan, .nan => isTrue rfl
  | .array items, .array others =>
      match decEqItems items others with
      | isTrue h => isTrue (congrArg _ h)
      | isFalse h => isFalse fun heq => h (Value.array.inj heq)
  | .object members, .object others =>
      match decEqMembers members others with
      | isTrue h => isTrue (congrArg _ h)
      | isFalse h => isFalse fun heq => h (Value.object.inj heq)
  | .scalar _, .nan | .scalar _, .array _ | .scalar _, .object _ => isFalse nofun
  | .nan, .scalar _ | .nan, .array _ | .nan, .object _ => isFalse nofun
  | .array _, .scalar _ | .array _, .nan | .array _, .object _ => isFalse nofun
  | .object _, .scalar _ | .object _, .nan | .object _, .array _ => isFalse nofun

def decEqItems : (items others : List Value) → Decidable (items = others)
  | [], [] => isTrue rfl
  | [], _ :: _ | _ :: _, [] => isFalse nofun
  | item :: rest, other :: others =>
      match item.decEq other, decEqItems rest others with
      | isTrue h, isTrue hrest => isTrue (by rw [h, hrest])
      | isFalse h, _ => isFalse fun heq => h (List.cons.inj heq).1
      | _, isFalse hrest => isFalse fun heq => hrest (List.cons.inj heq).2

def decEqMembers : (members others : List (Str × Value)) → Decidable (members = others)
  | [], [] => isTrue rfl
  | [], _ :: _ | _ :: _, [] => isFalse nofun
  | (name, value) :: rest, (key, other) :: others =>
      match decEq name key, value.decEq other, decEqMembers rest others with
      | isTrue hname, isTrue h, isTrue hrest => isTrue (by rw [hname, h, hrest])
      | isFalse hname, _, _ => isFalse fun heq => hname (Prod.mk.inj (List.cons.inj heq).1).1
      | _, isFalse h, _ => isFalse fun heq => h (Prod.mk.inj (List.cons.inj heq).1).2
      | _, _, isFalse hrest => isFalse fun heq => hrest (List.cons.inj heq).2

end

instance : DecidableEq Value :=
  Value.decEq

/-! ### Values as texts -/

mutual

/-- A value as it appears inside another one, in a report. -/
def Value.partText : Value → Str
  | .scalar (.string text) => Text.quoted text
  | .scalar value => value.text
  | .nan => "nan"
  | .array items => "[" ++ (", " : Str).intercalate (itemTexts items) ++ "]"
  | .object members => "\x7b" ++ (", " : Str).intercalate (memberTexts members) ++ "\x7d"

def itemTexts : List Value → List Str
  | [] => []
  | item :: rest => item.partText :: itemTexts rest

def memberTexts : List (Str × Value) → List Str
  | [] => []
  | (name, value) :: rest => (Text.quoted name ++ ": " ++ value.partText) :: memberTexts rest

end

/-- A value as it appears in a report. -/
def Value.text : Value → Str
  | .scalar value => value.text
  | value => value.partText

/-- A scalar in a JSON text. -/
def Scalar.write : Scalar → String
  | null => "null"
  | bool value => if value then "true" else "false"
  | number value => value.textWith "Infinity"
  | string value => String.ofList (escape value)

/-- The start of a line at some depth. -/
def newline (depth : Nat) : String :=
  "\n" ++ String.ofList (List.replicate (2 * depth) ' ')

mutual

/-- A value in a JSON text, for a line at the given depth. -/
def Value.writeAt (depth : Nat) : Value → String
  | .scalar value => value.write
  | .nan => "NaN"
  | .array [] => "[]"
  | .array (first :: rest) =>
      "[" ++ newline (depth + 1) ++ first.writeAt (depth + 1) ++ writeItems (depth + 1) rest ++
        newline depth ++ "]"
  | .object [] => "\x7b\x7d"
  | .object ((name, first) :: rest) =>
      "\x7b" ++ newline (depth + 1) ++ Scalar.write (.string name) ++ ": " ++
        first.writeAt (depth + 1) ++ writeMembers (depth + 1) rest ++ newline depth ++ "\x7d"

/-- Further items, each after a comma. -/
def writeItems (depth : Nat) : List Value → String
  | [] => ""
  | item :: rest => "," ++ newline depth ++ item.writeAt depth ++ writeItems depth rest

/-- Further members, each after a comma. -/
def writeMembers (depth : Nat) : List (Str × Value) → String
  | [] => ""
  | (name, value) :: rest =>
      "," ++ newline depth ++ Scalar.write (.string name) ++ ": " ++ value.writeAt depth ++
        writeMembers depth rest

end

/-- The JSON text of a value. -/
def Value.write (value : Value) : String :=
  value.writeAt 0

mutual

/-- The value of a document, repeated keys included. -/
def Node.value : Node → Value
  | .object _ members => .object (memberValues members)
  | .array _ items => .array (itemValues items)
  | .scalar _ value _ => .scalar value

def memberValues : List (Member Node) → List (Str × Value)
  | [] => []
  | ⟨key, node⟩ :: rest => (key.name, node.value) :: memberValues rest

def itemValues : List Node → List Value
  | [] => []
  | node :: rest => node.value :: itemValues rest

end

end Schemata.Json
