import Schemata.Model.Encoding

/-!
# Options of a conversion

Options are read from the entries of a configuration. Entries of other names are
ignored. A switch is on for any value that is not void, a void value gives the root no
name, whatever holds keys tells which definitions are ignored, and the version may be
any value. A configuration with another value for an option is refused, as is one with
a reserved name.
-/

namespace Schemata

open Json

structure Options where
  /-- The name of an untitled root. Empty means that of the source file. -/
  rootName : Str := []
  majorVersion : Value := .int 0
  /-- Whether lists of item schemas stop the conversion. -/
  strictTupleItems : Bool := true
  /-- Whether circular references stop the conversion. -/
  strictReferenceCycles : Bool := false
  reportDuplicateNames : Bool := true
  reportUnsupportedFeatures : Bool := true
  /-- The keys of definitions that are not converted for their own sake. -/
  ignoreDefinitions : List Str := []
deriving DecidableEq

/-- Why a configuration sets no options. -/
inductive OptionFault
  | notTable (kind : String)
  | wrongKind (name : String)
  | reserved (name : Str)
deriving DecidableEq, Repr

def OptionFault.message : OptionFault → String
  | notTable kind => Text.quoted kind ++ " object has no attribute 'items'"
  | wrongKind name => "Option " ++ Text.quoted name ++ " has a value of another kind"
  | reserved name => "No entry may be named " ++ Text.quoted name

/-! ### Values of options -/

namespace Json.Value

/-- The name of the kind of a value, in messages. -/
def kindName : Value → String
  | scalar .null => "NoneType"
  | scalar (.bool _) => "bool"
  | scalar (.number (.integer _)) => "int"
  | scalar (.number (.float _)) | nan => "float"
  | scalar (.string _) => "str"
  | array _ => "list"
  | object _ => "dict"

/-- Whether the value is null, false, zero or empty. -/
def isVoid : Value → Bool
  | scalar value => value.isVoid
  | nan => false
  | array items => items.isEmpty
  | object members => members.isEmpty

def string? : Value → Option Str
  | scalar value => value.string?
  | _ => none

/-- The name that a value gives to the root. A void value gives none. -/
def name? (value : Value) : Option Str :=
  if value.isVoid then some [] else value.string?

/-- The keys that a value holds: strings in an array, names of members, or pieces of a
string. -/
def keys? : Value → Option (List Str)
  | array items => some (items.filterMap string?)
  | object members => some (members.map Prod.fst)
  | scalar (.string text) =>
      let counts := List.range (text.length + 1)
      some (counts.flatMap fun start => counts.map fun length => (text.drop start).take length)
  | _ => none

end Json.Value

namespace Options

variable (entries : List (Str × Value))

/-- The option of the given name, as its value is read. -/
def option {α : Type} (name : String) (read? : Value → Option α) (default : α) :
    Except OptionFault α :=
  match entries.lookup (name : Str) with
  | none => .ok default
  | some value =>
      match read? value with
      | some setting => .ok setting
      | none => .error (.wrongKind name)

/-- Names that belong to what holds the options. No entry may have them. -/
def reservedNames : List Str :=
  ["__class__", "__dict__", "__weakref__"]

/-- The switch of the given name, which is on for any value that is not void. -/
def switch (name : String) (default : Bool) : Bool :=
  ((entries.lookup (name : Str)).map (!·.isVoid)).getD default

/-- The options that the entries of a table set. -/
def ofEntries : Except OptionFault Options := do
  if let some entry := entries.find? fun entry => entry.1 ∈ reservedNames then
    throw (.reserved entry.1)
  return {
    rootName := ← option entries "root_name" Value.name? []
    majorVersion := (entries.lookup ("major_version" : Str)).getD (.int 0)
    strictTupleItems := switch entries "strict_tuple_items" true
    strictReferenceCycles := switch entries "strict_reference_cycles" false
    reportDuplicateNames := switch entries "report_duplicate_names" true
    reportUnsupportedFeatures := switch entries "report_unsupported_features" true
    ignoreDefinitions := ← option entries "ignore_definitions" Value.keys? [] }

/-- The options that a configuration sets, which must be a table. -/
def ofConfig : Value → Except OptionFault Options
  | .object entries => ofEntries entries
  | value => .error (.notTable value.kindName)

def encode (options : Options) : Value :=
  .object [("root_name", .string options.rootName),
    ("major_version", options.majorVersion),
    ("strict_tuple_items", .bool options.strictTupleItems),
    ("strict_reference_cycles", .bool options.strictReferenceCycles),
    ("report_duplicate_names", .bool options.reportDuplicateNames),
    ("report_unsupported_features", .bool options.reportUnsupportedFeatures),
    ("ignore_definitions", .array (options.ignoreDefinitions.map .string))]

end Options

end Schemata
