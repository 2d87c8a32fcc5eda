import Schemata.Analysis.Registry
import Schemata.Model.Entry
import Schemata.Model.Violation
import Schemata.Options
import Schemata.Schema.Naming
import Schemata.Schema.Shape
import Schemata.Source.Path

/-!
# The state of a conversion

A conversion collects entries and violations. An entry is added under its name
before its parts are converted, so that they can refer to it, and completed
afterwards. Names are unique among all entries: the schema that claims a name
first keeps it.

The state also holds the pointers of the schemas that are being converted, those
of the definitions visited so far, and a log.
-/

namespace Schemata.Analysis

open Schema Source

/-- What an entry was made from, for the log. -/
inductive Origin
  | object
  | intersection
  | union
  | enumeration
deriving DecidableEq, Repr

/-- What happened during a conversion. -/
inductive Event
  | parsing (pointer : Pointer) (shape : Shape)
  | registered (origin : Origin) (name : Str) (pointer : Pointer)
  | recorded (violation : Violation)
  | tupleItems (pointer : Pointer)
  | circularReference (reference : Str) (pointer : Pointer)
deriving DecidableEq, Repr

/-- An entry of any kind. -/
inductive Entry
  | type (type : ObjectType)
  | enumeration (type : EnumType)
  | union (type : UnionType)

namespace Entry

def name : Entry → Label
  | type found => found.name
  | enumeration found => found.name
  | union found => found.name

/-- The pointer to the schema that the entry was made from. -/
def source : Entry → Pointer
  | type found => found.source
  | enumeration found => found.source
  | union found => found.source

end Entry

/-- The state of a conversion. Entries and violations are in the order in which
they were added; the chain of schemas being converted has the innermost first, as
have the visited definitions and the log. -/
structure Context where
  typeRegistry : Registry ObjectType := {}
  enumRegistry : Registry EnumType := {}
  unionRegistry : Registry UnionType := {}
  violations : List Violation := []
  chain : List Pointer := []
  visited : List Pointer := []
  log : List Event := []

namespace Context

def types (context : Context) : List ObjectType :=
  context.typeRegistry.values

def enums (context : Context) : List EnumType :=
  context.enumRegistry.values

def unions (context : Context) : List UnionType :=
  context.unionRegistry.values

/-- The entry of the given name. -/
def lookup (context : Context) (name : Str) : Option Entry :=
  ((context.typeRegistry.get? name).map .type).or <|
    ((context.enumRegistry.get? name).map .enumeration).or
      ((context.unionRegistry.get? name).map .union)

def note (context : Context) (event : Event) : Context :=
  { context with log := event :: context.log }

/-- Record a violation unless an equal one is recorded. -/
def record (context : Context) (violation : Violation) : Context :=
  if violation ∈ context.violations then context
  else
    { context with violations := context.violations ++ [violation] }.note (.recorded violation)

def addType (context : Context) (type : ObjectType) : Context :=
  { context with typeRegistry := context.typeRegistry.insert type.name.value type }

def addEnum (context : Context) (type : EnumType) : Context :=
  { context with enumRegistry := context.enumRegistry.insert type.name.value type }

def addUnion (context : Context) (type : UnionType) : Context :=
  { context with unionRegistry := context.unionRegistry.insert type.name.value type }

/-- Fill in what an object type consists of. -/
def completeType (context : Context) (name : Str) (properties : List Property)
    (rules : List Rule) : Context :=
  { context with
    typeRegistry := context.typeRegistry.modify name fun type =>
      { type with properties := properties, rules := rules } }

/-- Fill in what a union consists of. -/
def completeUnion (context : Context) (name : Str) (kind : UnionKind)
    (members : List ValueType) (discriminator : Option Label) : Context :=
  { context with
    unionRegistry := context.unionRegistry.modify name fun type =>
      { type with kind := kind, members := members, discriminator := discriminator } }

def visit (context : Context) (pointer : Pointer) : Context :=
  { context with visited := pointer :: context.visited }

/-- Put a pointer on the chain. -/
def enter (context : Context) (pointer : Pointer) : Context :=
  { context with chain := pointer :: context.chain }

/-- Take the innermost pointer off the chain. -/
def leave (context : Context) : Context :=
  { context with chain := context.chain.tail }

end Context

/-- What does not change during a conversion. -/
structure Setting where
  document : Json.Node
  sourcePath : String
  options : Options

namespace Setting

/-- The name of an untitled root: the one that is set, or the stem of the path of
the source. -/
def rootName (setting : Setting) : Str :=
  if setting.options.rootName ≠ [] then setting.options.rootName
  else if setting.sourcePath = "" then "root"
  else Path.stem setting.sourcePath

def naming (setting : Setting) : Naming :=
  ⟨setting.document, setting.rootName⟩

end Setting

/-- A step of a conversion. What was done before a failure stays done. -/
abbrev Action := ExceptT Failure (StateM Context)

namespace Action

def note (event : Event) : Action Unit :=
  modify (·.note event)

/-- Record a problem at a range of the source. -/
def report (setting : Setting) (problem : Problem) (range : Option LocationCode) : Action Unit :=
  modify (·.record (problem.violation range setting.sourcePath))

/-- Run an action with a pointer on the chain, and take it off again also after a
failure. -/
def within {α : Type} (pointer : Pointer) (action : Action α) : Action α :=
  ExceptT.mk do
    modify (·.enter pointer)
    let result ← action.run
    modify (·.leave)
    return result

/-- Whether a schema may become an entry of the given name. A name that is taken by
another schema is reported. -/
def claim (setting : Setting) (name : Label) (view : View) : Action Bool := do
  match (← get).lookup name.value with
  | none => return true
  | some owner =>
      if owner.source ≠ view.pointer && setting.options.reportDuplicateNames then
        report setting (.duplicateName name.value view.pointer owner.source)
          (name.loc.or ((view.memberCode? "title").or view.code))
      return false

/-- Make an entry of a schema under its name, unless the name is taken, and refer
to it. A schema without a name cannot be referred to. -/
def named (setting : Setting) (view : View) (declare : Label → Action Unit) :
    Action ValueType := do
  match ← setting.naming.infer view with
  | none => return .untyped
  | some name =>
      if ← claim setting name view then declare name
      return .named name

end Action

end Schemata.Analysis
