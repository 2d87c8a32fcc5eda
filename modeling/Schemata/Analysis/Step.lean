import Schemata.Analysis.Context
import Schemata.Schema.Facet

/-!
# Converting one schema

Each shape of schema is converted in its own way. Parts are converted by a given
converter, so that everything here is a single step of the whole conversion.

Objects, intersections, unions and enumerations of strings become entries. A
reference becomes what it refers to, an array a list of its items. Whatever has no
type becomes untyped.
-/

namespace Schemata.Analysis

open Schema Source

/-- A converted schema: its type, and the description that it takes over from the
schemas it refers to. -/
structure Converted where
  type : ValueType
  inherited : List Label
deriving DecidableEq

/-- How a schema is converted. The range is that of an entry made from it. -/
abbrev Converter := View → Option LocationCode → Action Converted

variable (setting : Setting) (convert : Converter)

/-! ### Single values -/

/-- The primitive types by type name and format. Without a format stands the type that the
name has by default. -/
def primitives : List ((Str × Option Str) × Primitive) :=
  [(("boolean", none), .boolean),
    (("integer", none), .integer),
    (("integer", some "int32"), .integer),
    (("integer", some "int64"), .long),
    (("number", none), .number),
    (("number", some "float"), .float),
    (("number", some "double"), .double),
    (("string", none), .string),
    (("string", some "date"), .date),
    (("string", some "date-time"), .dateTime)]

def primitiveOf? (type : Str) (format : Option Str) : Option Primitive :=
  (primitives.lookup (type, format)).or (primitives.lookup (type, none))

/-- The primitive type that a schema declares. -/
def declaredPrimitive? (view : View) : Option Primitive :=
  match view.type? with
  | some (.one type) =>
      type.string?.bind fun name => primitiveOf? name (view.format?.bind View.string?)
  | _ => none

def primitive (view : View) (loc : Option LocationCode) : Action ValueType := do
  match declaredPrimitive? view with
  | none => return .untyped
  | some type =>
      let required ← isRequired setting.document view.pointer
      let rules ← view.valueRules
      return ⟨false, !required, rules, .primitive type loc none⟩

/-- What is not converted, for the reason given. -/
def placeholder (view : View) (key : Str) (problem : Problem) : Action ValueType := do
  if setting.options.reportUnsupportedFeatures then
    Action.report setting problem (view.memberCode? key)
  return .untyped

/-- Lists of the items' type. Schemas for the items one by one are not supported. -/
def array (view : View) : Action ValueType := do
  match view.items? with
  | none => return .untypedArray
  | some (.one item) =>
      let converted ← convert item (some item.code)
      return { converted.type with isArray := true }
  | some (.many _) =>
      if setting.options.strictTupleItems then
        Action.note (.tupleItems view.pointer)
        throw (.tupleItems view.pointer)
      else
        Action.report setting .tupleItems (view.memberCode? "items")
        return .untypedArray

/-! ### References -/

/-- A reference in messages: its value, or where it is if it has none. -/
def referenceText (reference : View) : Str :=
  (reference.scalar?.map Json.Scalar.text).getD reference.pointer

/-- The schema that a reference leads to. One that leads nowhere is reported. -/
def dereference (reference : View) : Action (Option View) := do
  let target ←
    match reference.string? with
    | some pointer => resolve setting.document pointer
    | none => pure none
  if target.isNone then
    Action.report setting (.unresolvedReference (referenceText reference)) (some reference.code)
  return target

/-- What a reference leads to. A schema that is being converted already can be
referred to only if it has an entry. -/
def follow (view reference : View) (loc : Option LocationCode) : Action Converted := do
  match ← dereference setting reference with
  | none => return ⟨.untyped, []⟩
  | some target =>
      let circular ←
        if target.pointer ∈ (← get).chain then
          pure !(← target.conversionShape).isNamed
        else pure false
      if circular then
        let text := referenceText reference
        if setting.options.strictReferenceCycles then
          Action.note (.circularReference text view.pointer)
          throw (.circularReference text view.pointer)
        else
          Action.report setting (.circularReference text) (some reference.code)
          return ⟨.untyped, []⟩
      else
        let converted ← convert target loc
        return ⟨converted.type, view.paragraphs.getD [] ++ converted.inherited⟩

/-! ### Properties -/

/-- A property. Rules and description are those of its own schema; a reference
without any takes over the rules of what it refers to, and a primitive type
without one the description. -/
def property (entry : Schema.Entry) : Action Property := do
  let view := entry.view
  let converted ← convert view (some entry.code)
  let type := converted.type
  let description :=
    if view.paragraphs.isNone && type.isPrimitive && !converted.inherited.isEmpty then
      some converted.inherited
    else view.paragraphs
  let own ← view.valueRules
  let rules := if own.isEmpty && view.reference?.isSome then type.rules else own
  let required ← isRequired setting.document view.pointer
  let constant := view.constant?.bind View.constantOf?
  return {
    name := entry.key.label
    description := description
    type := { type with isOptional := !required, rules := rules }.withConstant constant
    loc := some entry.code }

/-- The properties with the given entries, in order. -/
def propertyList : List Schema.Entry → Action (List Property)
  | [] => return []
  | entry :: rest => do
      let first ← property setting convert entry
      let others ← propertyList rest
      return first :: others

/-- The entries of the properties of a schema. Keys that start with a dollar sign
are not properties. -/
def propertyEntries (view : View) : List Schema.Entry :=
  ((view.properties?.map View.entries).getD []).filter fun entry =>
    entry.key.name.head? ≠ some (.char '$')

/-- The properties of a schema. -/
def properties (view : View) : Action (List Property) :=
  propertyList setting convert (propertyEntries view)

/-! ### Entries -/

/-- What an object type consists of. -/
abbrev TypeBody := List Property × List Rule

/-- The entry of an object schema before its body is read. -/
def newType (view : View) (name : Label) (loc : Option LocationCode) : ObjectType :=
  ⟨name, view.paragraphs, [], [], loc, view.pointer⟩

/-- Make an object type of a schema. It is an entry before its body is read, so that
the body can refer to it. -/
def typeEntry (origin : Origin) (body : Action TypeBody) (view : View)
    (loc : Option LocationCode) : Action ValueType :=
  Action.named setting view fun name => do
    modify (·.addType (newType view name loc))
    Action.note (.registered origin name.value view.pointer)
    let body ← body
    modify (·.completeType name.value body.1 body.2)

/-- The properties and rules of an object schema. -/
def objectBody (view : View) : Action TypeBody := do
  let properties ← properties setting convert view
  let rules ← view.objectRules
  return (properties, rules)

/-- An object type. -/
def object (view : View) (loc : Option LocationCode) : Action ValueType :=
  typeEntry setting .object (objectBody setting convert view) view loc

/-- The strings that an enumeration lists. -/
def stringLabels (members : List View) : List Label :=
  members.filterMap fun member => member.string?.map fun text => ⟨text, member.code⟩

def newEnum (view : View) (members : List View) (name : Label) (loc : Option LocationCode) :
    EnumType :=
  ⟨name, view.paragraphs, stringLabels members, loc, view.pointer⟩

/-- An enumeration of the strings that are listed. -/
def stringEnum (view : View) (members : List View) (loc : Option LocationCode) :
    Action ValueType :=
  Action.named setting view fun name => do
    modify (·.addEnum (newEnum view members name loc))
    Action.note (.registered .enumeration name.value view.pointer)

/-- Convert a schema as the type that it declares. -/
def byType (view : View) (loc : Option LocationCode) : Shape → Action ValueType
  | .object => object setting convert view loc
  | .array => array setting convert view
  | _ => primitive setting view loc

/-- An enumeration. The values of one that declares another type than string are
ignored. -/
def enumeration (view : View) (loc : Option LocationCode) : Action ValueType := do
  if ← view.isStringEnum then
    stringEnum setting view (view.enum?.getD []) loc
  else
    if setting.options.reportUnsupportedFeatures then
      Action.report setting .enumValues (view.memberCode? "enum")
    let shape ← view.shapeOfType
    byType setting convert view loc shape

/-- Add a property to a list. One of the same name is replaced where it stands. -/
def mergeProperty (properties : List Property) (property : Property) : List Property :=
  if properties.any (·.name.value = property.name.value) then
    properties.map fun other =>
      if other.name.value = property.name.value then property else other
  else properties ++ [property]

/-- Whether there is a schema and it is one of objects. -/
def isObject : Option View → Except Failure Bool
  | some part => part.hasType "object"
  | none => .ok false

/-- The object schemas among the members of an intersection. A member that refers
to a schema stands for it; one step is taken, no more. -/
def intersectionParts : List View → Action (List View)
  | [] => return []
  | member :: rest => do
      let target ←
        match member.reference? with
        | some reference => dereference setting reference
        | none => pure (some member)
      let taken ← isObject target
      let others ← intersectionParts rest
      return if taken then target.toList ++ others else others

/-- The properties of several schemas in one list, to which some were added
before. -/
def mergedProperties (before : List Property) : List View → Action (List Property)
  | [] => return before
  | part :: rest => do
      let added ← properties setting convert part
      mergedProperties (added.foldl mergeProperty before) rest

/-- The rules on the objects of several schemas. -/
def mergedRules : List View → Except Failure (List Rule)
  | [] => return []
  | part :: rest => do
      let rules ← part.objectRules
      let others ← mergedRules rest
      return rules ++ others

/-- The properties and rules of all members of an intersection that are objects. -/
def intersectionBody (view : View) : Action TypeBody := do
  let parts ← intersectionParts setting (view.allOf?.getD [])
  let properties ← mergedProperties setting convert [] parts
  let rules ← mergedRules parts
  return (properties, rules)

/-- An object type made of several schemas. -/
def intersection (view : View) (loc : Option LocationCode) : Action ValueType :=
  typeEntry setting .intersection (intersectionBody setting convert view) view loc

/-! ### Unions -/

/-- A member of a union, with its schema. -/
structure Alternative where
  view : View
  type : ValueType

/-- Convert the members of a union. -/
def alternatives : List View → Action (List Alternative)
  | [] => return []
  | member :: rest => do
      let converted ← convert member (some member.code)
      let others ← alternatives rest
      return ⟨member, converted.type⟩ :: others

/-- The members of a union that fit. Every other one is reported. -/
def keep (fits : ValueType → Bool) (problem : Problem) :
    List Alternative → Action (List ValueType)
  | [] => return []
  | ⟨view, type⟩ :: rest => do
      if fits type then
        let others ← keep fits problem rest
        return type :: others
      else
        Action.report setting problem (some view.code)
        keep fits problem rest

/-- The name of the property that tells the members of a union apart. -/
def discriminatorOf? (view : View) : Option Label := do
  let name ← (← view.discriminator?).child? "propertyName"
  let value ← name.scalar?
  if value.isVoid then none else some ⟨value.text, name.code⟩

/-- What a union consists of. -/
structure UnionBody where
  kind : UnionKind
  members : List ValueType
  discriminator : Option Label

/-- The members of a union. They are told apart by the named property, if there is
one, and have to be named then. Otherwise they are all primitive or all named, as the
first one is. -/
def unionBody (view : View) : Action UnionBody := do
  let members ← alternatives convert (view.oneOf?.getD [])
  match discriminatorOf? view, members with
  | some discriminator, _ =>
      if let some mapping := view.discriminator?.bind (·.child? "mapping") then
        Action.report setting .discriminatorMapping (some mapping.code)
      let kept ← keep setting (!·.isPrimitive) .primitiveDiscriminated members
      return ⟨.discriminated, kept, some discriminator⟩
  | none, [] => return ⟨.simple, [], none⟩
  | none, first :: _ =>
      let kept ← keep setting (·.isPrimitive == first.type.isPrimitive) .mixedUnion members
      return ⟨if first.type.isPrimitive then .primitive else .complex, kept, none⟩

/-- The entry of a union before its body is read. -/
def newUnion (view : View) (name : Label) (loc : Option LocationCode) : UnionType :=
  ⟨name, .simple, view.paragraphs, [], none, loc, view.pointer⟩

/-- A union. -/
def union (view : View) (loc : Option LocationCode) : Action ValueType :=
  Action.named setting view fun name => do
    modify (·.addUnion (newUnion view name loc))
    Action.note (.registered .union name.value view.pointer)
    let body ← unionBody setting convert view
    modify (·.completeUnion name.value body.kind body.members body.discriminator)

/-! ### All shapes -/

/-- Convert a schema other than a reference by its shape. -/
def byShape (view : View) (loc : Option LocationCode) : Shape → Action ValueType
  | .intersection => intersection setting convert view loc
  | .anyOf => placeholder setting view "anyOf" .anyOf
  | .union => union setting convert view loc
  | .typeList => placeholder setting view "type" .typeList
  | .enumeration => enumeration setting convert view loc
  | .object => object setting convert view loc
  | .array => array setting convert view
  | .reference | .primitive => primitive setting view loc

/-- Convert a schema whose definitions have been visited. -/
def dispatch (view : View) (loc : Option LocationCode) : Action Converted := do
  let shape ← view.shape
  Action.note (.parsing view.pointer shape)
  match view.reference? with
  | some reference => follow setting convert view reference loc
  | none =>
      let type ← byShape setting convert view loc shape
      return ⟨type, view.paragraphs.getD []⟩

/-- Convert the definitions that were not visited before and are not ignored. -/
def visitDefinitions : List Schema.Entry → Action Unit
  | [] => return ()
  | entry :: rest => do
      if entry.key.name ∈ setting.options.ignoreDefinitions ||
          entry.view.pointer ∈ (← get).visited then
        visitDefinitions rest
      else
        modify (·.visit entry.view.pointer)
        let _ ← convert entry.view (some entry.code)
        visitDefinitions rest

/-- Convert a schema, after the definitions that it holds. -/
def step : Converter := fun view loc => do
  visitDefinitions setting convert (view.definitions.flatMap View.entries)
  Action.within view.pointer (dispatch setting convert view loc)

end Schemata.Analysis
