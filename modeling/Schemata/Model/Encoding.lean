import Schemata.Json.Value
import Schemata.Model.Entry

/-!
# Outcomes as JSON values

Every part of an outcome becomes an object with one field for each of its parts;
what is missing is left out. Value types and rules say what kind they are. The
pointers that entries were made from are not part of it.
-/

namespace Schemata

open Json Source

/-- A list of things as an array. -/
def encodeList {α : Type} (encode : α → Value) (list : List α) : Value :=
  .array (list.map encode)

/-- A written range. -/
def encodeLoc (loc : Option LocationCode) : Option Value :=
  loc.map fun code : LocationCode => .string code

def Label.encode (label : Label) : Value :=
  .ofFields [("value", some (.string label.value)), ("loc", encodeLoc label.loc)]

def ConstantValue.kind : ConstantValue → String
  | bool _ => "BooleanLiteral"
  | number _ => "NumberLiteral"
  | string _ => "StringLiteral"

def ConstantValue.encode : ConstantValue → Value
  | bool value => .bool value
  | number value => .number value
  | string value => .string value

def Constant.encode (constant : Constant) : Value :=
  .ofFields [("kind", some (.string constant.value.kind)),
    ("value", some constant.value.encode), ("loc", encodeLoc constant.loc)]

/-- The field that holds what a constraint demands. -/
def Constraint.field : Constraint → Str × Value
  | maxLength length => ("length", .number length)
  | minLength length => ("length", .number length)
  | pattern text => ("pattern", .string text)
  | format text => ("format", .string text)
  | oneOf values => ("values", encodeList .string values)
  | multipleOf value => ("value", .number value)
  | greaterThan value => ("value", .number value)
  | atLeast value => ("value", .number value)
  | lessThan value => ("value", .number value)
  | atMost value => ("value", .number value)
  | minItems count => ("min", .number count)
  | maxItems count => ("max", .number count)
  | uniqueItems required => ("required", .bool required)
  | minProperties count => ("min", .number count)
  | maxProperties count => ("max", .number count)

def Constraint.kind (constraint : Constraint) : String :=
  if constraint.isOnObjects then "ObjectValidationRule" else "ValidationRule"

def Rule.encode (rule : Rule) : Value :=
  .ofFields [("kind", some (.string rule.constraint.kind)),
    ("id", some (.string rule.constraint.name)), ("loc", encodeLoc rule.loc),
    (rule.constraint.field.1, some rule.constraint.field.2)]

def ValueType.kind (type : ValueType) : String :=
  if type.isPrimitive then "PrimitiveValue" else "ComplexValue"

/-- The fields that tell what the values of a type are. -/
def Content.fields : Content → List (Str × Option Value)
  | .primitive type loc constant =>
      [("type_name", some (.string type.name)), ("loc", encodeLoc loc),
        ("constant", constant.map Constant.encode)]
  | .named name => [("type_name", some name.encode)]

def ValueType.encode (type : ValueType) : Value :=
  .ofFields (("kind", some (.string type.kind)) :: ("is_array", some (.bool type.isArray)) ::
    ("is_optional", some (.bool type.isOptional)) ::
    ("rules", some (encodeList Rule.encode type.rules)) :: type.content.fields)

/-- A description, if there is one. -/
def encodeDescription (description : Option (List Label)) : Option Value :=
  description.map (encodeList Label.encode)

def Property.encode (property : Property) : Value :=
  .ofFields [("name", some property.name.encode),
    ("description", encodeDescription property.description),
    ("value", some property.type.encode), ("loc", encodeLoc property.loc)]

def ObjectType.encode (type : ObjectType) : Value :=
  .ofFields [("name", some type.name.encode),
    ("description", encodeDescription type.description),
    ("properties", some (encodeList Property.encode type.properties)),
    ("rules", some (encodeList Rule.encode type.rules)), ("loc", encodeLoc type.loc)]

/-- A value of an enumeration. -/
def encodeMember (content : Label) : Value :=
  .object [("content", content.encode)]

def EnumType.encode (type : EnumType) : Value :=
  .ofFields [("name", some type.name.encode),
    ("description", encodeDescription type.description),
    ("members", some (encodeList encodeMember type.members)), ("loc", encodeLoc type.loc)]

def UnionType.encode (type : UnionType) : Value :=
  .ofFields [("name", some type.name.encode), ("kind", some (.string type.kind.name)),
    ("description", encodeDescription type.description),
    ("members", some (encodeList ValueType.encode type.members)),
    ("discriminator", type.discriminator.map Label.encode), ("loc", encodeLoc type.loc)]

def Violation.encode (violation : Violation) : Value :=
  .ofFields [("code", some (.string violation.code.name)),
    ("message", some (.string violation.message)),
    ("severity", some (.string violation.severity.name)),
    ("range", encodeLoc violation.range), ("source_path", some (.string violation.sourcePath))]

/-- The version of a service. If it is null, it is missing. -/
def encodeVersion : Value → Option Value
  | .scalar .null => none
  | version => some version

/-- Schemas describe data, so the list of interfaces is always empty. -/
def Service.encode (service : Service) : Value :=
  .ofFields [("title", some service.title.encode),
    ("major_version", encodeVersion service.majorVersion),
    ("source_paths", some (encodeList (fun path : String => .string path) service.sourcePaths)),
    ("loc", encodeLoc service.loc),
    ("types", some (encodeList ObjectType.encode service.types)),
    ("enums", some (encodeList EnumType.encode service.enums)),
    ("unions", some (encodeList UnionType.encode service.unions)),
    ("interfaces", some (.array []))]

def Outcome.encode (outcome : Outcome) : Value :=
  .ofFields [("service", some outcome.service.encode),
    ("violations", some (encodeList Violation.encode outcome.violations))]

end Schemata
