import Schemata.Pointer
import Schemata.Source.Location

/-!
# Failures and violations

A failure stops a conversion. Problems that leave a usable result do not; they are
recorded as violations. The wording of both is fixed by the kind of problem.
-/

namespace Schemata

open Source

/-- Why a schema is not converted. -/
inductive Failure
  | notScalar (pointer : Pointer)
  | badIndex (segment : Str) (fault : Text.NumeralFault)
  | noSegments
  | noSource
  | unboundedSource
  | tupleItems (pointer : Pointer)
  | circularReference (reference : Str) (pointer : Pointer)
  | tooDeep
deriving DecidableEq, Repr

/-- What is said of a reference that leads back to itself. -/
def circularMessage (reference : Str) : Str :=
  "Reference '" ++ reference ++ "' is circular and cannot be resolved to a type."

def Failure.message : Failure → Str
  | notScalar pointer => "Cannot parse literal at " ++ pointer
  | badIndex segment fault => fault.message segment
  | noSegments => "list index out of range"
  | noSource => "list index out of range"
  | unboundedSource => "cannot fit 'int' into an index-sized integer"
  | tupleItems pointer => "Tuple-style items are not supported (at " ++ pointer ++ ")"
  | circularReference reference pointer =>
      circularMessage reference ++ " (at " ++ pointer ++ ")"
  | tooDeep => "The schema is nested too deeply"

/-! ### Violations -/

inductive Severity
  | error
  | info
deriving DecidableEq, Repr

def Severity.name : Severity → String
  | error => "error"
  | info => "info"

inductive ViolationCode
  | unresolvedReference
  | unsupportedFeature
  | misconfiguredDiscriminator
  | circularReference
  | duplicateName
deriving DecidableEq, Repr

def ViolationCode.name : ViolationCode → String
  | unresolvedReference => "json-schema/unresolved-reference"
  | unsupportedFeature => "json-schema/unsupported-feature"
  | misconfiguredDiscriminator => "json-schema/misconfigured-discriminator"
  | circularReference => "json-schema/circular-reference"
  | duplicateName => "json-schema/duplicate-name"

/-- A problem as it is recorded. -/
structure Violation where
  code : ViolationCode
  message : Str
  severity : Severity
  range : Option LocationCode
  sourcePath : String
deriving DecidableEq, Repr

/-- What may be wrong with a schema that is converted all the same. -/
inductive Problem
  | unresolvedReference (reference : Str)
  | circularReference (reference : Str)
  | duplicateName (name : Str) (pointer owner : Pointer)
  | tupleItems
  | anyOf
  | typeList
  | enumValues
  | discriminatorMapping
  | primitiveDiscriminated
  | mixedUnion
deriving DecidableEq, Repr

namespace Problem

def code : Problem → ViolationCode
  | unresolvedReference _ => .unresolvedReference
  | circularReference _ => .circularReference
  | duplicateName _ _ _ => .duplicateName
  | primitiveDiscriminated => .misconfiguredDiscriminator
  | tupleItems | anyOf | typeList | enumValues | discriminatorMapping | mixedUnion =>
      .unsupportedFeature

def severity : Problem → Severity
  | anyOf | typeList | enumValues | discriminatorMapping | mixedUnion => .info
  | _ => .error

def message : Problem → Str
  | unresolvedReference reference => "Cannot resolve ref '" ++ reference ++ "'"
  | circularReference reference => circularMessage reference
  | duplicateName name pointer owner =>
      "Name '" ++ name ++ "' at " ++ pointer ++ " is already used by " ++ owner ++ "."
  | tupleItems => "Tuple-style items are not supported; the array will be untyped."
  | anyOf => "anyOf is not yet supported and will be untyped."
  | typeList => "Arrays of types are not yet supported and will be untyped."
  | enumValues => "Only string enums are supported; the enum values will be ignored."
  | discriminatorMapping => "Discriminator mapping is not yet supported and will have no effect."
  | primitiveDiscriminated => "Discriminators may not reference primitive types."
  | mixedUnion =>
      "Unions may not mix primitive and complex members; this member will be excluded."

/-- The record of a problem at a range of a source. -/
def violation (problem : Problem) (range : Option LocationCode) (sourcePath : String) : Violation :=
  ⟨problem.code, problem.message, problem.severity, range, sourcePath⟩

end Problem

end Schemata
