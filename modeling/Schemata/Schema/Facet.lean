import Schemata.Model.Rule
import Schemata.Schema.Keyword

/-!
# Facets

A facet is one aspect in which a schema may constrain its values. Each facet
looks at the keywords of one schema and gives at most one rule. It applies only
to schemas that declare a type of its family; keywords whose value is of an
unexpected kind impose nothing.

Facets do not see each other, so their order decides nothing but the order of the
rules.
-/

namespace Schemata.Schema

open Json

inductive Facet
  | maxLength
  | minLength
  | pattern
  | format
  | enumeration
  | multipleOf
  | lowerBound
  | upperBound
  | minItems
  | maxItems
  | uniqueItems
  | minProperties
  | maxProperties
  | additionalProperties
deriving DecidableEq, Repr

/-- The types that a facet applies to. -/
inductive Family
  | strings
  | numbers
  | arrays
  | objects
deriving DecidableEq, Repr

namespace View

/-- Whether a schema declares a type of the family. -/
def hasFamily (view : View) : Family → Except Failure Bool
  | .strings => view.hasType "string"
  | .numbers => view.hasNumericType
  | .arrays => view.hasType "array"
  | .objects => view.hasType "object"

/-- The scalar under a key, if there is one. -/
def scalarUnder? (view : View) (key : Str) : Option Scalar :=
  (view.child? key).bind scalar?

/-- The number under a key, if there is one. -/
def numberUnder? (view : View) (key : Str) : Option Number :=
  (view.scalarUnder? key).bind Scalar.number?

/-- The string under a key, if there is one and it is not empty. -/
def textUnder? (view : View) (key : Str) : Option Str :=
  ((view.scalarUnder? key).bind Scalar.string?).filter (· ≠ [])

/-- A rule that comes from the member under a key. -/
def ruleUnder (view : View) (key : Str) (constraint : Constraint) : Rule :=
  ⟨constraint, view.memberCode? key⟩

/-- A rule for the number under a key. -/
def numberRule? (view : View) (key : Str) (constraint : Number → Constraint) :
    Option Rule :=
  (view.numberUnder? key).map fun number => view.ruleUnder key (constraint number)

/-- A rule for the string under a key. -/
def textRule? (view : View) (key : Str) (constraint : Str → Constraint) :
    Option Rule :=
  (view.textUnder? key).map fun text => view.ruleUnder key (constraint text)

/-- A rule for the strings that an enumeration lists. -/
def enumRule? (view : View) : Option Rule :=
  match view.enum? with
  | none => none
  | some members =>
      let values := members.filterMap View.string?
      if values.isEmpty then none else some (view.ruleUnder "enum" (.oneOf values))

/-- A lower or upper bound. A number under the exclusive keyword is a strict bound
of its own, and the tighter of two bounds counts; `true` there makes the other
bound strict. `tighter a b` says that bound `a` is at least as tight as `b`. -/
def boundRule? (view : View) (key exclusiveKey : Str) (tighter : Number → Number → Bool)
    (strict lax : Number → Constraint) : Option Rule :=
  let bound := view.numberUnder? key
  let exclusive := view.scalarUnder? exclusiveKey
  match (exclusive.bind Scalar.number?).filter fun number => bound.all (tighter number) with
  | some number => some (view.ruleUnder exclusiveKey (strict number))
  | none =>
      bound.map fun number =>
        view.ruleUnder key
          (if exclusive = some (.bool true) then strict number else lax number)

end View

namespace Facet

def family : Facet → Family
  | maxLength | minLength | pattern | format | enumeration => .strings
  | multipleOf | lowerBound | upperBound => .numbers
  | minItems | maxItems | uniqueItems => .arrays
  | minProperties | maxProperties | additionalProperties => .objects

/-- The rule that a schema of the right family is given. No rule forbids
properties, so `additionalProperties` gives none. -/
def read? (view : View) : Facet → Option Rule
  | maxLength => view.numberRule? "maxLength" .maxLength
  | minLength => view.numberRule? "minLength" .minLength
  | pattern => view.textRule? "pattern" .pattern
  | format => view.textRule? "format" .format
  | enumeration => view.enumRule?
  | multipleOf => view.numberRule? "multipleOf" .multipleOf
  | lowerBound =>
      view.boundRule? "minimum" "exclusiveMinimum" (fun a b => b.atMost a) .greaterThan .atLeast
  | upperBound =>
      view.boundRule? "maximum" "exclusiveMaximum" (fun a b => a.atMost b) .lessThan .atMost
  | minItems => view.numberRule? "minItems" .minItems
  | maxItems => view.numberRule? "maxItems" .maxItems
  | uniqueItems =>
      if view.scalarUnder? "uniqueItems" = some (.bool true) then
        some (view.ruleUnder "uniqueItems" (.uniqueItems true))
      else none
  | minProperties => view.numberRule? "minProperties" .minProperties
  | maxProperties => view.numberRule? "maxProperties" .maxProperties
  | additionalProperties => none

/-- The rule that a schema is given. -/
def rule? (facet : Facet) (view : View) : Except Failure (Option Rule) :=
  if facet = additionalProperties then .ok none
  else (view.hasFamily facet.family).map fun applies =>
    if applies then facet.read? view else none

/-- The facets of single values. -/
def ofValues : List Facet :=
  [maxLength, minLength, pattern, format, enumeration, multipleOf, lowerBound, upperBound,
    minItems, maxItems, uniqueItems]

/-- The facets of whole objects. -/
def ofObjects : List Facet :=
  [minProperties, maxProperties, additionalProperties]

/-- The rules that a schema is given by some facets, in their order. -/
def rules (view : View) : List Facet → Except Failure (List Rule)
  | [] => .ok []
  | facet :: rest => do
      let rule ← facet.rule? view
      let others ← rules view rest
      return rule.toList ++ others

end Facet

namespace View

/-- The rules on the values of a schema. -/
def valueRules (view : View) : Except Failure (List Rule) :=
  Facet.rules view Facet.ofValues

/-- The rules on the objects of a schema. -/
def objectRules (view : View) : Except Failure (List Rule) :=
  Facet.rules view Facet.ofObjects

end View

end Schemata.Schema
