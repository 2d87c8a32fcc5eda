import Mathlib.Data.List.Forall2
import Schemata.Model.Encoding

/-!
# What the encoding of an outcome tells

Two outcomes that are encoded as the same JSON value, the order of members aside, differ in
nothing but the pointers that their entries were made from. Every part of an outcome is told by
its encoding, so this is shown from the bottom up: an object tells its fields one by one, since
no two fields of one part have the same name.
-/

namespace Schemata

open Json Source

namespace Json.Value

/-! ### Equality of values -/

/-- The values are the same, the order of members aside. The first member of a name counts. -/
inductive Alike : Value → Value → Prop
  | scalar (value : Scalar) : Alike (scalar value) (scalar value)
  | nan : Alike nan nan
  | array {items others : List Value} (h : List.Forall₂ Alike items others) :
      Alike (array items) (array others)
  | object {members others : List (Str × Value)}
      (h : ∀ name, Option.Rel Alike (members.lookup name) (others.lookup name)) :
      Alike (object members) (object others)

mutual

theorem Alike.refl : ∀ value : Value, value.Alike value
  | .scalar value => .scalar value
  | .nan => .nan
  | .array items => .array (forall₂_alike_refl items)
  | .object members => .object (rel_alike_refl members)

theorem forall₂_alike_refl : ∀ items : List Value, List.Forall₂ Alike items items
  | [] => .nil
  | item :: rest => .cons (Alike.refl item) (forall₂_alike_refl rest)

theorem rel_alike_refl : ∀ (members : List (Str × Value)) (name : Str),
    Option.Rel Alike (members.lookup name) (members.lookup name)
  | [], _ => .none
  | (key, value) :: rest, name => by
      rw [List.lookup_cons]
      split
      · exact .some (Alike.refl value)
      · exact rel_alike_refl rest name

end

@[simp] theorem alike_scalar {value other : Scalar} :
    (scalar value).Alike (scalar other) ↔ value = other := by
  constructor
  · rintro ⟨⟩
    rfl
  · rintro rfl
    exact .scalar value

@[simp] theorem alike_nan {value : Value} : nan.Alike value ↔ value = nan := by
  constructor
  · rintro ⟨⟩
    rfl
  · rintro rfl
    exact .nan

@[simp] theorem alike_nan_right {value : Value} : value.Alike nan ↔ value = nan := by
  constructor
  · rintro ⟨⟩
    rfl
  · rintro rfl
    exact .nan

@[simp] theorem alike_bool {value other : Bool} :
    (bool value).Alike (bool other) ↔ value = other := by
  simp [bool]

@[simp] theorem alike_number {value other : Number} :
    (number value).Alike (number other) ↔ value = other := by
  simp [number]

@[simp] theorem alike_int {value other : Int} : (int value).Alike (int other) ↔ value = other := by
  simp [int]

@[simp] theorem alike_string {text other : Str} :
    (string text).Alike (string other) ↔ text = other := by
  simp [string]

@[simp] theorem alike_array {items others : List Value} :
    (array items).Alike (array others) ↔ List.Forall₂ Alike items others := by
  constructor
  · rintro ⟨⟩
    assumption
  · exact .array

/-! ### Fields -/

/-- What an object has under a name. -/
def field? (name : Str) : Value → Option Value
  | object members => members.lookup name
  | _ => none

variable {fields others : List (Str × Option Value)} {name : Str}
  {value? other? : Option Value}

theorem alike_ofFields : (ofFields fields).Alike (ofFields others) ↔
    ∀ name, Option.Rel Alike ((ofFields fields).field? name) ((ofFields others).field? name) := by
  constructor
  · rintro ⟨⟩
    assumption
  · exact .object

theorem field?_cons (key : Str) :
    (ofFields ((name, value?) :: fields)).field? key =
      if key = name then value?.or ((ofFields fields).field? key)
      else (ofFields fields).field? key := by
  cases value? with
  | none => simp [ofFields]
  | some value =>
      simp only [ofFields, field?, List.filterMap_cons, Option.map_some, List.lookup_cons,
        Option.some_or]
      split <;> simp_all

theorem field?_eq_none (hname : name ∉ fields.map Prod.fst) :
    (ofFields fields).field? name = none := by
  induction fields with
  | nil => rfl
  | cons field rest ih =>
      obtain ⟨hne, hrest⟩ := not_or.mp (List.mem_cons.not.mp hname)
      rw [field?_cons, if_neg hne, ih hrest]

@[simp] theorem alike_ofFields_nil : (ofFields []).Alike (ofFields []) :=
  .refl _

/-- Objects are the same if they have the same under the first name, which is a new one, and are
the same apart from it. -/
@[simp] theorem alike_ofFields_cons (hname : name ∉ fields.map Prod.fst)
    (hother : name ∉ others.map Prod.fst) :
    (ofFields ((name, value?) :: fields)).Alike (ofFields ((name, other?) :: others)) ↔
      Option.Rel Alike value? other? ∧ (ofFields fields).Alike (ofFields others) := by
  simp only [alike_ofFields, field?_cons]
  constructor
  · intro h
    have hfirst := h name
    rw [if_pos rfl, if_pos rfl, field?_eq_none hname, field?_eq_none hother, Option.or_none,
      Option.or_none] at hfirst
    refine ⟨hfirst, fun key => ?_⟩
    by_cases hkey : key = name
    · rw [hkey, field?_eq_none hname, field?_eq_none hother]
      exact .none
    · simpa [hkey] using h key
  · rintro ⟨hfirst, hrest⟩ key
    by_cases hkey : key = name
    · rw [if_pos hkey, if_pos hkey, hkey, field?_eq_none hname, field?_eq_none hother,
        Option.or_none, Option.or_none]
      exact hfirst
    · rw [if_neg hkey, if_neg hkey]
      exact hrest key

end Json.Value

/-! ### Lists and missing parts -/

section Parts

variable {α β : Type} {encode : α → Value} {list others : List α}

theorem alike_encodeList_iff : (encodeList encode list).Alike (encodeList encode others) ↔
    List.Forall₂ (fun item other => (encode item).Alike (encode other)) list others := by
  rw [encodeList, encodeList, Value.alike_array, List.forall₂_map_left_iff,
    List.forall₂_map_right_iff]

/-- The encoding of a list tells what the encoding of each item tells of that. -/
theorem alike_encodeList_map {shown : α → β}
    (hencode : ∀ item other, (encode item).Alike (encode other) ↔ shown item = shown other) :
    (encodeList encode list).Alike (encodeList encode others) ↔
      list.map shown = others.map shown := by
  rw [← List.forall₂_eq_eq_eq, List.forall₂_map_left_iff, List.forall₂_map_right_iff,
    alike_encodeList_iff]
  simp only [hencode]

theorem alike_encodeList
    (hencode : ∀ item other, (encode item).Alike (encode other) ↔ item = other) :
    (encodeList encode list).Alike (encodeList encode others) ↔ list = others := by
  simp only [alike_encodeList_iff, hencode, List.forall₂_eq_eq_eq]

theorem rel_encode (hencode : ∀ part other, (encode part).Alike (encode other) ↔ part = other)
    {part? other? : Option α} :
    Option.Rel Value.Alike (part?.map encode) (other?.map encode) ↔ part? = other? := by
  cases part? <;> cases other? <;> simp [hencode]

end Parts

@[simp] theorem rel_encodeLoc {loc other : Option LocationCode} :
    Option.Rel Value.Alike (encodeLoc loc) (encodeLoc other) ↔ loc = other :=
  rel_encode fun _ _ => Value.alike_string.trans Str.ofString_inj

@[simp] theorem alike_label {label other : Label} :
    label.encode.Alike other.encode ↔ label = other := by
  obtain ⟨value, loc⟩ := label
  obtain ⟨otherValue, otherLoc⟩ := other
  simp [Label.encode]

@[simp] theorem rel_encodeDescription {description other : Option (List Label)} :
    Option.Rel Value.Alike (encodeDescription description) (encodeDescription other) ↔
      description = other :=
  rel_encode fun _ _ => alike_encodeList fun _ _ => alike_label

/-! ### Rules -/

@[simp] theorem alike_rule {rule other : Rule} :
    rule.encode.Alike other.encode ↔ rule = other := by
  obtain ⟨constraint, loc⟩ := rule
  obtain ⟨otherConstraint, otherLoc⟩ := other
  -- Rules of different constraints have different names, whatever fields they have.
  cases constraint <;> cases otherConstraint <;>
    simp [Rule.encode, Constraint.kind, Constraint.isOnObjects, Constraint.name, Constraint.field,
      alike_encodeList, and_comm]

/-! ### Types of values -/

theorem Primitive.name_injective : Function.Injective name := by
  intro primitive other h
  cases primitive <;> cases other <;> first | rfl | simp [name] at h

@[simp] theorem alike_constantValue {value other : ConstantValue} :
    value.encode.Alike other.encode ↔ value = other := by
  cases value <;> cases other <;>
    simp [ConstantValue.encode, Value.bool, Value.number, Value.string]

@[simp] theorem alike_constant {constant other : Constant} :
    constant.encode.Alike other.encode ↔ constant = other := by
  obtain ⟨value, loc⟩ := constant
  obtain ⟨otherValue, otherLoc⟩ := other
  have hkind : value = otherValue → value.kind = otherValue.kind := congrArg ConstantValue.kind
  simpa [Constant.encode] using fun h _ => hkind h

@[simp] theorem alike_valueType {type other : ValueType} :
    type.encode.Alike other.encode ↔ type = other := by
  obtain ⟨isArray, isOptional, rules, content⟩ := type
  obtain ⟨otherIsArray, otherIsOptional, otherRules, otherContent⟩ := other
  cases content <;> cases otherContent <;>
    simp [ValueType.encode, Content.fields, ValueType.kind, ValueType.isPrimitive, alike_encodeList,
      rel_encode, Primitive.name_injective.eq_iff]

/-! ### Entries -/

@[simp] theorem alike_property {property other : Property} :
    property.encode.Alike other.encode ↔ property = other := by
  obtain ⟨name, description, type, loc⟩ := property
  obtain ⟨otherName, otherDescription, otherType, otherLoc⟩ := other
  simp [Property.encode]

@[simp] theorem alike_encodeMember {content other : Label} :
    (encodeMember content).Alike (encodeMember other) ↔ content = other := by
  have hfields : ∀ content : Label,
      encodeMember content = .ofFields [("content", some content.encode)] := fun _ => rfl
  simp [hfields]

theorem UnionKind.name_injective : Function.Injective name := by
  intro kind other h
  cases kind <;> cases other <;> first | rfl | simp [name] at h

/-- An object type without the pointer to its schema. -/
def ObjectType.unsourced (type : ObjectType) : ObjectType :=
  { type with source := "" }

/-- An enumeration without the pointer to its schema. -/
def EnumType.unsourced (type : EnumType) : EnumType :=
  { type with source := "" }

/-- A union without the pointer to its schema. -/
def UnionType.unsourced (type : UnionType) : UnionType :=
  { type with source := "" }

theorem alike_objectType {type other : ObjectType} :
    type.encode.Alike other.encode ↔ type.unsourced = other.unsourced := by
  obtain ⟨name, description, properties, rules, loc, source⟩ := type
  obtain ⟨otherName, otherDescription, otherProperties, otherRules, otherLoc, otherSource⟩ := other
  simp [ObjectType.encode, ObjectType.unsourced, alike_encodeList]

theorem alike_enumType {type other : EnumType} :
    type.encode.Alike other.encode ↔ type.unsourced = other.unsourced := by
  obtain ⟨name, description, members, loc, source⟩ := type
  obtain ⟨otherName, otherDescription, otherMembers, otherLoc, otherSource⟩ := other
  simp [EnumType.encode, EnumType.unsourced, alike_encodeList]

theorem alike_unionType {type other : UnionType} :
    type.encode.Alike other.encode ↔ type.unsourced = other.unsourced := by
  obtain ⟨name, kind, description, members, discriminator, loc, source⟩ := type
  obtain ⟨otherName, otherKind, otherDescription, otherMembers, otherDiscriminator, otherLoc,
    otherSource⟩ := other
  simp [UnionType.encode, UnionType.unsourced, alike_encodeList, rel_encode,
    UnionKind.name_injective.eq_iff]

/-! ### Outcomes -/

theorem ViolationCode.name_injective : Function.Injective name := by
  intro code other h
  cases code <;> cases other <;> first | rfl | simp [name] at h

theorem Severity.name_injective : Function.Injective name := by
  intro severity other h
  cases severity <;> cases other <;> first | rfl | simp [name] at h

@[simp] theorem alike_violation {violation other : Violation} :
    violation.encode.Alike other.encode ↔ violation = other := by
  obtain ⟨code, message, severity, range, sourcePath⟩ := violation
  obtain ⟨otherCode, otherMessage, otherSeverity, otherRange, otherSourcePath⟩ := other
  simp [Violation.encode, ViolationCode.name_injective.eq_iff, Severity.name_injective.eq_iff]

/-- A converted document without its version and the pointers that its entries were made from. -/
def Service.unsourced (service : Service) : Service :=
  { service with
    majorVersion := .null
    types := service.types.map .unsourced
    enums := service.enums.map .unsourced
    unions := service.unions.map .unsourced }

/-- An outcome without its version and the pointers that its entries were made from. -/
def Outcome.unsourced (outcome : Outcome) : Outcome :=
  { outcome with service := outcome.service.unsourced }

theorem encodeVersion_of_ne {version : Value} (h : version ≠ .null) :
    encodeVersion version = some version := by
  unfold encodeVersion
  split
  · exact absurd rfl h
  · rfl

@[simp] theorem rel_encodeVersion {version other : Value} :
    Option.Rel Value.Alike (encodeVersion version) (encodeVersion other) ↔
      version.Alike other := by
  by_cases hversion : version = .null
  · subst hversion
    by_cases hother : other = .null
    · subst hother
      exact iff_of_true .none (.refl _)
    · rw [encodeVersion_of_ne hother]
      refine iff_of_false nofun fun h => hother ?_
      cases h
      rfl
  · rw [encodeVersion_of_ne hversion]
    by_cases hother : other = .null
    · subst hother
      refine iff_of_false nofun fun h => hversion ?_
      cases h
      rfl
    · rw [encodeVersion_of_ne hother, Option.rel_some_some]

theorem alike_service {service other : Service} :
    service.encode.Alike other.encode ↔
      service.majorVersion.Alike other.majorVersion ∧ service.unsourced = other.unsourced := by
  obtain ⟨title, majorVersion, sourcePaths, loc, types, enums, unions⟩ := service
  obtain ⟨otherTitle, otherMajorVersion, otherSourcePaths, otherLoc, otherTypes, otherEnums,
    otherUnions⟩ := other
  simp [Service.encode, Service.unsourced, alike_encodeList,
    alike_encodeList_map fun _ _ => alike_objectType,
    alike_encodeList_map fun _ _ => alike_enumType,
    alike_encodeList_map fun _ _ => alike_unionType, and_left_comm]

theorem alike_outcome {outcome other : Outcome} :
    outcome.encode.Alike other.encode ↔
      outcome.service.majorVersion.Alike other.service.majorVersion ∧
        outcome.unsourced = other.unsourced := by
  obtain ⟨service, violations⟩ := outcome
  obtain ⟨otherService, otherViolations⟩ := other
  simp [Outcome.encode, Outcome.unsourced, alike_encodeList, alike_service, and_assoc]

/-- The encoding of an outcome tells everything but the pointers that its entries were made from,
even if the order of members does not count, which may only matter for a version that is an object.
So do those of its parts: a missing description is told from an empty one, a primitive type from a
named one, and every kind of rule from the others. -/
theorem encoding_tells_apart :
    (∀ outcome other : Outcome,
      outcome.encode.Alike other.encode ↔
        outcome.service.majorVersion.Alike other.service.majorVersion ∧
          outcome.unsourced = other.unsourced) ∧
    (∀ description other : Option (List Label),
      Option.Rel Value.Alike (encodeDescription description) (encodeDescription other) ↔
        description = other) ∧
    (∀ type other : ValueType, type.encode.Alike other.encode ↔ type = other) ∧
    ∀ rule other : Rule, rule.encode.Alike other.encode ↔ rule = other :=
  ⟨fun _ _ => alike_outcome, fun _ _ => rel_encodeDescription, fun _ _ => alike_valueType,
    fun _ _ => alike_rule⟩

end Schemata
