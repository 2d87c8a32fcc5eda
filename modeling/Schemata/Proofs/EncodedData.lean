import Schemata.Proofs.CitedData
import Schemata.Proofs.WrittenValues

/-!
# Encodings that can be read

An encoding adds names of fields and of kinds to the data of what it encodes, and nothing else. So
if all numbers among the data have texts and no string holds a pair of surrogates, then that is
true of the encoding.
-/

namespace Schemata

open Json Source

/-- A number that has some text, or a string without pairs of surrogates, or a range. -/
def Datum.Readable (limit : Nat) : Datum → Prop
  | range _ => True
  | text value => value.PairFree
  | number value => HasText limit value

def AllReadable (limit : Nat) (data : List Datum) : Prop :=
  ∀ datum ∈ data, datum.Readable limit

/-- All parts of a value can be read, if there is one. -/
def FieldReadable (limit : Nat) (value? : Option Value) : Prop :=
  ∀ value ∈ value?, value.AllReadable limit

section Encodings

variable {limit : Nat}

/-! ### Lists of data -/

@[simp] theorem allReadable_cons {datum : Datum} {data : List Datum} :
    AllReadable limit (datum :: data) ↔ datum.Readable limit ∧ AllReadable limit data :=
  List.forall_mem_cons

@[simp] theorem allReadable_append {first second : List Datum} :
    AllReadable limit (first ++ second) ↔ AllReadable limit first ∧ AllReadable limit second :=
  List.forall_mem_append

@[simp] theorem allReadable_flatMap {α : Type} {items : List α} {data : α → List Datum} :
    AllReadable limit (items.flatMap data) ↔ ∀ item ∈ items, AllReadable limit (data item) :=
  List.forall_mem_flatMap

/-! ### Values -/

@[simp] theorem allReadable_encodeList {α : Type} {encode : α → Value} {list : List α} :
    (encodeList encode list).AllReadable limit ↔
      ∀ item ∈ list, (encode item).AllReadable limit := by
  rw [encodeList, allReadable_array, List.forall_mem_map]

@[simp] theorem fieldReadable_none : FieldReadable limit none :=
  nofun

@[simp] theorem fieldReadable_some {value : Value} :
    FieldReadable limit (some value) ↔ value.AllReadable limit := by
  simp [FieldReadable]

@[simp] theorem fieldReadable_map {α : Type} {encode : α → Value} {part : Option α} :
    FieldReadable limit (part.map encode) ↔ ∀ found ∈ part, (encode found).AllReadable limit := by
  cases part <;> simp

@[simp] theorem fieldReadable_encodeLoc (loc : Option LocationCode) :
    FieldReadable limit (encodeLoc loc) := by
  simp [encodeLoc]

@[simp] theorem allReadable_ofFields_nil : (Value.ofFields []).AllReadable limit :=
  List.forall_mem_nil _

@[simp] theorem allReadable_ofFields_cons {name : Str} {value? : Option Value}
    {fields : List (Str × Option Value)} (hname : name.PairFree) :
    (Value.ofFields ((name, value?) :: fields)).AllReadable limit ↔
      FieldReadable limit value? ∧ (Value.ofFields fields).AllReadable limit := by
  cases value? with
  | none => simp [Value.ofFields]
  | some value =>
      have hleaf : (Value.string name).Readable limit := hname
      rw [fieldReadable_some]
      exact everyMember_cons.trans (and_iff_right hleaf)

/-! ### Parts of an outcome -/

theorem readable_label {label : Label} (h : AllReadable limit label.data) :
    label.encode.AllReadable limit := by
  have hvalue : label.value.PairFree := (allReadable_cons.mp h).1
  simpa [Label.encode] using hvalue

theorem readable_description {description : Option (List Label)}
    (h : AllReadable limit (descriptionData description)) :
    FieldReadable limit (encodeDescription description) := by
  cases description with
  | none => exact fieldReadable_none
  | some labels =>
      rw [descriptionData, allReadable_flatMap] at h
      simpa [encodeDescription] using fun label hlabel => readable_label (h label hlabel)

theorem readable_constantValue {value : ConstantValue} (h : AllReadable limit value.data) :
    value.encode.AllReadable limit := by
  cases value with
  | bool value => exact allReadable_bool value
  | number value => exact allReadable_number.mpr (allReadable_cons.mp h).1
  | string value => exact allReadable_string.mpr (allReadable_cons.mp h).1

theorem readable_constant {constant : Constant} (h : AllReadable limit constant.data) :
    constant.encode.AllReadable limit := by
  simpa [Constant.encode] using readable_constantValue (allReadable_append.mp h).1

theorem readable_field {constraint : Constraint} (h : AllReadable limit constraint.data) :
    constraint.field.1.PairFree ∧ constraint.field.2.AllReadable limit := by
  cases constraint with
  | oneOf values =>
      refine ⟨Str.pairFree_ofString _, allReadable_encodeList.mpr fun text htext => ?_⟩
      exact allReadable_string.mpr (h (.text text) (List.mem_map_of_mem htext))
  | uniqueItems required => exact ⟨Str.pairFree_ofString _, allReadable_bool required⟩
  | pattern text | format text =>
      exact ⟨Str.pairFree_ofString _, allReadable_string.mpr (allReadable_cons.mp h).1⟩
  | _ => exact ⟨Str.pairFree_ofString _, allReadable_number.mpr (allReadable_cons.mp h).1⟩

theorem readable_rule {rule : Rule} (h : AllReadable limit rule.data) :
    rule.encode.AllReadable limit := by
  obtain ⟨hname, hvalue⟩ := readable_field (allReadable_append.mp h).1
  simpa [Rule.encode, hname] using hvalue

theorem readable_type {type : ValueType} (h : AllReadable limit type.data) :
    type.encode.AllReadable limit := by
  obtain ⟨isArray, isOptional, rules, content⟩ := type
  obtain ⟨hrules, hcontent⟩ := allReadable_append.mp h
  rw [allReadable_flatMap] at hrules
  have hencoded : ∀ rule ∈ rules, rule.encode.AllReadable limit :=
    fun rule hrule => readable_rule (hrules rule hrule)
  cases content with
  | named name =>
      simpa [ValueType.encode, Content.fields] using ⟨hencoded, readable_label hcontent⟩
  | primitive primitive loc constant =>
      have hconstant : ∀ found ∈ constant, found.encode.AllReadable limit := by
        rintro found rfl
        exact readable_constant (by simpa using (allReadable_append.mp hcontent).2)
      simpa [ValueType.encode, Content.fields] using ⟨hencoded, hconstant⟩

theorem readable_property {property : Property} (h : AllReadable limit property.data) :
    property.encode.AllReadable limit := by
  simp only [Property.data, allReadable_append] at h
  obtain ⟨⟨⟨hname, hdescription⟩, htype⟩, -⟩ := h
  simpa [Property.encode] using
    ⟨readable_label hname, readable_description hdescription, readable_type htype⟩

theorem readable_objectType {type : ObjectType} (h : AllReadable limit type.data) :
    type.encode.AllReadable limit := by
  simp only [ObjectType.data, List.cons_append, allReadable_cons, allReadable_append,
    allReadable_flatMap] at h
  obtain ⟨-, ⟨⟨⟨hname, hdescription⟩, hproperties⟩, hrules⟩, -⟩ := h
  simpa [ObjectType.encode] using
    ⟨readable_label hname, readable_description hdescription,
      fun property hproperty => readable_property (hproperties property hproperty),
      fun rule hrule => readable_rule (hrules rule hrule)⟩

theorem readable_enumType {type : EnumType} (h : AllReadable limit type.data) :
    type.encode.AllReadable limit := by
  simp only [EnumType.data, List.cons_append, allReadable_cons, allReadable_append,
    allReadable_flatMap] at h
  obtain ⟨-, ⟨⟨hname, hdescription⟩, hmembers⟩, -⟩ := h
  have hmember : ∀ member ∈ type.members, (encodeMember member).AllReadable limit := by
    intro member hmember
    exact allReadable_object.mpr (List.forall_mem_singleton.mpr
      ⟨Str.pairFree_ofString _, readable_label (hmembers member hmember)⟩)
  simpa [EnumType.encode] using
    ⟨readable_label hname, readable_description hdescription, hmember⟩

theorem readable_unionType {type : UnionType} (h : AllReadable limit type.data) :
    type.encode.AllReadable limit := by
  simp only [UnionType.data, List.cons_append, allReadable_cons, allReadable_append,
    allReadable_flatMap, Option.mem_toList] at h
  obtain ⟨-, ⟨⟨⟨hname, hdescription⟩, hmembers⟩, hdiscriminator⟩, -⟩ := h
  simpa [UnionType.encode] using
    ⟨readable_label hname, readable_description hdescription,
      fun member hmember => readable_type (hmembers member hmember),
      fun label hlabel => readable_label (hdiscriminator label hlabel)⟩

theorem readable_violation {violation : Violation} (h : AllReadable limit violation.data) :
    violation.encode.AllReadable limit := by
  have hmessage : violation.message.PairFree := (allReadable_cons.mp h).1
  simpa [Violation.encode] using hmessage

theorem readable_version {version : Value} (h : version.AllReadable limit) :
    FieldReadable limit (encodeVersion version) := by
  unfold encodeVersion
  split
  · exact fieldReadable_none
  · exact fieldReadable_some.mpr h

/-- An outcome is encoded with its data and its version. -/
theorem readable_outcome {outcome : Outcome} (h : AllReadable limit outcome.data)
    (hversion : outcome.service.majorVersion.AllReadable limit) :
    outcome.encode.AllReadable limit := by
  simp only [Outcome.data, Service.data, allReadable_append, allReadable_flatMap] at h
  obtain ⟨⟨⟨⟨⟨htitle, -⟩, htypes⟩, henums⟩, hunions⟩, hviolations⟩ := h
  have hinterfaces : (Value.array []).AllReadable limit := allReadable_array.mpr nofun
  have hservice : outcome.service.encode.AllReadable limit := by
    simpa [Service.encode] using
      ⟨readable_label htitle, readable_version hversion,
        fun type htype => readable_objectType (htypes type htype),
        fun type htype => readable_enumType (henums type htype),
        fun type htype => readable_unionType (hunions type htype), hinterfaces⟩
  simpa [Outcome.encode] using
    ⟨hservice, fun violation hviolation => readable_violation (hviolations violation hviolation)⟩

end Encodings

end Schemata
