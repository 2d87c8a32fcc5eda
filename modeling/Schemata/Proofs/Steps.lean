import Schemata.Analysis.Step

/-!
# From schema to schema

The ways in which the conversion of one schema calls for that of another: a
reference asks for its target, an array for its items, a named schema for its parts,
and any schema for the definitions that it holds. None of them depends on the state
of a conversion.

The steps that lead from a reference to its target are given by equations. What is
proved about all steps is proved about the parts that the equations name.
-/

namespace Schemata

section Results

variable {ε α β : Type} {result : Except ε α} {value : β}

theorem bind_eq_ok {next : α → Except ε β} :
    result >>= next = .ok value ↔ ∃ found, result = .ok found ∧ next found = .ok value := by
  cases result with
  | ok found => exact ⟨fun h => ⟨found, rfl, h⟩, fun ⟨_, heq, h⟩ => (Except.ok.inj heq) ▸ h⟩
  | error => exact ⟨nofun, fun ⟨_, heq, _⟩ => absurd heq nofun⟩

theorem bind_eq_error {next : α → Except ε β} {error : ε} :
    result >>= next = .error error ↔
      result = .error error ∨ ∃ found, result = .ok found ∧ next found = .error error := by
  cases result with
  | ok found =>
      refine ⟨fun h => .inr ⟨found, rfl, h⟩, fun h => ?_⟩
      rcases h with h | ⟨_, heq, h⟩
      · cases h
      · exact (Except.ok.inj heq) ▸ h
  | error other =>
      refine ⟨fun h => .inl (Except.error.inj h ▸ rfl), fun h => ?_⟩
      rcases h with h | ⟨_, heq, _⟩
      · rw [Except.error.inj h]
        rfl
      · cases heq

theorem map_eq_ok {change : α → β} :
    result.map change = .ok value ↔ ∃ found, result = .ok found ∧ change found = value := by
  cases result with
  | ok found =>
      refine ⟨fun h => ⟨found, rfl, Except.ok.inj h⟩, fun ⟨_, heq, h⟩ => ?_⟩
      rw [← h, ← Except.ok.inj heq]
      rfl
  | error => exact ⟨nofun, fun ⟨_, heq, _⟩ => absurd heq nofun⟩

theorem map_eq_error {change : α → β} {error : ε} :
    result.map change = .error error ↔ result = .error error := by
  cases result <;> simp [Except.map]

theorem mapError_eq_ok {ε' : Type} {result : Except ε β} {change : ε → ε'} :
    result.mapError change = .ok value ↔ result = .ok value := by
  cases result with
  | error failure => exact ⟨nofun, nofun⟩
  | ok found => exact ⟨fun h => congrArg _ (Except.ok.inj h), fun h => congrArg _ (Except.ok.inj h)⟩

end Results

end Schemata

namespace Schemata.Analysis

open Schema Source

section Shapes

variable {view : View}

theorem shape_of_reference {reference : View} (h : view.reference? = some reference) :
    view.shape = .ok .reference := by
  simp [View.shape, h]

theorem conversionShape_of_shape {shape : Shape} (h : view.shape = .ok shape)
    (hshape : shape ≠ .enumeration) : view.conversionShape = .ok shape := by
  cases shape with
  | enumeration => exact absurd rfl hshape
  | _ => simp only [View.conversionShape, h]; rfl

theorem conversionShape_of_reference {reference : View}
    (h : view.reference? = some reference) : view.conversionShape = .ok .reference :=
  conversionShape_of_shape (shape_of_reference h) nofun

theorem conversionShape_of_stringEnum (h : view.shape = .ok .enumeration)
    (hstring : view.isStringEnum = .ok true) : view.conversionShape = .ok .enumeration := by
  simp only [View.conversionShape, h, bind, Except.bind, hstring]
  rfl

theorem conversionShape_of_otherEnum (h : view.shape = .ok .enumeration)
    (hstring : view.isStringEnum = .ok false) : view.conversionShape = view.shapeOfType := by
  simp only [View.conversionShape, h, bind, Except.bind, hstring]
  rfl

theorem shapeOfType_cases {shape : Shape} (h : view.shapeOfType = .ok shape) :
    shape = .object ∨ shape = .array ∨ shape = .primitive := by
  obtain ⟨isObject, -, h⟩ := bind_eq_ok.mp h
  cases isObject with
  | true => exact .inl (Except.ok.inj h).symm
  | false =>
      obtain ⟨isArray, -, h⟩ := bind_eq_ok.mp h
      cases isArray with
      | true => exact .inr (.inl (Except.ok.inj h).symm)
      | false => exact .inr (.inr (Except.ok.inj h).symm)

/-- Only a schema with a reference has the shape of one. -/
theorem reference?_of_shape (h : view.shape = .ok .reference) : view.reference? ≠ none := by
  intro hnone
  simp only [View.shape, hnone, Option.isSome_none, Bool.false_eq_true, if_false] at h
  repeat' split at h
  all_goals first
    | exact absurd (shapeOfType_cases h) (by simp)
    | simp at h

end Shapes

/-- A schema becomes an entry, if its name is free. -/
def Named (view : View) : Prop :=
  ∃ shape, view.conversionShape = .ok shape ∧ shape.isNamed = true

/-- A schema can have no entry. -/
def Unnamed (view : View) : Prop :=
  ∃ shape, view.conversionShape = .ok shape ∧ shape.isNamed = false

theorem Unnamed.not_named {view : View} (h : Unnamed view) : ¬ Named view := by
  obtain ⟨shape, hshape, hunnamed⟩ := h
  rintro ⟨other, hother, hnamed⟩
  obtain rfl := Except.ok.inj (hshape.symm.trans hother)
  exact absurd (hunnamed.symm.trans hnamed) nofun

/-- The reference of a schema leads to another schema. -/
def RefersTo (setting : Setting) (view target : View) : Prop :=
  ∃ reference pointer, view.reference? = some reference ∧
    reference.string? = some pointer ∧ resolve setting.document pointer = .ok (some target)

/-- A schema has a reference that leads nowhere. -/
def Dangles (setting : Setting) (view reference : View) : Prop :=
  view.reference? = some reference ∧ ∀ target, ¬ RefersTo setting view target

theorem Dangles.conversionShape {setting : Setting} {view reference : View}
    (h : Dangles setting view reference) : view.conversionShape = .ok .reference :=
  conversionShape_of_reference h.1

section References

variable {setting : Setting} {view reference : View}

/-- The schema that a reference leads to, before it is reported that there is none. -/
def targetOf (setting : Setting) (reference : View) : Except Failure (Option View) :=
  match reference.string? with
  | some pointer => resolve setting.document pointer
  | none => .ok none

/-- Only after its target is known is a reference reported. -/
theorem dereference_eq (setting : Setting) (reference : View) :
    dereference setting reference = (do
      let target ← targetOf setting reference
      if target.isNone then
        Action.report setting (.unresolvedReference (referenceText reference))
          (some reference.code)
      return target) := by
  unfold dereference targetOf
  cases reference.string? <;> rfl

/-- The target of a reference is what the schema with that reference refers to. -/
theorem eq_some_iff_refersTo {found : Option View} (hreference : view.reference? = some reference)
    (hfound : targetOf setting reference = .ok found) (target : View) :
    found = some target ↔ RefersTo setting view target := by
  constructor
  · rintro rfl
    cases hstring : reference.string? with
    | none => simp [targetOf, hstring] at hfound
    | some pointer =>
        exact ⟨reference, pointer, hreference, hstring, by simpa [targetOf, hstring] using hfound⟩
  · rintro ⟨other, pointer, hother, hpointer, htarget⟩
    obtain rfl := Option.some.inj (hreference.symm.trans hother)
    rw [targetOf, hpointer] at hfound
    exact Except.ok.inj (hfound.symm.trans htarget)

/-- A member of an intersection stands for itself, or for what it refers to. -/
def StandsFor (setting : Setting) (member part : View) : Prop :=
  member.reference? = none ∧ part = member ∨ RefersTo setting member part

/-- The schema that a member of an intersection stands for. -/
def standIn (setting : Setting) (member : View) : Action (Option View) :=
  match member.reference? with
  | some reference => dereference setting reference
  | none => pure (some member)

theorem standIn_of_reference {member : View} (h : member.reference? = some reference) :
    standIn setting member = dereference setting reference := by
  rw [standIn, h]

theorem standIn_of_none {member : View} (h : member.reference? = none) :
    standIn setting member = pure (some member) := by
  rw [standIn, h]

/-- What a member stands for is known before it is tested whether that is an object. -/
theorem intersectionParts_cons (setting : Setting) (member : View) (rest : List View) :
    intersectionParts setting (member :: rest) = (do
      let target ← standIn setting member
      let taken ← isObject target
      let others ← intersectionParts setting rest
      return if taken then target.toList ++ others else others) := by
  rw [intersectionParts, standIn]
  cases member.reference? <;> rfl

theorem standsFor_iff_of_reference {member part : View} (h : member.reference? = some reference) :
    StandsFor setting member part ↔ RefersTo setting member part := by
  simp [StandsFor, h]

theorem standsFor_iff_of_none {member part : View} (h : member.reference? = none) :
    StandsFor setting member part ↔ part = member := by
  simp [StandsFor, RefersTo, h]

end References

section Ways

variable (setting : Setting) (convert : Converter) (view : View) (loc : Option LocationCode)

/-- Convert what a reference leads to. What describes the reference comes first. -/
def convertTarget (target : View) : Action Converted := do
  let converted ← convert target loc
  return ⟨converted.type, view.paragraphs.getD [] ++ converted.inherited⟩

/-- What becomes of a reference to a schema that is being converted and has no entry. -/
def refuseCircular (reference : View) : Action Converted :=
  if setting.options.strictReferenceCycles then do
    Action.note (.circularReference (referenceText reference) view.pointer)
    throw (.circularReference (referenceText reference) view.pointer)
  else do
    Action.report setting (.circularReference (referenceText reference)) (some reference.code)
    return ⟨.untyped, []⟩

/-- There are two ways on from the target of a reference: to convert it, or to refuse that. -/
theorem follow_eq (reference : View) :
    follow setting convert view reference loc = (do
      match ← dereference setting reference with
      | none => return ⟨.untyped, []⟩
      | some target =>
          if target.pointer ∈ (← get).chain then
            if (← target.conversionShape).isNamed then convertTarget convert view loc target
            else refuseCircular setting view reference
          else convertTarget convert view loc target) := by
  unfold follow
  congr 1
  funext found
  cases found with
  | none => rfl
  | some target =>
      dsimp only
      congr 1
      funext state
      split
      · congr 1
        funext shape
        cases shape.isNamed <;> rfl
      · rfl

/-- Convert a schema as the type that it declares. -/
def byDeclaredType : Action ValueType := do
  let shape ← view.shapeOfType
  byType setting convert view loc shape

theorem enumeration_eq :
    enumeration setting convert view loc = (do
      if ← view.isStringEnum then stringEnum setting view (view.enum?.getD []) loc
      else
        if setting.options.reportUnsupportedFeatures then
          Action.report setting .enumValues (view.memberCode? "enum")
        byDeclaredType setting convert view loc) :=
  rfl

end Ways

/-- An array lists items of a schema. -/
def ListsItem (view item : View) : Prop :=
  view.conversionShape = .ok .array ∧ view.items? = some (.one item)

/-- An object schema whose properties an intersection takes over: a member, or what
a member refers to. -/
def TakesOver (setting : Setting) (view part : View) : Prop :=
  (∃ member ∈ view.allOf?.getD [], member.reference? = none ∧ part = member ∨
    RefersTo setting member part) ∧ part.hasType "object" = .ok true

/-- A named schema has a part, and the code is the range of that part. -/
inductive HasPart (setting : Setting) : View → View → LocationCode → Prop
  | property {view : View} {entry : Schema.Entry} (hshape : view.conversionShape = .ok .object)
      (hentry : entry ∈ propertyEntries view) : HasPart setting view entry.view entry.code
  | inherited {view part : View} {entry : Schema.Entry}
      (hshape : view.conversionShape = .ok .intersection) (hpart : TakesOver setting view part)
      (hentry : entry ∈ propertyEntries part) : HasPart setting view entry.view entry.code
  | member {view member : View} (hshape : view.conversionShape = .ok .union)
      (hmember : member ∈ view.oneOf?.getD []) : HasPart setting view member member.code

/-- The entries of the definitions of a schema. -/
def definitionEntries (view : View) : List Schema.Entry :=
  view.definitions.flatMap View.entries

/-- A schema holds a definition that is converted for its own sake. -/
def Defines (setting : Setting) (view definition : View) : Prop :=
  ∃ entry ∈ definitionEntries view, entry.key.name ∉ setting.options.ignoreDefinitions ∧
    entry.view = definition

end Schemata.Analysis
