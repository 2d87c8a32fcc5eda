import Schemata.Proofs.Layouts
import Schemata.Proofs.RelocatedRuns
import Schemata.Proofs.Results

/-!
# Independence of the layout

What a document is converted to does not depend on how it is laid out: texts of the same
value are refused alike or converted to the same entries with the same violations, but for
the ranges.
-/

namespace Schemata.Analysis

open Schema Source

/-- Relocated schemas are converted as the schemas are, up to relocation. -/
def Converter.Mirrors (move : Relocation) (convert other : Converter) : Prop :=
  ∀ view loc, Action.Mirrors move (Converted.relocate move.code) (convert view loc)
    (other (view.relocate move) (loc.map move.code))

variable {move : Relocation}

/-- So is a schema that has its own range. -/
theorem Converter.Mirrors.own {convert other : Converter}
    (h : Converter.Mirrors move convert other) (view : View) :
    Action.Mirrors move (Converted.relocate move.code) (convert view (some view.code))
      (other (view.relocate move) (some (view.relocate move).code)) := by
  rw [View.code_relocate]
  exact h view (some view.code)

/-- So is a schema that has the range of its member. -/
theorem Converter.Mirrors.member {convert other : Converter}
    (h : Converter.Mirrors move convert other) (entry : Schema.Entry) :
    Action.Mirrors move (Converted.relocate move.code) (convert entry.view (some entry.code))
      (other (entry.relocate move).view (some (entry.relocate move).code)) := by
  rw [Entry.code_relocate]
  exact h entry.view (some entry.code)

variable (setting : Setting)

open Schemata.Analysis.Action (Mirrors)

/-! ### Single values and references -/

theorem declaredPrimitive?_relocate (view : View) :
    declaredPrimitive? (view.relocate move) = declaredPrimitive? view := by
  simp only [declaredPrimitive?, View.type?, View.oneOrMany?_relocate, View.format?,
    View.child?_relocate]
  cases view.oneOrMany? "type" with
  | none => rfl
  | some found => cases found with
    | many types => rfl
    | one type => cases view.child? "format" with
      | none | some => simp [OneOrMany.relocate]

theorem mirrors_primitive (view : View) (loc : Option LocationCode) :
    Mirrors move (ValueType.relocate move.code) (primitive setting view loc)
      (primitive (setting.relocate move) (view.relocate move) (loc.map move.code)) := by
  unfold primitive
  rw [declaredPrimitive?_relocate]
  cases declaredPrimitive? view with
  | none => exact .pure rfl
  | some type =>
      apply Mirrors.bind (.read (isRequired_relocate setting.document view.pointer))
      intro required
      apply Mirrors.bind (.lift view.valueRules_relocate)
      intro rules
      exact .pure rfl

theorem mirrors_placeholder (view : View) (key : Str) (problem : Problem) :
    Mirrors move (ValueType.relocate move.code) (placeholder setting view key problem)
      (placeholder (setting.relocate move) (view.relocate move) key problem) := by
  unfold placeholder
  dsimp only
  rw [Setting.options_relocate]
  split
  · exact .bind (.report (view.memberCode?_relocate key)) fun _ => .pure rfl
  · exact .pure rfl

theorem referenceText_relocate (reference : View) :
    referenceText (reference.relocate move) = referenceText reference := by
  simp [referenceText]

theorem targetOf_relocate (reference : View) :
    targetOf (setting.relocate move) (reference.relocate move) =
      (targetOf setting reference).map (Option.map (View.relocate move)) := by
  unfold targetOf
  rw [View.string?_relocate]
  cases reference.string? with
  | none => rfl
  | some pointer => exact resolve_relocate setting.document pointer

theorem mirrors_dereference (reference : View) :
    Mirrors move (Option.map (View.relocate move)) (dereference setting reference)
      (dereference (setting.relocate move) (reference.relocate move)) := by
  rw [dereference_eq, dereference_eq, referenceText_relocate, View.code_relocate]
  refine .bind (.lift (targetOf_relocate setting reference)) fun target => ?_
  cases target with
  | none => exact .bind (.report rfl) fun _ => .pure rfl
  | some target => exact .pure rfl

section Steps

variable {convert other : Converter} (h : Converter.Mirrors move convert other)

include h

theorem mirrors_array (view : View) :
    Mirrors move (ValueType.relocate move.code) (array setting convert view)
      (array (setting.relocate move) other (view.relocate move)) := by
  simp only [array, View.items?, View.oneOrMany?_relocate]
  cases view.oneOrMany? "items" with
  | none => exact .pure rfl
  | some found => cases found with
    | one item => exact .bind (h.own item) fun _ => .pure rfl
    | many items =>
        dsimp only [Option.map_some, OneOrMany.relocate]
        rw [Setting.options_relocate]
        split
        · exact .bind (.note rfl) fun _ => .throw _
        · exact .bind (.report (view.memberCode?_relocate _)) fun _ => .pure rfl

theorem mirrors_convertTarget (view target : View) (loc : Option LocationCode) :
    Mirrors move (Converted.relocate move.code) (convertTarget convert view loc target)
      (convertTarget other (view.relocate move) (loc.map move.code) (target.relocate move)) := by
  apply Mirrors.bind (h target loc)
  intro converted
  apply Mirrors.pure
  rw [View.paragraphs_relocate]
  cases view.paragraphs with
  | none | some => simp [Converted.relocate, relocateParagraphs]

omit h in
theorem mirrors_refuseCircular (view reference : View) :
    Mirrors move (Converted.relocate move.code) (refuseCircular setting view reference)
      (refuseCircular (setting.relocate move) (view.relocate move)
        (reference.relocate move)) := by
  unfold refuseCircular
  rw [referenceText_relocate, View.pointer_relocate, View.code_relocate,
    Setting.options_relocate]
  split
  · exact .bind (.note rfl) fun _ => .throw _
  · exact .bind (.report rfl) fun _ => .pure rfl

theorem mirrors_follow (view reference : View) (loc : Option LocationCode) :
    Mirrors move (Converted.relocate move.code) (follow setting convert view reference loc)
      (follow (setting.relocate move) other (view.relocate move) (reference.relocate move)
        (loc.map move.code)) := by
  rw [follow_eq, follow_eq]
  apply Mirrors.bind (mirrors_dereference setting reference)
  intro found
  cases found with
  | none => exact .pure rfl
  | some target =>
      -- A target that is not on the chain or has an entry is converted, any other is not.
      have hgo := mirrors_convertTarget h view target loc
      apply Mirrors.bind .get
      intro before
      rw [Context.chain_relocate, View.pointer_relocate, View.conversionShape_relocate]
      split
      · apply Mirrors.bind (.read rfl)
        intro shape
        dsimp only [id]
        cases shape.isNamed with
        | true => exact hgo
        | false => exact mirrors_refuseCircular setting view reference
      · exact hgo

omit h in
@[simp] theorem isPrimitive_relocate (type : ValueType) :
    (type.relocate move.code).isPrimitive = type.isPrimitive := by
  obtain ⟨isArray, isOptional, rules, content⟩ := type
  cases content with
  | primitive | named => rfl

omit h in
theorem withConstant_relocate (type : ValueType) (constant : Option Constant) :
    (type.relocate move.code).withConstant (constant.map (Constant.relocate move.code)) =
      (type.withConstant constant).relocate move.code := by
  obtain ⟨isArray, isOptional, rules, content⟩ := type
  cases content with
  | primitive | named => rfl

theorem mirrors_property (entry : Schema.Entry) :
    Mirrors move (Property.relocate move.code) (property setting convert entry)
      (property (setting.relocate move) other (entry.relocate move)) := by
  apply Mirrors.bind (h.member entry)
  intro converted
  apply Mirrors.bind (.lift entry.view.valueRules_relocate)
  intro own
  apply Mirrors.bind (.read (isRequired_relocate setting.document entry.view.pointer))
  intro required
  apply Mirrors.pure
  simp only [Property.relocate, Property.mk.injEq, Entry.code_relocate, Entry.view_relocate,
    Option.map_some, and_true]
  have hconstant : (entry.view.relocate move).constant?.bind View.constantOf? =
      (entry.view.constant?.bind View.constantOf?).map (Constant.relocate move.code) := by
    simp only [View.constant?, View.child?_relocate]
    cases entry.view.child? "const" with
    | none => rfl
    | some found => exact found.constantOf?_relocate
  refine ⟨entry.key.label_relocate, ?_, ?_⟩
  · rw [apply_ite (relocateParagraphs move.code)]
    simp [Converted.relocate, relocateParagraphs]
  · rw [hconstant, ← withConstant_relocate]
    simp [View.reference?, ValueType.relocate, Converted.relocate,
      apply_ite (List.map (Rule.relocate move.code))]

theorem mirrors_propertyList (entries : List Schema.Entry) :
    Mirrors move (List.map (Property.relocate move.code))
      (propertyList setting convert entries)
      (propertyList (setting.relocate move) other (entries.map (Schema.Entry.relocate move))) := by
  induction entries with
  | nil => exact .pure rfl
  | cons entry rest ih =>
      exact .bind (mirrors_property setting h entry) fun _ => .bind ih fun _ => .pure rfl

omit h in
theorem propertyEntries_relocate (view : View) :
    propertyEntries (view.relocate move) =
      (propertyEntries view).map (Schema.Entry.relocate move) := by
  simp only [propertyEntries, View.properties?, View.child?_relocate]
  cases view.child? "properties" with
  | none => rfl
  | some properties =>
      rw [Option.map_some, Option.map_some, Option.getD_some, View.entries_relocate,
        List.filter_map]
      rfl

theorem mirrors_properties (view : View) :
    Mirrors move (List.map (Property.relocate move.code)) (properties setting convert view)
      (properties (setting.relocate move) other (view.relocate move)) := by
  rw [properties, properties, propertyEntries_relocate]
  exact mirrors_propertyList setting h _

/-! ### Entries -/

/-- What an object type consists of, with changed ranges. -/
def relocateBody (change : LocationCode → LocationCode) (body : TypeBody) : TypeBody :=
  (body.1.map (Property.relocate change), body.2.map (Rule.relocate change))

theorem mirrors_objectBody (view : View) :
    Mirrors move (relocateBody move.code) (objectBody setting convert view)
      (objectBody (setting.relocate move) other (view.relocate move)) := by
  apply Mirrors.bind (mirrors_properties setting h view)
  intro properties
  apply Mirrors.bind (.lift view.objectRules_relocate)
  intro rules
  exact .pure rfl

omit h in
theorem mirrors_typeEntry {body otherBody : Action TypeBody}
    (hbody : Mirrors move (relocateBody move.code) body otherBody) (origin : Origin)
    (view : View) (loc : Option LocationCode) :
    Mirrors move (ValueType.relocate move.code) (typeEntry setting origin body view loc)
      (typeEntry (setting.relocate move) origin otherBody (view.relocate move)
        (loc.map move.code)) := by
  apply Mirrors.named
  intro name
  have hnew : newType (view.relocate move) (name.relocate move.code) (loc.map move.code) =
      (newType view name loc).relocate move.code := by
    simp [newType, ObjectType.relocate]
  rw [hnew]
  apply Mirrors.bind (.modify fun before => before.addType_relocate _)
  intro _
  apply Mirrors.bind (.note rfl)
  intro _
  apply Mirrors.bind hbody
  intro body
  exact .modify fun before => before.completeType_relocate _ _ _

theorem mirrors_object (view : View) (loc : Option LocationCode) :
    Mirrors move (ValueType.relocate move.code) (object setting convert view loc)
      (object (setting.relocate move) other (view.relocate move) (loc.map move.code)) :=
  mirrors_typeEntry setting (mirrors_objectBody setting h view) .object view loc

omit h in
theorem mirrors_stringEnum (view : View) (members : List View) (loc : Option LocationCode) :
    Mirrors move (ValueType.relocate move.code) (stringEnum setting view members loc)
      (stringEnum (setting.relocate move) (view.relocate move)
        (members.map (View.relocate move)) (loc.map move.code)) := by
  apply Mirrors.named
  intro name
  have hlabels : stringLabels (members.map (View.relocate move)) =
      (stringLabels members).map (Label.relocate move.code) := by
    simp [stringLabels, List.filterMap_map, List.map_filterMap, Label.relocate, Function.comp_def]
  have hnew : newEnum (view.relocate move) (members.map (View.relocate move))
      (name.relocate move.code) (loc.map move.code) =
        (newEnum view members name loc).relocate move.code := by
    simp [newEnum, hlabels, EnumType.relocate]
  rw [hnew]
  apply Mirrors.bind (.modify fun before => before.addEnum_relocate _)
  intro _
  exact .note rfl

theorem mirrors_byType (view : View) (loc : Option LocationCode) (shape : Shape) :
    Mirrors move (ValueType.relocate move.code) (byType setting convert view loc shape)
      (byType (setting.relocate move) other (view.relocate move) (loc.map move.code) shape) := by
  cases shape with
  | object => exact mirrors_object setting h view loc
  | array => exact mirrors_array setting h view
  | reference | intersection | anyOf | union | typeList | enumeration | primitive =>
      exact mirrors_primitive setting view loc

theorem mirrors_enumeration (view : View) (loc : Option LocationCode) :
    Mirrors move (ValueType.relocate move.code) (enumeration setting convert view loc)
      (enumeration (setting.relocate move) other (view.relocate move) (loc.map move.code)) := by
  have htype : Mirrors move (ValueType.relocate move.code)
      (byDeclaredType setting convert view loc)
      (byDeclaredType (setting.relocate move) other (view.relocate move) (loc.map move.code)) :=
    .bind (.read view.shapeOfType_relocate) (mirrors_byType setting h view loc)
  rw [enumeration_eq, enumeration_eq]
  apply Mirrors.bind (.read view.isStringEnum_relocate)
  intro isString
  cases isString with
  | true =>
      dsimp only [id]
      simp only [if_pos, View.enum?, View.getD_children?_relocate]
      exact mirrors_stringEnum setting view _ loc
  | false =>
      dsimp only [id]
      rw [if_neg Bool.false_ne_true, if_neg Bool.false_ne_true, Setting.options_relocate]
      split
      · exact .bind (.report (view.memberCode?_relocate "enum")) fun _ => htype
      · exact htype

omit h in
theorem mergeProperty_relocate (properties : List Property) (property : Property) :
    mergeProperty (properties.map (Property.relocate move.code)) (property.relocate move.code) =
      (mergeProperty properties property).map (Property.relocate move.code) := by
  have hname : ∀ property : Property,
      (property.relocate move.code).name.value = property.name.value := fun _ => rfl
  simp only [mergeProperty, List.any_map, Function.comp_def, hname]
  split
  · simp only [List.map_map, Function.comp_def, hname, apply_ite (Property.relocate move.code)]
  · simp

omit h in
theorem isObject_relocate (part : Option View) :
    isObject (part.map (View.relocate move)) = isObject part := by
  cases part with
  | none => rfl
  | some part => exact part.hasType_relocate "object"

omit h in
theorem mirrors_standIn (member : View) :
    Mirrors move (Option.map (View.relocate move)) (standIn setting member)
      (standIn (setting.relocate move) (member.relocate move)) := by
  unfold standIn
  rw [View.reference?_relocate]
  cases member.reference? with
  | none => exact .pure rfl
  | some reference => exact mirrors_dereference setting reference

omit h in
theorem mirrors_intersectionParts (members : List View) :
    Mirrors move (List.map (View.relocate move)) (intersectionParts setting members)
      (intersectionParts (setting.relocate move) (members.map (View.relocate move))) := by
  induction members with
  | nil => exact .pure rfl
  | cons member rest ih =>
      rw [List.map_cons, intersectionParts_cons, intersectionParts_cons]
      apply Mirrors.bind (mirrors_standIn setting member)
      intro target
      apply Mirrors.bind (.read (isObject_relocate target))
      intro taken
      apply Mirrors.bind ih
      intro others
      apply Mirrors.pure
      cases taken with
      | true => cases target with
        | none | some => simp
      | false => rfl

theorem mirrors_mergedProperties (before : List Property) (parts : List View) :
    Mirrors move (List.map (Property.relocate move.code))
      (mergedProperties setting convert before parts)
      (mergedProperties (setting.relocate move) other
        (before.map (Property.relocate move.code)) (parts.map (View.relocate move))) := by
  induction parts generalizing before with
  | nil => exact .pure rfl
  | cons part rest ih =>
      apply Mirrors.bind (mirrors_properties setting h part)
      intro added
      have hmerged : (added.map (Property.relocate move.code)).foldl mergeProperty
          (before.map (Property.relocate move.code)) =
            (added.foldl mergeProperty before).map (Property.relocate move.code) := by
        rw [List.foldl_map]
        exact List.foldl_hom _ mergeProperty_relocate
      rw [hmerged]
      exact ih _

omit h in
theorem mergedRules_relocate (parts : List View) :
    mergedRules (parts.map (View.relocate move)) =
      (mergedRules parts).map (List.map (Rule.relocate move.code)) := by
  induction parts with
  | nil => rfl
  | cons part rest ih =>
      apply bind_map_comm part.objectRules_relocate
      intro rules
      apply bind_map_comm ih
      intro others
      rw [← List.map_append]
      rfl

theorem mirrors_intersectionBody (view : View) :
    Mirrors move (relocateBody move.code) (intersectionBody setting convert view)
      (intersectionBody (setting.relocate move) other (view.relocate move)) := by
  simp only [intersectionBody, View.allOf?, View.getD_children?_relocate]
  apply Mirrors.bind (mirrors_intersectionParts setting _)
  intro parts
  apply Mirrors.bind (mirrors_mergedProperties setting h [] parts)
  intro properties
  apply Mirrors.bind (.lift (mergedRules_relocate parts))
  intro rules
  exact .pure rfl

/-! ### Unions -/

theorem mirrors_alternatives (members : List View) :
    Mirrors move (List.map (Alternative.relocate move)) (alternatives convert members)
      (alternatives other (members.map (View.relocate move))) := by
  induction members with
  | nil => exact .pure rfl
  | cons member rest ih => exact .bind (h.own member) fun _ => .bind ih fun _ => .pure rfl

omit h in
theorem mirrors_keep {fits otherFits : ValueType → Bool} (problem : Problem)
    (hfits : ∀ type, otherFits (type.relocate move.code) = fits type)
    (members : List Alternative) :
    Mirrors move (List.map (ValueType.relocate move.code)) (keep setting fits problem members)
      (keep (setting.relocate move) otherFits problem
        (members.map (Alternative.relocate move))) := by
  induction members with
  | nil => exact .pure rfl
  | cons member rest ih =>
      rw [List.map_cons, keep, Alternative.relocate, keep, hfits, View.code_relocate]
      split
      · exact .bind ih fun _ => .pure rfl
      · exact .bind (.report rfl) fun _ => ih

omit h in
theorem discriminatorOf?_relocate (view : View) :
    discriminatorOf? (view.relocate move) =
      (discriminatorOf? view).map (Label.relocate move.code) := by
  simp only [discriminatorOf?, View.discriminator?, View.child?_relocate]
  cases view.child? "discriminator" with
  | none => rfl
  | some discriminator =>
      simp only [Option.map_some, Option.bind_eq_bind, Option.bind_some, View.child?_relocate]
      cases discriminator.child? "propertyName" with
      | none => rfl
      | some name =>
          simp only [Option.map_some, Option.bind_some, View.scalar?_relocate,
            View.code_relocate]
          cases name.scalar? with
          | none => rfl
          | some value =>
              simp only [Option.bind_some]
              split
              · rfl
              · rfl

omit h in
theorem mapping?_relocate (view : View) :
    (view.relocate move).discriminator?.bind (·.child? "mapping") =
      (view.discriminator?.bind (·.child? "mapping")).map (View.relocate move) := by
  simp only [View.discriminator?, View.child?_relocate]
  cases view.child? "discriminator" with
  | none => rfl
  | some discriminator => exact discriminator.child?_relocate "mapping"

theorem mirrors_unionBody (view : View) :
    Mirrors move (UnionBody.relocate move.code) (unionBody setting convert view)
      (unionBody (setting.relocate move) other (view.relocate move)) := by
  simp only [unionBody, View.oneOf?, View.getD_children?_relocate, discriminatorOf?_relocate,
    mapping?_relocate]
  apply Mirrors.bind (mirrors_alternatives h _)
  intro members
  cases discriminatorOf? view with
  | some discriminator =>
      have hkept : Mirrors move (UnionBody.relocate move.code)
          (do
            let kept ← keep setting (!·.isPrimitive) .primitiveDiscriminated members
            return ⟨.discriminated, kept, some discriminator⟩)
          (do
            let kept ← keep (setting.relocate move) (!·.isPrimitive) .primitiveDiscriminated
              (members.map (Alternative.relocate move))
            return ⟨.discriminated, kept, some (discriminator.relocate move.code)⟩) :=
        .bind (mirrors_keep setting _ (by simp) members) fun _ => .pure rfl
      cases view.discriminator?.bind (·.child? "mapping") with
      | none => exact hkept
      | some mapping =>
          dsimp only [Option.map_some]
          rw [View.code_relocate]
          exact .bind (.report rfl) fun _ => hkept
  | none => cases members with
    | nil => exact .pure rfl
    | cons first rest =>
        have hfits : ∀ type : ValueType,
            ((type.relocate move.code).isPrimitive == (first.type.relocate move.code).isPrimitive) =
              (type.isPrimitive == first.type.isPrimitive) := by
          simp
        apply Mirrors.bind (mirrors_keep setting _ hfits (first :: rest))
        intro kept
        apply Mirrors.pure
        simp [Alternative.relocate, UnionBody.relocate]

theorem mirrors_union (view : View) (loc : Option LocationCode) :
    Mirrors move (ValueType.relocate move.code) (union setting convert view loc)
      (union (setting.relocate move) other (view.relocate move) (loc.map move.code)) := by
  apply Mirrors.named
  intro name
  have hnew : newUnion (view.relocate move) (name.relocate move.code) (loc.map move.code) =
      (newUnion view name loc).relocate move.code := by
    simp [newUnion, UnionType.relocate]
  rw [hnew]
  apply Mirrors.bind (.modify fun before => before.addUnion_relocate _)
  intro _
  apply Mirrors.bind (.note rfl)
  intro _
  apply Mirrors.bind (mirrors_unionBody setting h view)
  intro body
  exact .modify fun before => before.completeUnion_relocate _ body

/-! ### All shapes -/

theorem mirrors_byShape (view : View) (loc : Option LocationCode) (shape : Shape) :
    Mirrors move (ValueType.relocate move.code) (byShape setting convert view loc shape)
      (byShape (setting.relocate move) other (view.relocate move) (loc.map move.code) shape) := by
  cases shape with
  | intersection =>
      exact mirrors_typeEntry setting (mirrors_intersectionBody setting h view) .intersection
        view loc
  | union => exact mirrors_union setting h view loc
  | enumeration => exact mirrors_enumeration setting h view loc
  | object => exact mirrors_object setting h view loc
  | array => exact mirrors_array setting h view
  | anyOf | typeList => exact mirrors_placeholder setting view _ _
  | reference | primitive => exact mirrors_primitive setting view loc

theorem mirrors_dispatch (view : View) (loc : Option LocationCode) :
    Mirrors move (Converted.relocate move.code) (dispatch setting convert view loc)
      (dispatch (setting.relocate move) other (view.relocate move) (loc.map move.code)) := by
  apply Mirrors.bind (.read view.shape_relocate)
  intro shape
  apply Mirrors.bind (.note rfl)
  intro _
  rw [View.reference?_relocate]
  cases view.reference? with
  | some reference => exact mirrors_follow setting h view reference loc
  | none =>
      apply Mirrors.bind (mirrors_byShape setting h view loc shape)
      intro type
      apply Mirrors.pure
      rw [View.paragraphs_relocate]
      cases view.paragraphs with
      | none | some => rfl

theorem mirrors_visitDefinitions (entries : List Schema.Entry) :
    Mirrors move id (visitDefinitions setting convert entries)
      (visitDefinitions (setting.relocate move) other
        (entries.map (Schema.Entry.relocate move))) := by
  induction entries with
  | nil => exact .pure rfl
  | cons entry rest ih =>
      apply Mirrors.bind .get
      intro before
      rw [Entry.key_relocate, Entry.view_relocate, View.pointer_relocate, Json.Key.name_relocate,
        Setting.options_relocate, Context.visited_relocate]
      split
      · exact ih
      · exact .bind (.modify fun _ => rfl) fun _ => .bind (h.member entry) fun _ => ih

theorem mirrors_step :
    Converter.Mirrors move (step setting convert) (step (setting.relocate move) other) := by
  intro view loc
  have hentries : ((view.relocate move).definitions.flatMap View.entries) =
      (view.definitions.flatMap View.entries).map (Schema.Entry.relocate move) := by
    simp [List.flatMap_map, List.map_flatMap]
  unfold step
  rw [hentries]
  exact .bind (mirrors_visitDefinitions setting h _) fun _ =>
    .within _ (mirrors_dispatch setting h view loc)

end Steps

theorem mirrors_convertWithin (depth : Nat) :
    Converter.Mirrors move (convertWithin setting depth)
      (convertWithin (setting.relocate move) depth) := by
  induction depth with
  | zero => exact fun _ _ => .throw _
  | succ depth ih => exact mirrors_step setting ih

theorem mirrors_convert :
    Converter.Mirrors move (convert setting) (convert (setting.relocate move)) := by
  have hdepth : (setting.relocate move).depth = setting.depth := by
    simp [Setting.depth]
  unfold convert
  rw [hdepth]
  exact mirrors_convertWithin setting setting.depth

theorem analyze_relocate :
    analyze (setting.relocate move) =
      ((analyze setting).1.map (Converted.relocate move.code),
        (analyze setting).2.relocate move) := by
  have hroot : Mirrors move (Converted.relocate move.code) _ _ :=
    (mirrors_convert setting).own (View.root setting.document)
  exact hroot {}

theorem title_relocate :
    title (setting.relocate move) = (title setting).map (Label.relocate move.code) := by
  apply bind_map_comm (Naming.infer_relocate setting.naming (View.root setting.document))
  intro name
  cases name with
  | none | some => rfl

theorem outcome_of_context_relocate (context : Context) (title : Label) :
    (context.relocate move).outcome (setting.relocate move) (title.relocate move.code) =
      (context.outcome setting title).relocate move.code := by
  simp [Context.outcome, Outcome.relocate, Service.relocate, Context.types, Context.enums,
    Context.unions, Context.relocate, Setting.relocate]

theorem outcome_relocate :
    (outcome (setting.relocate move)).1 = (outcome setting).1.map (Outcome.relocate move.code) := by
  unfold outcome
  rw [analyze_relocate, title_relocate]
  rcases analyze setting with ⟨failure | converted, context⟩
  · rfl
  · cases title setting with
    | error failure => rfl
    | ok title => exact congrArg Except.ok (outcome_of_context_relocate setting context title)

/-- Relocation is not seen in an outcome without ranges. -/
theorem unlocated_outcome_relocate (move : Relocation) :
    (outcome (setting.relocate move)).1.map Outcome.unlocated =
      (outcome setting).1.map Outcome.unlocated := by
  rw [outcome_relocate]
  cases (outcome setting).1 with
  | error failure => rfl
  | ok outcome => exact congrArg Except.ok (outcome.unlocated_relocate move.code)

end Schemata.Analysis

namespace Schemata

/-- Two texts of the same value are refused for the same reason, or converted to outcomes that
differ in nothing but ranges. Blanks, escapes and the spelling of numbers do not matter; an
integer and a number with a point or an exponent are different values. -/
theorem convertText_eq_of_value {text other : String} {tree otherTree : Json.Node}
    (htree : Json.read text = .ok tree) (hother : Json.read other = .ok otherTree)
    (hvalue : tree.value = otherTree.value) (path : String) (options : Options) :
    (convertText text path options).map Outcome.unlocated =
      (convertText other path options).map Outcome.unlocated := by
  -- Both trees have the same relocation, so both outcomes are compared with that of it.
  obtain ⟨move, hmove⟩ := Json.exists_relocation htree hother hvalue
  have hsetting : Analysis.Setting.relocate move ⟨tree, path, options⟩ =
      Analysis.Setting.relocate .stay ⟨otherTree, path, options⟩ := by
    simp only [Analysis.Setting.relocate, hmove]
  have houtcome : (Analysis.outcome ⟨tree, path, options⟩).1.map Outcome.unlocated =
      (Analysis.outcome ⟨otherTree, path, options⟩).1.map Outcome.unlocated := by
    rw [← Analysis.unlocated_outcome_relocate _ move, hsetting,
      Analysis.unlocated_outcome_relocate]
  have hmap : ∀ result : Except Failure Outcome,
      (result.mapError ConversionError.refused).map Outcome.unlocated =
        (result.map Outcome.unlocated).mapError .refused := by
    intro result
    cases result with
    | error | ok => rfl
  rw [convertText_of_read htree, convertText_of_read hother, hmap, hmap, houtcome]

namespace TwoLayouts

open Json

/-- A reference that leads nowhere, without blanks. -/
def compact : String :=
  "\x7b\"$ref\":\"#/a\"\x7d"

def compactTree : Node :=
  .object ⟨⟨1, 1, 0⟩, ⟨1, 15, 14⟩⟩
    [⟨⟨"$ref", "\"$ref\"", ⟨⟨1, 2, 1⟩, ⟨1, 8, 7⟩⟩⟩,
      .scalar ⟨⟨1, 9, 8⟩, ⟨1, 14, 13⟩⟩ (.string "#/a") "\"#/a\""⟩]

/-- The same reference on a line of its own, with an escape. -/
def spaced : String :=
  "\x7b\n \"$ref\": \"#\\/a\"\n\x7d"

def spacedTree : Node :=
  .object ⟨⟨1, 1, 0⟩, ⟨3, 2, 19⟩⟩
    [⟨⟨"$ref", "\"$ref\"", ⟨⟨2, 2, 3⟩, ⟨2, 8, 9⟩⟩⟩,
      .scalar ⟨⟨2, 10, 11⟩, ⟨2, 16, 17⟩⟩ (.string "#/a") "\"#\\/a\""⟩]

theorem convertText_compact_spaced :
    read compact = .ok compactTree ∧ read spaced = .ok spacedTree ∧
      compactTree.value = spacedTree.value ∧
      (convertText compact "").map Outcome.unlocated =
        (convertText spaced "").map Outcome.unlocated := by
  have hcompact : read compact = .ok compactTree := by cbv
  have hspaced : read spaced = .ok spacedTree := by cbv
  exact ⟨hcompact, hspaced, rfl, convertText_eq_of_value hcompact hspaced rfl "" {}⟩

end TwoLayouts

end Schemata
