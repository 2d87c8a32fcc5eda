import Mathlib.Data.List.Forall2
import Schemata.Proofs.Growth

/-!
# What conversions return

The type of a schema comes from the conversion of another one, names an entry or has no
name at all. A conversion that returns has converted everything that it depends on: the
target of a reference, the items of an array, and the parts of a schema that it made
an entry of.
-/

namespace Schemata

/-- The name of the entry that a type refers to. -/
def ValueType.name? (type : ValueType) : Option Label :=
  match type.content with
  | .primitive _ _ _ => none
  | .named name => some name

@[simp] theorem ValueType.name?_named (name : Label) : (ValueType.named name).name? = some name :=
  rfl

@[simp] theorem ValueType.name?_untyped : ValueType.untyped.name? = none :=
  rfl

theorem ValueType.name?_withConstant (type : ValueType) (constant : Option Constant) :
    (type.withConstant constant).name? = type.name? := by
  unfold withConstant
  split
  next h => simp [name?, h]
  next => rfl

end Schemata

namespace Schemata.Analysis

open Schema Source

/-- In lists that are related item by item, each item has one that it is related to. -/
theorem exists_related {α β : Type} {related : α → β → Prop} {first : List α} {second : List β}
    (h : List.Forall₂ related first second) {item : α} (hitem : item ∈ first) :
    ∃ other ∈ second, related item other := by
  induction h with
  | nil => exact absurd hitem List.not_mem_nil
  | cons hrelated _ ih =>
      rcases List.mem_cons.mp hitem with rfl | hrest
      · exact ⟨_, List.mem_cons_self, hrelated⟩
      · obtain ⟨other, hother, hitem⟩ := ih hrest
        exact ⟨other, List.mem_cons_of_mem _ hother, hitem⟩

/-- Between two states, a schema was converted. -/
def Made (convert : Converter) (before after : Context) (view : View)
    (loc : Option LocationCode) (converted : Converted) : Prop :=
  ∃ start stop, before.Grows start ∧ (convert view loc).Returns start converted stop ∧
    stop.Grows after

theorem Made.widen {convert : Converter} {before start stop after : Context} {view : View}
    {loc : Option LocationCode} {converted : Converted}
    (h : Made convert start stop view loc converted) (hbefore : before.Grows start)
    (hafter : stop.Grows after) : Made convert before after view loc converted := by
  obtain ⟨first, last, hfirst, hreturns, hlast⟩ := h
  exact ⟨first, last, hbefore.trans hfirst, hreturns, hlast.trans hafter⟩

/-- If an action returns, then in a state that is further than `before`, and with `returned`. -/
def Gives {α : Type} (before : Context) (action : Action α) (returned : α → Context → Prop) :
    Prop :=
  action.Ensures before (fun value after => before.Grows after ∧ returned value after)
    fun _ _ => True

namespace Gives

variable {α β : Type} {before : Context} {returned : α → Context → Prop}

theorem pure {value : α} (h : returned value before) : Gives before (Pure.pure value) returned :=
  ⟨.refl before, h⟩

theorem throw {failure : Failure} : Gives before (MonadExcept.throw failure) returned :=
  trivial

theorem bind {action : Action β} {next : β → Action α} {between : β → Context → Prop}
    (haction : Gives before action between)
    (hnext : ∀ value middle, before.Grows middle → between value middle →
      Gives middle (next value) returned) : Gives before (action >>= next) returned := by
  rw [Gives, Action.ensures_bind]
  refine haction.imp (fun value middle hmiddle => ?_) fun _ _ h => h
  refine (hnext value middle hmiddle.1 hmiddle.2).imp ?_ fun _ _ h => h
  exact fun _ _ hafter => ⟨hmiddle.1.trans hafter.1, hafter.2⟩

theorem lift {result : Except Failure α} :
    Gives before (liftM result) fun value after => result = .ok value ∧ after = before := by
  rw [Gives, Action.ensures_lift]
  exact ⟨fun _ hvalue => ⟨.refl before, hvalue, rfl⟩, fun _ _ => trivial⟩

theorem get : Gives before (MonadState.get : Action Context) fun state after =>
    state = before ∧ after = before :=
  ⟨.refl before, rfl, rfl⟩

theorem update {change : Context → Context} (h : before.Grows (change before)) :
    Gives before (modify change) fun _ after => after = change before :=
  ⟨h, rfl⟩

theorem imp {action : Action α} {returned' : α → Context → Prop}
    (h : Gives before action returned)
    (himp : ∀ value after, before.Grows after → returned value after → returned' value after) :
    Gives before action returned' :=
  Action.Ensures.imp h (fun value after hafter => ⟨hafter.1, himp value after hafter.1 hafter.2⟩)
    fun _ _ h => h

theorem note (event : Event) : Gives before (Action.note event) fun _ after =>
    after = before.note event :=
  update (Context.Extends.note before event).grows

theorem report (setting : Setting) (problem : Problem) (range : Option LocationCode) :
    Gives before (Action.report setting problem range) fun _ after =>
      after = before.record (problem.violation range setting.sourcePath) :=
  update (Context.Extends.record before _).grows

theorem within {pointer : Pointer} {action : Action α}
    (h : Gives (before.enter pointer) action fun value after =>
      (before.enter pointer).Grows after → returned value after.leave) :
    Gives before (Action.within pointer action) returned := by
  rw [Gives, Action.ensures_within]
  exact Action.Ensures.imp h (fun _ _ hafter => ⟨hafter.1.leave, hafter.2 hafter.1⟩)
    fun _ _ h => h

theorem of_returns {action : Action α} (h : Gives before action returned) {value : α}
    {after : Context} (hreturns : action.Returns before value after) : returned value after :=
  (Action.Ensures.of_returns h hreturns).2

end Gives

/-! ### Records -/

/-- The record of a reference that leads nowhere. -/
def unresolvedViolation (setting : Setting) (reference : View) : Violation :=
  (Problem.unresolvedReference (referenceText reference)).violation (some reference.code)
    setting.sourcePath

/-- The record of a reference as circular. -/
def circularViolation (setting : Setting) (reference : View) : Violation :=
  (Problem.circularReference (referenceText reference)).violation (some reference.code)
    setting.sourcePath

/-- The record of a schema under a name that belongs to the schema at another pointer. -/
def collision (setting : Setting) (view : View) (name : Label) (owner : Pointer) : Violation :=
  (Problem.duplicateName name.value view.pointer owner).violation
    (name.loc.or ((view.memberCode? "title").or view.code)) setting.sourcePath

/-- For an intersection, all references of its members that lead nowhere are recorded. -/
def MembersTold (setting : Setting) (view : View) (context : Context) : Prop :=
  view.conversionShape = .ok .intersection → ∀ member ∈ view.allOf?.getD [], ∀ reference,
    Dangles setting member reference → unresolvedViolation setting reference ∈ context.violations

theorem MembersTold.of_shape {setting : Setting} {view : View} {context : Context} {shape : Shape}
    (hshape : view.conversionShape = .ok shape) (hother : shape ≠ .intersection) :
    MembersTold setting view context :=
  fun hintersection => absurd (Except.ok.inj (hshape.symm.trans hintersection)) hother

theorem MembersTold.grows {setting : Setting} {view : View} {before after : Context}
    (h : MembersTold setting view before) (hgrows : before.Grows after) :
    MembersTold setting view after :=
  fun hshape member hmember reference hdangles =>
    hgrows.violations.subset (h hshape member hmember reference hdangles)

/-- Of the members of an intersection, no object schema is missing among the parts, and no
reference that leads nowhere is passed over. -/
structure PartsOf (setting : Setting) (members parts : List View) (context : Context) : Prop where
  taken : ∀ member ∈ members, ∀ part, (member.reference? = none ∧ part = member ∨
    RefersTo setting member part) → part.hasType "object" = .ok true → part ∈ parts
  told : ∀ member ∈ members, ∀ reference, Dangles setting member reference →
    unresolvedViolation setting reference ∈ context.violations

theorem PartsOf.nil {setting : Setting} {context : Context} : PartsOf setting [] [] context :=
  ⟨fun _ hmember => absurd hmember List.not_mem_nil,
    fun _ hmember => absurd hmember List.not_mem_nil⟩

theorem PartsOf.cons {setting : Setting} {context : Context} {member : View}
    {rest others : List View} {target : Option View} {taken : Bool}
    (h : PartsOf setting rest others context)
    (htarget : ∀ part, StandsFor setting member part → target = some part)
    (htaken : ∀ part, target = some part → part.hasType "object" = .ok true → taken = true)
    (htold : ∀ reference, Dangles setting member reference →
      unresolvedViolation setting reference ∈ context.violations) :
    PartsOf setting (member :: rest) (if taken then target.toList ++ others else others)
      context := by
  constructor
  · intro other hother part hpart htype
    rcases List.mem_cons.mp hother with rfl | hrest
    · obtain rfl := htarget part hpart
      rw [if_pos (htaken part rfl htype)]
      exact List.mem_append_left _ List.mem_cons_self
    · have hmem := h.taken other hrest part hpart htype
      split
      · exact List.mem_append_right _ hmem
      · exact hmem
  · intro other hother reference hdangles
    rcases List.mem_cons.mp hother with rfl | hrest
    · exact htold reference hdangles
    · exact h.told other hrest reference hdangles

section Parts

variable {setting : Setting} {convert : Converter} {before : Context}
  (hconvert : Continues convert)

include hconvert

theorem gives_call (view : View) (loc : Option LocationCode) :
    Gives before (convert view loc) fun converted after =>
      Made convert before after view loc converted := by
  refine (Action.ensures_returns (convert view loc) before).imp ?_ fun _ _ h => h
  intro converted after hreturns
  exact ⟨(hconvert _ _ _ _ (hreturns.leads false)).grows, before, after, .refl before, hreturns,
    .refl after⟩

omit hconvert in
/-- A property is made of what the conversion of its schema returns, the rules of that schema and
whether it is required. -/
theorem ensures_property (entry : Schema.Entry) :
    (property setting convert entry).Ensures before (fun made after =>
      ∃ converted own required,
        (convert entry.view (some entry.code)).Returns before converted after ∧
          entry.view.valueRules = .ok own ∧
          isRequired setting.document entry.view.pointer = .ok required ∧
          made =
            { name := entry.key.label
              description :=
                if entry.view.paragraphs.isNone && converted.type.isPrimitive &&
                    !converted.inherited.isEmpty then
                  some converted.inherited
                else entry.view.paragraphs
              type := { converted.type with
                isOptional := !required
                rules :=
                  if own.isEmpty && entry.view.reference?.isSome then converted.type.rules
                  else own }.withConstant (entry.view.constant?.bind View.constantOf?)
              loc := some entry.code }) fun _ _ => True := by
  rw [property, Action.ensures_bind]
  refine (Action.ensures_returns _ before).imp (fun converted after hreturns => ?_)
    fun _ _ _ => trivial
  simp only [Action.ensures_bind, Action.ensures_lift, Action.ensures_pure, implies_true, and_true]
  exact fun own hown required hrequired =>
    ⟨converted, own, required, hreturns, hown, hrequired, rfl⟩

/-- The property was made from the entry. -/
def PropertyOf (convert : Converter) (before after : Context) (entry : Schema.Entry)
    (property : Property) : Prop :=
  ∃ converted, Made convert before after entry.view (some entry.code) converted ∧
    property.type.name? = converted.type.name?

theorem gives_property (entry : Schema.Entry) :
    Gives before (property setting convert entry) fun property after =>
      PropertyOf convert before after entry property := by
  refine .bind (gives_call hconvert _ _) fun converted middle _ hmade => ?_
  refine .bind .lift fun own start hstart _ => .bind .lift fun required stop hstop _ => ?_
  refine .pure ⟨converted, hmade.widen (.refl before) (hstart.trans hstop), ?_⟩
  rw [ValueType.name?_withConstant]
  rfl

omit hconvert in
theorem PropertyOf.widen {start stop after : Context} {entry : Schema.Entry}
    {property : Property} (h : PropertyOf convert start stop entry property)
    (hbefore : before.Grows start) (hafter : stop.Grows after) :
    PropertyOf convert before after entry property := by
  obtain ⟨converted, hmade, hname⟩ := h
  exact ⟨converted, hmade.widen hbefore hafter, hname⟩

/-- There is one property for each entry. -/
theorem gives_propertyList (entries : List Schema.Entry) :
    Gives before (propertyList setting convert entries) fun properties after =>
      List.Forall₂ (PropertyOf convert before after) entries properties := by
  induction entries generalizing before with
  | nil => exact .pure .nil
  | cons entry rest ih =>
      refine .bind (gives_property hconvert entry) fun first middle hmiddle hfirst => ?_
      refine .bind ih fun others after hafter hothers => .pure (.cons ?_ ?_)
      · exact hfirst.widen (.refl before) hafter
      · exact hothers.imp fun _ _ hother => hother.widen hmiddle (.refl after)

theorem gives_objectBody (view : View) :
    Gives before (objectBody setting convert view) fun body after =>
      List.Forall₂ (PropertyOf convert before after) (propertyEntries view) body.1 := by
  refine .bind (gives_propertyList hconvert _) fun properties middle hmiddle hproperties => ?_
  refine .bind .lift fun rules after hafter _ => .pure ?_
  exact hproperties.imp fun _ _ hproperty => hproperty.widen (.refl before) hafter

omit hconvert in
theorem gives_dereference {holder reference : View}
    (hreference : holder.reference? = some reference) :
    Gives before (dereference setting reference) fun found after =>
      (∀ target, found = some target ↔ RefersTo setting holder target) ∧
        (found = none → unresolvedViolation setting reference ∈ after.violations) := by
  rw [dereference_eq]
  refine .bind .lift fun found middle _ hfound => ?_
  have htarget := eq_some_iff_refersTo hreference hfound.1
  cases found with
  | some target => exact .pure ⟨htarget, nofun⟩
  | none =>
      refine .bind (.report _ _ _) ?_
      rintro _ after _ rfl
      exact .pure ⟨htarget, fun _ => Context.mem_violations_record _ _⟩

omit hconvert in
/-- It is known what a member stands for, or else it is reported. -/
theorem gives_standIn (member : View) :
    Gives before (standIn setting member) fun found after =>
      (∀ part, found = some part ↔ StandsFor setting member part) ∧
        ∀ reference, Dangles setting member reference →
          unresolvedViolation setting reference ∈ after.violations := by
  cases hreference : member.reference? with
  | none =>
      rw [standIn_of_none hreference]
      refine .pure ⟨fun part => ?_, fun reference hdangles => ?_⟩
      · rw [standsFor_iff_of_none hreference, Option.some.injEq, eq_comm]
      · exact absurd (hdangles.1.symm.trans hreference) (Option.some_ne_none reference)
  | some reference =>
      rw [standIn_of_reference hreference]
      refine (gives_dereference hreference).imp fun found after _ hfound => ?_
      refine ⟨fun part => ?_, fun other hdangles => ?_⟩
      · rw [standsFor_iff_of_reference hreference, hfound.1]
      · obtain rfl := Option.some.inj (hreference.symm.trans hdangles.1)
        refine hfound.2 (Option.eq_none_iff_forall_not_mem.mpr fun target htarget => ?_)
        exact hdangles.2 target ((hfound.1 target).mp htarget)

omit hconvert in
theorem gives_intersectionParts (members : List View) :
    Gives before (intersectionParts setting members) fun parts after =>
      PartsOf setting members parts after := by
  induction members generalizing before with
  | nil => exact .pure .nil
  | cons member rest ih =>
      rw [intersectionParts_cons]
      refine .bind (gives_standIn member) fun target middle _ htarget => ?_
      refine .bind .lift fun taken current hcurrent htaken => ?_
      refine .bind ih fun others after hafter hothers => .pure (hothers.cons ?_ ?_ ?_)
      · exact fun part hpart => (htarget.1 part).mpr hpart
      · rintro part rfl htype
        exact Except.ok.inj (htaken.1.symm.trans htype)
      · exact fun reference hdangles =>
          (hcurrent.trans hafter).violations.subset (htarget.2 reference hdangles)

omit hconvert in
theorem mem_mergeProperty {properties : List Property} {added property : Property}
    (h : property ∈ mergeProperty properties added) :
    property ∈ properties ∨ property = added := by
  unfold mergeProperty at h
  split at h
  · obtain ⟨other, hother, rfl⟩ := List.mem_map.mp h
    split
    · exact .inr rfl
    · exact .inl hother
  · simpa using h

omit hconvert in
theorem mem_foldl_mergeProperty {properties added : List Property} {property : Property}
    (h : property ∈ added.foldl mergeProperty properties) :
    property ∈ properties ∨ property ∈ added := by
  induction added generalizing properties with
  | nil => exact .inl h
  | cons first rest ih =>
      rcases ih h with hmerged | hrest
      · rcases mem_mergeProperty hmerged with hbefore | rfl
        · exact .inl hbefore
        · exact .inr List.mem_cons_self
      · exact .inr (List.mem_cons_of_mem _ hrest)

theorem gives_mergedProperties (merged : List Property) (parts : List View) :
    Gives before (mergedProperties setting convert merged parts) fun properties after =>
      (∀ part ∈ parts, ∀ entry ∈ propertyEntries part,
        ∃ property, PropertyOf convert before after entry property) ∧
      ∀ property ∈ properties, property ∈ merged ∨
        ∃ entry, PropertyOf convert before after entry property := by
  induction parts generalizing before merged with
  | nil => exact .pure ⟨fun _ hpart => absurd hpart List.not_mem_nil, fun _ => .inl⟩
  | cons part rest ih =>
      refine .bind (gives_propertyList hconvert _) fun added middle hmiddle hadded => ?_
      refine (ih _).imp fun properties after hafter hproperties => ⟨?_, ?_⟩
      · intro other hother entry hentry
        rcases List.mem_cons.mp hother with rfl | hrest
        · obtain ⟨property, -, hproperty⟩ := exists_related hadded hentry
          exact ⟨property, hproperty.widen (.refl before) hafter⟩
        · obtain ⟨property, hproperty⟩ := hproperties.1 other hrest entry hentry
          exact ⟨property, hproperty.widen hmiddle (.refl after)⟩
      · intro property hproperty
        rcases hproperties.2 property hproperty with hfold | ⟨entry, hentry⟩
        · rcases mem_foldl_mergeProperty hfold with hbefore | hmem
          · exact .inl hbefore
          · obtain ⟨entry, -, hentry⟩ := exists_related hadded.flip hmem
            exact .inr ⟨entry, PropertyOf.widen hentry (.refl before) hafter⟩
        · exact .inr ⟨entry, hentry.widen hmiddle (.refl after)⟩

/-- Between two states, all parts of a schema were converted, and each type was made
from one of them. What the members of an intersection refer to in vain was recorded. -/
structure PartsMade (setting : Setting) (convert : Converter) (view : View)
    (before after : Context) (types : List ValueType) : Prop where
  told : MembersTold setting view after
  parts : ∀ part code, HasPart setting view part code →
    ∃ converted, Made convert before after part (some code) converted
  types : ∀ type ∈ types, ∃ part loc converted, Made convert before after part loc converted ∧
    type.name? = converted.type.name?

theorem gives_typeBody {view : View} {shape : Shape} (hshape : view.conversionShape = .ok shape)
    (hkind : shape = .object ∨ shape = .intersection) :
    Gives before (typeBody setting convert view shape) fun body after =>
      PartsMade setting convert view before after (body.1.map Property.type) := by
  rcases hkind with rfl | rfl
  · refine (gives_objectBody hconvert view).imp fun body after _ hproperties =>
      ⟨.of_shape hshape nofun, ?_, ?_⟩
    · intro part code hpart
      cases hpart with
      | property _ hentry =>
          obtain ⟨_, -, converted, hmade, -⟩ := exists_related hproperties hentry
          exact ⟨converted, hmade⟩
      | inherited hother | member hother => simp [hshape] at hother
    · intro type htype
      obtain ⟨property, hproperty, rfl⟩ := List.mem_map.mp htype
      obtain ⟨entry, -, converted, hmade, hname⟩ := exists_related hproperties.flip hproperty
      exact ⟨_, _, converted, hmade, hname⟩
  · refine .bind (gives_intersectionParts _) fun parts start hstart hparts => ?_
    refine .bind (gives_mergedProperties hconvert _ _) fun properties stop hstop hproperties => ?_
    refine .bind .lift fun rules after hafter _ => .pure ⟨?_, ?_, ?_⟩
    · have htold : MembersTold setting view start := fun _ => hparts.told
      exact htold.grows (hstop.trans hafter)
    · intro part code hpart
      cases hpart with
      | @inherited owner entry _ howner hentry =>
          obtain ⟨⟨member, hmember, hother⟩, htype⟩ := howner
          have hmem := hparts.taken member hmember owner hother htype
          obtain ⟨_, converted, hmade, -⟩ := hproperties.1 owner hmem entry hentry
          exact ⟨converted, hmade.widen hstart hafter⟩
      | property hother | member hother => simp [hshape] at hother
    · intro type htype
      obtain ⟨property, hproperty, rfl⟩ := List.mem_map.mp htype
      obtain hnone | ⟨entry, converted, hmade, hname⟩ := hproperties.2 property hproperty
      · exact absurd hnone List.not_mem_nil
      · exact ⟨_, _, converted, hmade.widen hstart hafter, hname⟩

theorem gives_alternatives (members : List View) :
    Gives before (alternatives convert members) fun found after =>
      List.Forall₂ (fun member alternative => ∃ converted,
        Made convert before after member (some member.code) converted ∧
          alternative.type = converted.type) members found := by
  induction members generalizing before with
  | nil => exact .pure .nil
  | cons member rest ih =>
      refine .bind (gives_call hconvert _ _) fun converted middle hmiddle hmade => ?_
      refine .bind ih fun others after hafter hothers => .pure (.cons ?_ ?_)
      · exact ⟨converted, hmade.widen (.refl before) hafter, rfl⟩
      · refine hothers.imp fun _ _ ⟨other, hother, htype⟩ => ?_
        exact ⟨other, hother.widen hmiddle (.refl after), htype⟩

omit hconvert in
theorem gives_keep (fits : ValueType → Bool) (problem : Problem) (found : List Alternative) :
    Gives before (keep setting fits problem found) fun kept _ =>
      ∀ type ∈ kept, ∃ alternative ∈ found, alternative.type = type := by
  induction found generalizing before with
  | nil => exact .pure fun _ htype => absurd htype List.not_mem_nil
  | cons first rest ih =>
      have hrest : ∀ kept : List ValueType,
          (∀ type ∈ kept, ∃ alternative ∈ rest, alternative.type = type) →
          ∀ type ∈ kept, ∃ alternative ∈ first :: rest, alternative.type = type := by
        intro kept hkept type htype
        obtain ⟨alternative, hmem, heq⟩ := hkept type htype
        exact ⟨alternative, List.mem_cons_of_mem _ hmem, heq⟩
      unfold keep
      split
      · refine .bind ih fun kept _ _ hkept => .pure fun type htype => ?_
        rcases List.mem_cons.mp htype with rfl | hmem
        · exact ⟨first, List.mem_cons_self, rfl⟩
        · exact hrest kept hkept type hmem
      · exact .bind (.report _ _ _) fun _ _ _ _ => ih.imp fun kept _ _ => hrest kept

theorem gives_unionBody {view : View} (hshape : view.conversionShape = .ok .union) :
    Gives before (unionBody setting convert view) fun body after =>
      PartsMade setting convert view before after body.members := by
  refine .bind (gives_alternatives hconvert _) fun found middle hmiddle hfound => ?_
  -- The members that are kept come from the alternatives, whichever are kept.
  have hkept : ∀ (kept : List ValueType) (after : Context), middle.Grows after →
      (∀ type ∈ kept, ∃ alternative ∈ found, alternative.type = type) →
      PartsMade setting convert view before after kept := by
    intro kept after hafter htypes
    refine ⟨.of_shape hshape nofun, fun part code hpart => ?_, fun type htype => ?_⟩
    · cases hpart with
      | member _ hmember =>
          obtain ⟨_, -, converted, hmade, -⟩ := exists_related hfound hmember
          exact ⟨converted, hmade.widen (.refl before) hafter⟩
      | property hother | inherited hother => simp [hshape] at hother
    · obtain ⟨alternative, hmem, rfl⟩ := htypes type htype
      obtain ⟨_, -, converted, hmade, heq⟩ := exists_related hfound.flip hmem
      exact ⟨_, _, converted, hmade.widen (.refl before) hafter, by rw [heq]⟩
  cases discriminatorOf? view with
  | some discriminator =>
      have hdiscriminated : ∀ start, middle.Grows start → Gives start (do
          let kept ← keep setting (!·.isPrimitive) .primitiveDiscriminated found
          return ⟨.discriminated, kept, some discriminator⟩ : Action UnionBody)
          fun body after => PartsMade setting convert view before after body.members :=
        fun start hstart => .bind (gives_keep _ _ _) fun kept after hafter hmem =>
          .pure (hkept kept after (hstart.trans hafter) hmem)
      dsimp only
      split
      · exact .bind (.report _ _ _) fun _ start hstart _ => hdiscriminated start hstart
      · exact hdiscriminated middle (.refl middle)
  | none =>
      cases found with
      | nil =>
          refine .pure (hkept [] middle (.refl middle) fun _ htype => ?_)
          exact absurd htype List.not_mem_nil
      | cons first rest =>
          exact .bind (gives_keep _ _ _) fun kept after hafter hmem =>
            .pure (hkept kept after hafter hmem)

end Parts

/-! ### Whole schemas -/

/-- Where the type of a schema comes from, for a conversion that returns. Between the two
states, everything was converted that the type depends on. -/
inductive Yields (setting : Setting) (convert : Converter) (view : View)
    (before after : Context) : ValueType → Prop
  | target {target : View} {loc : Option LocationCode} {converted : Converted}
      (htarget : RefersTo setting view target)
      (hfree : target.pointer ∈ before.chain → Named target)
      (hmade : Made convert before after target loc converted) :
      Yields setting convert view before after converted.type
  | circular {reference target : View} (hreference : view.reference? = some reference)
      (htarget : RefersTo setting view target) (hchain : target.pointer ∈ before.chain)
      (hrecorded : circularViolation setting reference ∈ after.violations)
      (hlax : setting.options.strictReferenceCycles = false) :
      Yields setting convert view before after .untyped
  | nowhere {reference : View} (hdangles : Dangles setting view reference)
      (hrecorded : unresolvedViolation setting reference ∈ after.violations) :
      Yields setting convert view before after .untyped
  | items {item : View} {converted : Converted} (hitem : ListsItem view item)
      (hmade : Made convert before after item (some item.code) converted) :
      Yields setting convert view before after { converted.type with isArray := true }
  | plain {type : ValueType} {shape : Shape} (hshape : view.conversionShape = .ok shape)
      (hunnamed : shape.isNamed = false) (hreference : shape ≠ .reference)
      (hitem : ∀ item, ¬ ListsItem view item) (hname : type.name? = none) :
      Yields setting convert view before after type
  | unnamed {shape : Shape} (hshape : view.conversionShape = .ok shape)
      (hnamed : shape.isNamed = true) (hname : setting.naming.infer view = .ok none) :
      Yields setting convert view before after .untyped
  | taken {name : Label} {shape : Shape} (hshape : view.conversionShape = .ok shape)
      (hnamed : shape.isNamed = true) (hname : setting.naming.infer view = .ok (some name))
      {owner : Entry} (howner : before.lookup name.value = some owner)
      (hrecorded : owner.source ≠ view.pointer → setting.options.reportDuplicateNames = true →
        collision setting view name owner.source ∈ after.violations) :
      Yields setting convert view before after (.named name)
  | entry {name : Label} {shape : Shape} {kind : EntryKind}
      (hshape : view.conversionShape = .ok shape) (hkind : entryKind? shape = some kind)
      (hname : setting.naming.infer view = .ok (some name))
      (hentry : after.HasEntry kind name.value view.pointer)
      (htold : MembersTold setting view after)
      (hparts : ∀ part code, HasPart setting view part code →
        ∃ converted, Made convert before after part (some code) converted) :
      Yields setting convert view before after (.named name)

/-- Where the type of a reference comes from, for a conversion that returns. -/
inductive Followed (setting : Setting) (convert : Converter) (view : View)
    (loc : Option LocationCode) (before after : Context) : ValueType → Prop
  | target {target : View} {converted : Converted} (htarget : RefersTo setting view target)
      (hfree : target.pointer ∈ before.chain → Named target)
      (hmade : Made convert before after target loc converted) :
      Followed setting convert view loc before after converted.type
  | circular {reference target : View} (hreference : view.reference? = some reference)
      (htarget : RefersTo setting view target) (hunnamed : Unnamed target)
      (hchain : target.pointer ∈ before.chain)
      (hrecorded : circularViolation setting reference ∈ after.violations)
      (hlax : setting.options.strictReferenceCycles = false) :
      Followed setting convert view loc before after .untyped
  | nowhere {reference : View} (hdangles : Dangles setting view reference)
      (hrecorded : unresolvedViolation setting reference ∈ after.violations) :
      Followed setting convert view loc before after .untyped

theorem Followed.yields {setting : Setting} {convert : Converter} {view : View}
    {loc : Option LocationCode} {before after : Context} {type : ValueType}
    (h : Followed setting convert view loc before after type) :
    Yields setting convert view before after type := by
  cases h with
  | target htarget hfree hmade => exact .target htarget hfree hmade
  | circular hreference htarget _ hchain hrecorded hlax =>
      exact .circular hreference htarget hchain hrecorded hlax
  | nowhere hdangles hrecorded => exact .nowhere hdangles hrecorded

theorem Yields.widen {setting : Setting} {convert : Converter} {view : View}
    {before start after : Context} {type : ValueType}
    (h : Yields setting convert view start after type) (hstart : before.Grows start)
    (hlookup : ∀ name, start.lookup name = before.lookup name) :
    Yields setting convert view before after type := by
  cases h with
  | target htarget hfree hmade =>
      exact .target htarget (hstart.chain ▸ hfree) (hmade.widen hstart (.refl after))
  | circular hreference htarget hchain hrecorded hlax =>
      exact .circular hreference htarget (hstart.chain ▸ hchain) hrecorded hlax
  | nowhere hdangles hrecorded => exact .nowhere hdangles hrecorded
  | items hitem hmade => exact .items hitem (hmade.widen hstart (.refl after))
  | plain hshape hunnamed hreference hitem hname =>
      exact .plain hshape hunnamed hreference hitem hname
  | unnamed hshape hnamed hname => exact .unnamed hshape hnamed hname
  | taken hshape hnamed hname howner hrecorded =>
      exact .taken hshape hnamed hname (hlookup _ ▸ howner) hrecorded
  | entry hshape hkind hname hentry htold hparts =>
      refine .entry hshape hkind hname hentry htold fun part code hpart => ?_
      obtain ⟨converted, hmade⟩ := hparts part code hpart
      exact ⟨converted, hmade.widen hstart (.refl after)⟩

section Whole

variable {setting : Setting} {convert : Converter} {view : View} {before : Context}

theorem gives_claim (name : Label) :
    Gives before (Action.claim setting name view) fun claimed after =>
      if claimed then before.lookup name.value = none ∧ after = before
      else ∃ owner, before.lookup name.value = some owner ∧ (owner.source ≠ view.pointer →
        setting.options.reportDuplicateNames = true →
          collision setting view name owner.source ∈ after.violations) := by
  refine .bind .get ?_
  rintro state middle _ ⟨rfl, rfl⟩
  cases howner : middle.lookup name.value with
  | none => exact .pure ⟨rfl, rfl⟩
  | some owner =>
      dsimp only
      split
      · refine .bind (.report _ _ _) ?_
        rintro _ after _ rfl
        exact .pure ⟨owner, rfl, fun _ _ => Context.mem_violations_record _ _⟩
      next hquiet => exact .pure ⟨owner, rfl, fun hother hset => by simp_all⟩

theorem gives_named {declare : Label → Action Unit} {shape : Shape} {kind : EntryKind}
    (hshape : view.conversionShape = .ok shape) (hkind : entryKind? shape = some kind)
    (hdeclare : ∀ name, Declares setting view before name →
      Gives before (declare name) fun _ after =>
        after.HasEntry kind name.value view.pointer ∧ MembersTold setting view after ∧
          ∀ part code, HasPart setting view part code →
            ∃ converted, Made convert before after part (some code) converted) :
    Gives before (Action.named setting view declare) fun type after =>
      Yields setting convert view before after type := by
  refine .bind .lift fun found middle _ hfound => ?_
  obtain ⟨hfound, rfl⟩ := hfound
  have hnamed : shape.isNamed = true := isNamed_iff.mpr ⟨kind, hkind⟩
  cases found with
  | none => exact .pure (.unnamed hshape hnamed hfound)
  | some name =>
      refine .bind (gives_claim name) fun claimed start hstart hclaimed => ?_
      cases claimed with
      | true =>
          obtain ⟨hfree, rfl⟩ := hclaimed
          refine .bind (hdeclare name ⟨hfound, hfree⟩) fun _ after _ hafter => .pure ?_
          exact .entry hshape hkind hfound hafter.1 hafter.2.1 hafter.2.2
      | false =>
          obtain ⟨owner, howner, hrecorded⟩ := by simpa using hclaimed
          exact .pure (.taken hshape hnamed hfound howner hrecorded)

section Entries

variable (hconvert : Continues convert) {loc : Option LocationCode}

include hconvert

theorem gives_typeEntry {origin : Origin} {shape : Shape}
    (hshape : view.conversionShape = .ok shape)
    (hkind : shape = .object ∨ shape = .intersection) :
    Gives before (typeEntry setting origin (typeBody setting convert view shape) view loc)
      fun type after => Yields setting convert view before after type := by
  refine gives_named hshape (entryKind?_of_type hkind) fun name hname => ?_
  refine .bind (.update (Context.Extends.addType hname.2).grows) ?_
  rintro _ opened hopened rfl
  have hentry := (Context.hasEntry_addType_iff (newType view name loc) hname.2).mpr
    (.inr ⟨rfl, rfl, rfl⟩)
  -- The entry is there from now on, whatever its body does.
  refine .bind (.note _) fun _ start hstart _ => ?_
  refine .bind (gives_typeBody hconvert hshape hkind) fun body stop hstop hparts => ?_
  refine (Gives.update (.completeType stop _ _ _)).imp fun _ after hafter _ =>
    ⟨?_, hparts.told.grows hafter, ?_⟩
  · exact ((hstart.trans hstop).trans hafter).entries _ _ _ hentry
  · intro part code hpart
    obtain ⟨converted, hmade⟩ := hparts.parts part code hpart
    exact ⟨converted, hmade.widen (hopened.trans hstart) hafter⟩

theorem gives_object (hshape : view.conversionShape = .ok .object) :
    Gives before (object setting convert view loc) fun type after =>
      Yields setting convert view before after type := by
  have hbody : objectBody setting convert view = typeBody setting convert view .object := rfl
  rw [object, hbody]
  exact gives_typeEntry hconvert hshape (.inl rfl)

theorem gives_intersection (hshape : view.conversionShape = .ok .intersection) :
    Gives before (intersection setting convert view loc) fun type after =>
      Yields setting convert view before after type := by
  have hbody : intersectionBody setting convert view =
      typeBody setting convert view .intersection := rfl
  rw [intersection, hbody]
  exact gives_typeEntry hconvert hshape (.inr rfl)

theorem gives_union (hshape : view.conversionShape = .ok .union) :
    Gives before (union setting convert view loc) fun type after =>
      Yields setting convert view before after type := by
  refine gives_named hshape rfl fun name hname => ?_
  refine .bind (.update (Context.Extends.addUnion hname.2).grows) ?_
  rintro _ opened hopened rfl
  have hentry := (Context.hasEntry_addUnion_iff (newUnion view name loc) hname.2).mpr
    (.inr ⟨rfl, rfl, rfl⟩)
  refine .bind (.note _) fun _ start hstart _ => ?_
  refine .bind (gives_unionBody hconvert hshape) fun body stop hstop hparts => ?_
  refine (Gives.update (.completeUnion stop _ _ _ _)).imp fun _ after hafter _ =>
    ⟨?_, hparts.told.grows hafter, ?_⟩
  · exact ((hstart.trans hstop).trans hafter).entries _ _ _ hentry
  · intro part code hpart
    obtain ⟨converted, hmade⟩ := hparts.parts part code hpart
    exact ⟨converted, hmade.widen (hopened.trans hstart) hafter⟩

omit hconvert in
theorem gives_stringEnum {members : List View} (hshape : view.conversionShape = .ok .enumeration) :
    Gives before (stringEnum setting view members loc) fun type after =>
      Yields setting convert view before after type := by
  refine gives_named hshape rfl fun name hname => ?_
  refine .bind (.update (Context.Extends.addEnum hname.2).grows) ?_
  rintro _ opened hopened rfl
  have hentry := (Context.hasEntry_addEnum_iff (newEnum view members name loc) hname.2).mpr
    (.inr ⟨rfl, rfl, rfl⟩)
  refine (Gives.note _).imp fun _ after hafter _ =>
    ⟨hafter.entries _ _ _ hentry, .of_shape hshape nofun, ?_⟩
  intro part code hpart
  cases hpart with
  | property hother | inherited hother | member hother => simp [hshape] at hother

/-- The type of an array: that of its items, if they have a schema of their own. -/
theorem gives_arrayType : Gives before (array setting convert view) fun type after =>
    (∃ item converted, view.items? = some (.one item) ∧
      Made convert before after item (some item.code) converted ∧
      type = { converted.type with isArray := true }) ∨
    (∀ item, view.items? ≠ some (.one item)) ∧ type = .untypedArray := by
  unfold array
  split
  next hitems => exact .pure (.inr ⟨by simp [hitems], rfl⟩)
  next item hitems =>
    refine .bind (gives_call hconvert _ _) fun converted after _ hmade => .pure ?_
    exact .inl ⟨item, converted, hitems, hmade, rfl⟩
  next items hitems =>
    split
    · exact .bind (.note _) fun _ _ _ _ => .throw
    · exact .bind (.report _ _ _) fun _ _ _ _ => .pure (.inr ⟨by simp [hitems], rfl⟩)

theorem gives_array (hshape : view.conversionShape = .ok .array) :
    Gives before (array setting convert view) fun type after =>
      Yields setting convert view before after type := by
  refine (gives_arrayType hconvert).imp fun type after _ htype => ?_
  rcases htype with ⟨item, converted, hitem, hmade, rfl⟩ | ⟨hnone, rfl⟩
  · exact .items ⟨hshape, hitem⟩ hmade
  · exact .plain hshape rfl nofun (fun item hitem => hnone item hitem.2) rfl

omit hconvert in
theorem gives_primitive {shape : Shape} (hshape : view.conversionShape = .ok shape)
    (hunnamed : shape.isNamed = false) (hreference : shape ≠ .reference) (harray : shape ≠ .array) :
    Gives before (primitive setting view loc) fun type after =>
      Yields setting convert view before after type := by
  have hplain : ∀ after type, type.name? = none → Yields setting convert view before after type :=
    fun _ _ hname => .plain hshape hunnamed hreference
      (fun item hitem => harray (Except.ok.inj (hshape.symm.trans hitem.1))) hname
  unfold primitive
  split
  · exact .pure (hplain _ _ rfl)
  · exact .bind .lift fun _ _ _ _ => .bind .lift fun _ _ _ _ => .pure (hplain _ _ rfl)

omit hconvert in
theorem gives_placeholder {key : Str} {problem : Problem} {shape : Shape}
    (hshape : view.conversionShape = .ok shape) (hunnamed : shape.isNamed = false)
    (hreference : shape ≠ .reference) (harray : shape ≠ .array) :
    Gives before (placeholder setting view key problem) fun type after =>
      Yields setting convert view before after type := by
  have hplain : ∀ after, Yields setting convert view before after .untyped :=
    fun _ => .plain hshape hunnamed hreference
      (fun item hitem => harray (Except.ok.inj (hshape.symm.trans hitem.1))) rfl
  unfold placeholder
  split
  · exact .bind (.report _ _ _) fun _ _ _ _ => .pure (hplain _)
  · exact .pure (hplain _)

theorem gives_enumeration (hshape : view.shape = .ok .enumeration) :
    Gives before (enumeration setting convert view loc) fun type after =>
      Yields setting convert view before after type := by
  rw [enumeration_eq]
  refine .bind .lift fun isString middle _ hstring => ?_
  obtain ⟨hstring, rfl⟩ := hstring
  cases isString with
  | true => exact gives_stringEnum (conversionShape_of_stringEnum hshape hstring)
  | false =>
      have hconversion := conversionShape_of_otherEnum hshape hstring
      have htype : ∀ current, Gives current (byDeclaredType setting convert view loc)
          fun type after => Yields setting convert view current after type := by
        intro current
        refine .bind .lift ?_
        rintro shape _ _ ⟨hshape, rfl⟩
        rw [hshape] at hconversion
        rcases shapeOfType_cases hshape with rfl | rfl | rfl
        · exact gives_object hconvert hconversion
        · exact gives_array hconvert hconversion
        · exact gives_primitive hconversion rfl nofun nofun
      dsimp only
      split
      · contradiction
      · split
        · refine .bind (.report _ _ _) ?_
          rintro _ start hstart rfl
          refine (htype _).imp fun _ _ _ hyields => hyields.widen hstart fun name => ?_
          exact Context.lookup_record _ _ name
        · exact htype _

theorem gives_byShape {shape : Shape} (hshape : view.shape = .ok shape)
    (hreference : view.reference? = none) :
    Gives before (byShape setting convert view loc shape) fun type after =>
      Yields setting convert view before after type := by
  have hconversion := conversionShape_of_shape hshape
  cases shape with
  | intersection => exact gives_intersection hconvert (hconversion nofun)
  | anyOf => exact gives_placeholder (hconversion nofun) rfl nofun nofun
  | union => exact gives_union hconvert (hconversion nofun)
  | typeList => exact gives_placeholder (hconversion nofun) rfl nofun nofun
  | enumeration => exact gives_enumeration hconvert hshape
  | object => exact gives_object hconvert (hconversion nofun)
  | array => exact gives_array hconvert (hconversion nofun)
  | reference => exact absurd hreference (reference?_of_shape hshape)
  | primitive => exact gives_primitive (hconversion nofun) rfl nofun nofun

omit hconvert in
/-- Only a conversion that is lax returns from a refusal, and it leaves a record. -/
theorem gives_refuseCircular {reference : View} :
    Gives before (refuseCircular setting view reference) fun converted after =>
      converted = ⟨.untyped, []⟩ ∧ setting.options.strictReferenceCycles = false ∧
        circularViolation setting reference ∈ after.violations := by
  unfold refuseCircular
  split
  · exact .bind (.note _) fun _ _ _ _ => .throw
  next hlax =>
    refine .bind (.report _ _ _) ?_
    rintro _ stop _ rfl
    exact .pure ⟨rfl, by simpa using hlax, Context.mem_violations_record _ _⟩

theorem gives_followed {reference : View} (hreference : view.reference? = some reference) :
    Gives before (follow setting convert view reference loc) fun converted after =>
      Followed setting convert view loc before after converted.type := by
  rw [follow_eq]
  refine .bind (gives_dereference hreference) fun found middle hmiddle hfound => ?_
  cases found with
  | none =>
      have hdangles : Dangles setting view reference :=
        ⟨hreference, fun target htarget => by simpa using (hfound.1 target).mpr htarget⟩
      exact .pure (.nowhere hdangles (hfound.2 rfl))
  | some target =>
      have htarget := (hfound.1 target).mp rfl
      have hgo : ∀ current, before.Grows current →
          (target.pointer ∈ before.chain → Named target) →
          Gives current (convertTarget convert view loc target) fun converted after =>
            Followed setting convert view loc before after converted.type :=
        fun current hcurrent hfree => .bind (gives_call hconvert _ _) fun converted after _ hmade =>
          have hfollowed : Followed setting convert view loc before after converted.type :=
            .target htarget hfree (hmade.widen hcurrent (.refl after))
          .pure hfollowed
      refine .bind .get ?_
      rintro state after _ ⟨rfl, rfl⟩
      by_cases hchain : target.pointer ∈ after.chain
      · rw [if_pos hchain]
        refine .bind .lift ?_
        rintro shape _ _ ⟨htargetShape, rfl⟩
        cases hnamed : shape.isNamed with
        | true => exact hgo _ hmiddle fun _ => ⟨shape, htargetShape, hnamed⟩
        | false =>
            refine gives_refuseCircular.imp fun converted stop _ hrefused => ?_
            obtain ⟨rfl, hlax, hrecorded⟩ := hrefused
            exact .circular hreference htarget ⟨shape, htargetShape, hnamed⟩
              (hmiddle.chain ▸ hchain) hrecorded hlax
      · rw [if_neg hchain]
        exact hgo _ hmiddle fun hmem => absurd (hmiddle.chain ▸ hmem) hchain

theorem gives_follow {reference : View} (hreference : view.reference? = some reference) :
    Gives before (follow setting convert view reference loc) fun converted after =>
      Yields setting convert view before after converted.type :=
  (gives_followed hconvert hreference).imp fun _ _ _ hfollowed => hfollowed.yields

theorem gives_shaped {shape : Shape} (hshape : view.shape = .ok shape) :
    Gives before (do
      match view.reference? with
      | some reference => follow setting convert view reference loc
      | none =>
          let type ← byShape setting convert view loc shape
          return ⟨type, view.paragraphs.getD []⟩) fun converted after =>
        Yields setting convert view before after converted.type := by
  split
  next reference hreference => exact gives_follow hconvert hreference
  next hreference =>
    exact .bind (gives_byShape hconvert hshape hreference) fun type after _ hyields => .pure hyields

theorem gives_dispatch : Gives before (dispatch setting convert view loc) fun converted after =>
    Yields setting convert view before after converted.type := by
  refine .bind .lift ?_
  rintro shape _ _ ⟨hshape, rfl⟩
  refine .bind (.note _) ?_
  rintro _ start hstart rfl
  exact (gives_shaped hconvert hshape).imp fun _ _ _ hyields => hyields.widen hstart fun _ => rfl

theorem gives_visitDefinitions (entries : List Schema.Entry) :
    Gives before (visitDefinitions setting convert entries) fun _ after =>
      ∀ entry ∈ entries, entry.key.name ∉ setting.options.ignoreDefinitions →
        entry.view.pointer ∈ after.visited := by
  induction entries generalizing before with
  | nil => exact .pure fun _ hentry => absurd hentry List.not_mem_nil
  | cons entry rest ih =>
      -- The first definition is ignored, was visited before, or is visited now.
      have hrest : ∀ current, (entry.key.name ∉ setting.options.ignoreDefinitions →
          entry.view.pointer ∈ current.visited) →
          Gives current (visitDefinitions setting convert rest) fun _ after =>
            ∀ entry' ∈ entry :: rest, entry'.key.name ∉ setting.options.ignoreDefinitions →
              entry'.view.pointer ∈ after.visited := by
        refine fun current hentry => ih.imp fun _ after hafter hothers other hother hwanted => ?_
        rcases List.mem_cons.mp hother with rfl | hmem
        · exact hafter.visited.subset (hentry hwanted)
        · exact hothers other hmem hwanted
      refine .bind .get ?_
      rintro state current _ ⟨rfl, rfl⟩
      split
      next hskip =>
        refine hrest _ fun hwanted => ?_
        simpa [hwanted] using hskip
      next =>
        refine .bind (.update (Context.Extends.visit _ _).grows) ?_
        rintro _ start _ rfl
        refine .bind (gives_call hconvert _ _) fun _ stop hstop _ => hrest stop fun _ => ?_
        exact hstop.visited.subset List.mem_cons_self

/-- A schema is converted with its pointer on the chain, after its definitions. -/
theorem gives_step : Gives before (step setting convert view loc) fun converted after =>
    ∃ start stop, before.Grows start ∧ (start.enter view.pointer).Grows stop ∧
      after = stop.leave ∧
      Yields setting convert view (start.enter view.pointer) stop converted.type := by
  refine .bind (gives_visitDefinitions hconvert _) fun _ start hstart _ => ?_
  refine .within ((gives_dispatch hconvert).imp fun _ stop hstop hyields _ => ?_)
  exact ⟨start, stop, hstart, hstop, rfl, hyields⟩

end Entries

end Whole

/-! ### Outcomes -/

/-- The analysis of a document is the conversion of its root from the empty state. -/
theorem returns_of_analyze {setting : Setting} {converted : Converted} {context : Context}
    (h : analyze setting = (.ok converted, context)) :
    (convertWithin setting setting.depth (View.root setting.document)
      (some (View.root setting.document).code)).Returns {} converted context :=
  h

/-- A text that is converted was read and analyzed, and the outcome holds what the analysis
found. -/
theorem convertText_eq_ok {text path : String} {options : Options} {outcome : Outcome}
    (h : convertText text path options = .ok outcome) :
    ∃ document converted context label, Json.read text = .ok document ∧
      analyze ⟨document, path, options⟩ = (.ok converted, context) ∧
      outcome = context.outcome ⟨document, path, options⟩ label := by
  unfold convertText at h
  split at h
  · exact absurd h nofun
  next document hread =>
    split at h
    · exact absurd h nofun
    next found hfound =>
      obtain rfl := Except.ok.inj h
      unfold Analysis.outcome at hfound
      split at hfound
      · exact absurd hfound nofun
      next converted context hreturns =>
        obtain ⟨label, -, rfl⟩ := map_eq_ok.mp hfound
        exact ⟨document, converted, context, label, hread, hreturns, rfl⟩

end Schemata.Analysis

namespace Schemata

/-- A text that can be read is converted or refused as its tree is. -/
theorem convertText_of_read {text : String} {tree : Json.Node} (h : Json.read text = .ok tree)
    (path : String) (options : Options) :
    convertText text path options =
      (Analysis.outcome ⟨tree, path, options⟩).1.mapError .refused := by
  unfold convertText
  rw [h]
  dsimp only
  cases (Analysis.outcome ⟨tree, path, options⟩).1 with
  | error | ok => rfl

/-- What is known of the outcome for a tree is known of the conversion of a text of it. -/
theorem exists_convertText {text path : String} {options : Options} {tree : Json.Node}
    {α : Type} {f : Outcome → α} {value : α} (hread : Json.read text = .ok tree)
    (h : (Analysis.outcome ⟨tree, path, options⟩).1.map f = .ok value) :
    ∃ outcome, convertText text path options = .ok outcome ∧ f outcome = value := by
  obtain ⟨found, hfound, hvalue⟩ := map_eq_ok.mp h
  exact ⟨found, by rw [convertText_of_read hread, hfound]; rfl, hvalue⟩

end Schemata
