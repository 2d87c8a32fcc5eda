import Schemata.Proofs.Results

/-!
# Consistent states

Names are unique among the entries of all kinds, every entry is found under its own
name, and nothing refers to an entry that is not there. This holds while the bodies of
entries are still being read, and after failures.
-/

namespace Schemata.Analysis

open Schema Source

namespace Context

/-- The names of all entries. -/
def names (context : Context) : List Str :=
  context.typeRegistry.names ++ context.enumRegistry.names ++ context.unionRegistry.names

/-- If a type refers to an entry, the entry is there. -/
def Knows (context : Context) (type : ValueType) : Prop :=
  ∀ name, type.name? = some name → name.value ∈ context.names

structure Consistent (context : Context) : Prop where
  names : context.names.Nodup
  typeNames : context.typeRegistry.All fun key type => key = type.name.value
  enumNames : context.enumRegistry.All fun key type => key = type.name.value
  unionNames : context.unionRegistry.All fun key type => key = type.name.value
  properties : context.typeRegistry.All fun _ type =>
    ∀ property ∈ type.properties, context.Knows property.type
  members : context.unionRegistry.All fun _ type => ∀ member ∈ type.members, context.Knows member

theorem mem_names_iff {context : Context} {name : Str} :
    name ∈ context.names ↔ context.lookup name ≠ none := by
  rw [Ne, lookup_eq_none_iff, names]
  simp only [List.mem_append]
  by_cases htypes : name ∈ context.typeRegistry.names
  · simp [htypes]
  · by_cases henums : name ∈ context.enumRegistry.names
    · simp [htypes, henums]
    · simp [htypes, henums]

/-- A new name may stand anywhere among the others. -/
theorem nodup_of_new {first second : List Str} {name : Str}
    (hnew : name ∉ first ++ second) (h : (first ++ second).Nodup) :
    (first ++ name :: second).Nodup :=
  List.perm_middle.nodup_iff.mpr (List.nodup_cons.mpr ⟨hnew, h⟩)

variable {before after context : Context}

theorem Grows.knows {type : ValueType} (h : before.Grows after) (hknows : before.Knows type) :
    after.Knows type := fun name hname =>
  mem_names_iff.mpr (h.lookup (mem_names_iff.mp (hknows name hname)))

theorem knows_of_name?_eq_none {type : ValueType} (h : type.name? = none) :
    context.Knows type := fun _ hname => absurd (h.symm.trans hname) nofun

namespace Consistent

theorem empty : Consistent {} :=
  ⟨List.nodup_nil, fun _ _ => nofun, fun _ _ => nofun, fun _ _ => nofun, fun _ _ => nofun,
    fun _ _ => nofun⟩

/-- What is consistent does not depend on anything but the entries. -/
theorem of_entries (h : before.Consistent) (htypes : after.typeRegistry = before.typeRegistry)
    (henums : after.enumRegistry = before.enumRegistry)
    (hunions : after.unionRegistry = before.unionRegistry) : after.Consistent := by
  have hnames : after.names = before.names := by
    rw [Context.names, Context.names, htypes, henums, hunions]
  have hknows : ∀ type, before.Knows type → after.Knows type := fun _ hknown name hname =>
    hnames ▸ hknown name hname
  refine ⟨hnames ▸ h.names, htypes ▸ h.typeNames, henums ▸ h.enumNames, hunions ▸ h.unionNames,
    ?_, ?_⟩
  · rw [htypes]
    exact h.properties.imp fun _ _ hall property hmem => hknows _ (hall property hmem)
  · rw [hunions]
    exact h.members.imp fun _ _ hall member hmem => hknows _ (hall member hmem)

theorem record (h : before.Consistent) (violation : Violation) :
    (before.record violation).Consistent := by
  unfold Context.record
  split
  · exact h
  · exact h.of_entries rfl rfl rfl

theorem not_mem_names {name : Str} (hnew : before.lookup name = none) :
    name ∉ before.names := fun hmem => mem_names_iff.mp hmem hnew

/-- What the entries that were there refer to stays there. -/
theorem references (h : before.Consistent) (hgrows : before.Grows after) :
    (before.typeRegistry.All fun _ type =>
      ∀ property ∈ type.properties, after.Knows property.type) ∧
    before.unionRegistry.All fun _ type => ∀ member ∈ type.members, after.Knows member :=
  ⟨h.properties.imp fun _ _ hknows property hmem => hgrows.knows (hknows property hmem),
    h.members.imp fun _ _ hknows member hmem => hgrows.knows (hknows member hmem)⟩

theorem addType {type : ObjectType} (h : before.Consistent)
    (hnew : before.lookup type.name.value = none) (hproperties : type.properties = []) :
    (before.addType type).Consistent := by
  obtain ⟨hprops, hmembers⟩ := h.references (Context.Extends.addType hnew).grows
  have hfree := (lookup_eq_none_iff.mp hnew).1
  refine ⟨?_, h.typeNames.insert rfl, h.enumNames, h.unionNames,
    hprops.insert ?_, hmembers⟩
  · have hnodup := h.names
    have hother := not_mem_names hnew
    rw [Context.names, List.append_assoc] at hnodup hother ⊢
    rw [Context.addType, Registry.names_insert _ hfree, List.append_assoc]
    exact nodup_of_new hother hnodup
  · rw [hproperties]
    exact fun _ hmem => absurd hmem List.not_mem_nil

theorem addEnum {type : EnumType} (h : before.Consistent)
    (hnew : before.lookup type.name.value = none) : (before.addEnum type).Consistent := by
  obtain ⟨hprops, hmembers⟩ := h.references (Context.Extends.addEnum hnew).grows
  have hfree := (lookup_eq_none_iff.mp hnew).2.1
  refine ⟨?_, h.typeNames, h.enumNames.insert rfl, h.unionNames, hprops, hmembers⟩
  rw [Context.names, Context.addEnum, Registry.names_insert _ hfree, ← List.append_assoc,
    List.append_assoc]
  exact nodup_of_new (not_mem_names hnew) h.names

theorem addUnion {type : UnionType} (h : before.Consistent)
    (hnew : before.lookup type.name.value = none) (hmembers : type.members = []) :
    (before.addUnion type).Consistent := by
  obtain ⟨hprops, hothers⟩ := h.references (Context.Extends.addUnion hnew).grows
  have hfree := (lookup_eq_none_iff.mp hnew).2.2
  refine ⟨?_, h.typeNames, h.enumNames, h.unionNames.insert rfl, hprops,
    hothers.insert ?_⟩
  · have hnodup : (before.names ++ [type.name.value]).Nodup :=
      nodup_of_new (by simpa using not_mem_names hnew) (by simpa using h.names)
    rw [Context.names, Context.addUnion, Registry.names_insert _ hfree, ← List.append_assoc]
    exact hnodup
  · rw [hmembers]
    exact fun _ hmem => absurd hmem List.not_mem_nil

theorem completeType {name : Str} {properties : List Property} {rules : List Rule}
    (h : before.Consistent) (hknows : ∀ property ∈ properties, before.Knows property.type) :
    (before.completeType name properties rules).Consistent := by
  have hgrows := Grows.completeType before name properties rules
  obtain ⟨hprops, hmembers⟩ := h.references hgrows
  refine ⟨?_, h.typeNames.modify fun _ hname => hname, h.enumNames, h.unionNames,
    hprops.modify fun _ _ property hmem => hgrows.knows (hknows property hmem), hmembers⟩
  rw [Context.names, Context.completeType, Registry.names_modify]
  exact h.names

theorem completeUnion {name : Str} {kind : UnionKind} {members : List ValueType}
    {discriminator : Option Label} (h : before.Consistent)
    (hknows : ∀ member ∈ members, before.Knows member) :
    (before.completeUnion name kind members discriminator).Consistent := by
  have hgrows := Grows.completeUnion before name kind members discriminator
  obtain ⟨hprops, hothers⟩ := h.references hgrows
  refine ⟨?_, h.typeNames, h.enumNames, h.unionNames.modify fun _ hname => hname, hprops,
    hothers.modify fun _ _ member hmem => hgrows.knows (hknows member hmem)⟩
  rw [Context.names, Context.completeUnion, Registry.names_modify]
  exact h.names

end Consistent

end Context

variable {setting : Setting} {convert : Converter}

/-- Wherever conversions lead, they keep the state consistent. -/
def KeepsConsistent (convert : Converter) : Prop :=
  ∀ view loc before after, (convert view loc).Leads false before after →
    before.Consistent → after.Consistent

/-- What conversions return refers to entries only that are there. -/
def ReturnsKnown (convert : Converter) : Prop :=
  ∀ view loc before converted after, (convert view loc).Returns before converted after →
    after.Knows converted.type

theorem Made.knows {before after : Context} {view : View} {loc : Option LocationCode}
    {converted : Converted} (hknown : ReturnsKnown convert)
    (h : Made convert before after view loc converted) : after.Knows converted.type := by
  obtain ⟨start, stop, -, hreturns, hafter⟩ := h
  exact hafter.knows (hknown _ _ _ _ _ hreturns)

theorem PartsMade.knows {before after : Context} {view : View} {types : List ValueType}
    (hknown : ReturnsKnown convert) (h : PartsMade setting convert view before after types) :
    ∀ type ∈ types, after.Knows type := by
  intro type htype name hname
  obtain ⟨part, loc, converted, hmade, heq⟩ := h.types type htype
  exact hmade.knows hknown name (heq ▸ hname)

theorem Yields.knows {before after : Context} {view : View} {type : ValueType}
    (hknown : ReturnsKnown convert) (hgrows : before.Grows after)
    (h : Yields setting convert view before after type) : after.Knows type := by
  cases h with
  | target _ _ hmade => exact hmade.knows hknown
  | items hitem hmade => exact hmade.knows hknown
  | circular | nowhere | unnamed => exact Context.knows_of_name?_eq_none rfl
  | plain _ _ _ _ hname => exact Context.knows_of_name?_eq_none hname
  | taken _ _ _ howner _ =>
      rintro _ ⟨⟩
      exact Context.mem_names_iff.mpr (hgrows.lookup (by simp [howner]))
  | entry _ _ _ hentry _ _ =>
      rintro _ ⟨⟩
      exact Context.mem_names_iff.mpr (Context.lookup_ne_none_iff.mpr ⟨_, _, hentry⟩)

section Steps

variable {view : View} {loc : Option LocationCode}

theorem Course.consistent {returning : Bool} {opened : Option Label} {before after : Context}
    (hcontinues : Continues convert) (hkeeps : KeepsConsistent convert)
    (hknown : ReturnsKnown convert)
    (hcourse : Course setting convert view loc returning opened before after)
    (h : before.Consistent) : after.Consistent := by
  induction hcourse with
  | done => exact h
  | andThen _ _ ihFirst ihSecond => exact ihSecond (ihFirst h)
  | note _ => exact h.of_entries rfl rfl rfl
  | report _ => exact h.record _
  | convert _ hcalled => exact hkeeps _ _ _ _ ⟨hcalled.1, nofun⟩ h
  | enumEntry hname _ => exact h.addEnum hname.2
  | typeOpened hname _ _ _ ih => exact ih (h.addType hname.2 rfl)
  | typeEntry hname hshape hkind _ hbody _ ihStart ih =>
      -- The entry is empty while its body is read, and what the body returns is known then.
      refine (ih (ihStart (h.addType hname.2 rfl))).completeType fun property hproperty => ?_
      have hparts := (gives_typeBody hcontinues hshape hkind).of_returns hbody
      exact hparts.knows hknown _ (List.mem_map_of_mem hproperty)
  | unionOpened hname _ _ ih => exact ih (h.addUnion hname.2 rfl)
  | unionEntry hname hshape _ hbody _ ihStart ih =>
      apply (ih (ihStart (h.addUnion hname.2 rfl))).completeUnion
      exact ((gives_unionBody hcontinues hshape).of_returns hbody).knows hknown

theorem Conversion.consistent {before after : Context} (hcontinues : Continues convert)
    (hkeeps : KeepsConsistent convert) (hknown : ReturnsKnown convert)
    (hconversion : Conversion setting convert view loc before after) (h : before.Consistent) :
    after.Consistent := by
  induction hconversion with
  | done => exact h
  | andThen _ _ ihFirst ihSecond => exact ihSecond (ihFirst h)
  | definition _ hcalled => exact hkeeps _ _ _ _ hcalled (h.of_entries rfl rfl rfl)
  | within _ hcourse =>
      have hstart := hcourse.consistent hcontinues hkeeps hknown (h.of_entries rfl rfl rfl)
      exact hstart.of_entries rfl rfl rfl

end Steps

theorem convertWithin_known (setting : Setting) (depth : Nat) :
    ReturnsKnown (convertWithin setting depth) := by
  induction depth with
  | zero => exact fun _ _ _ _ _ hreturns => absurd hreturns nofun
  | succ depth ih =>
      intro view loc before converted after hreturns
      obtain ⟨start, stop, -, hstop, rfl, hyields⟩ :=
        (gives_step (convertWithin_continues setting depth)).of_returns hreturns
      have hknows := hyields.knows ih hstop
      exact hknows

theorem convertWithin_consistent (setting : Setting) (depth : Nat) :
    KeepsConsistent (convertWithin setting depth) := by
  induction depth with
  | zero =>
      rintro _ _ before _ ⟨rfl, -⟩ h
      exact h
  | succ depth ih =>
      rintro view loc before _ ⟨rfl, -⟩ h
      exact (conversion_step setting _ view loc before).consistent
        (convertWithin_continues setting depth) ih (convertWithin_known setting depth) h

/-! ### Sessions -/

/-- Something that is converted from outside. -/
inductive Call
  | schema (view : View) (loc : Option LocationCode)
  | property (entry : Schema.Entry)

/-- The conversions made so far: the state that they left, and the types that they returned. -/
structure Session where
  context : Context := {}
  returned : List ValueType := []

/-- Convert a schema or a property for the type of its values. -/
def Call.type (setting : Setting) : Call → Action ValueType
  | .schema view loc => do
      let converted ← Analysis.convert setting view loc
      return converted.type
  | .property entry => do
      let property ← convertProperty setting entry
      return property.type

/-- Make a call in the state that the last one left, whatever its outcome was. -/
def Session.perform (setting : Setting) (session : Session) (call : Call) : Session :=
  match (call.type setting).run.run session.context with
  | (.ok type, context) => ⟨context, session.returned ++ [type]⟩
  | (.error _, context) => ⟨context, session.returned⟩

/-- The session in which the given calls are made, in order. -/
def sessionOf (setting : Setting) (calls : List Call) : Session :=
  calls.foldl (Session.perform setting) {}

/-- From a consistent state, an action goes on to a consistent state, in which the type
that it returns is known. -/
def Proceeds (before : Context) (action : Action ValueType) : Prop :=
  action.Ensures before
    (fun type after => (after.Consistent ∧ before.Grows after) ∧ after.Knows type)
    fun _ after => after.Consistent ∧ before.Grows after

/-- What is made of a converted schema without a change of the state. -/
theorem proceeds_convert {before : Context} {view : View} {loc : Option LocationCode}
    {next : Converted → Action ValueType} (h : before.Consistent)
    (hnext : ∀ converted after, (next converted).Ensures after
      (fun type stop => stop = after ∧ type.name? = converted.type.name?)
      fun _ stop => stop = after) :
    Proceeds before (Analysis.convert setting view loc >>= next) := by
  have hleads : ∀ after, (Analysis.convert setting view loc).Leads false before after →
      after.Consistent ∧ before.Grows after := fun after hleads =>
    ⟨convertWithin_consistent setting _ _ _ _ _ hleads h,
      (convertWithin_continues setting _ _ _ _ _ hleads).grows⟩
  rw [Proceeds, Action.ensures_bind]
  refine (Action.ensures_leads fun _ => trivial).imp (fun converted after hreturns => ?_)
    fun _ after hfailed => hleads after hfailed.1
  have hafter := hleads after (hreturns.leads false)
  refine (hnext converted after).imp ?_ ?_
  · rintro type _ ⟨rfl, hname⟩
    refine ⟨hafter, fun name hsome => ?_⟩
    exact convertWithin_known setting _ _ _ _ _ _ hreturns name (hname ▸ hsome)
  · rintro _ _ rfl
    exact hafter

theorem proceeds_type (setting : Setting) {before : Context} (h : before.Consistent)
    (call : Call) :
    Proceeds before (call.type setting) := by
  cases call with
  | schema view loc => exact proceeds_convert h fun _ _ => ⟨rfl, rfl⟩
  | property entry =>
      rw [Call.type, convertProperty, property, bind_assoc]
      refine proceeds_convert h fun converted after => ?_
      simp only [Action.ensures_bind, Action.ensures_lift, Action.ensures_pure]
      refine ⟨fun own _ => ⟨fun required _ => ⟨trivial, ?_⟩, fun _ _ => trivial⟩,
        fun _ _ => trivial⟩
      -- What a property requires of its values does not change the name of their type.
      rw [ValueType.name?_withConstant]
      rfl

namespace Session

/-- The state is consistent, and nothing that was returned refers to an entry that is not
there. -/
structure Consistent (session : Session) : Prop where
  context : session.context.Consistent
  returned : ∀ type ∈ session.returned, session.context.Knows type

theorem Consistent.perform {session : Session} (h : session.Consistent) (call : Call) :
    (session.perform setting call).Consistent := by
  have hproceeds := proceeds_type setting h.context call
  unfold Proceeds Action.Ensures at hproceeds
  unfold Session.perform
  split
  next type after hrun =>
    rw [hrun] at hproceeds
    obtain ⟨⟨hafter, hgrows⟩, hknows⟩ := hproceeds
    refine ⟨hafter, fun other hother => ?_⟩
    rcases List.mem_append.mp hother with hbefore | hlast
    · exact hgrows.knows (h.returned other hbefore)
    · obtain rfl := List.mem_singleton.mp hlast
      exact hknows
  next after hrun =>
    rw [hrun] at hproceeds
    exact ⟨hproceeds.1, fun other hother => hproceeds.2.knows (h.returned other hother)⟩

end Session

/-- However often schemas and properties are converted, and whatever comes of it, the
state stays consistent. -/
theorem sessionOf_consistent (setting : Setting) (calls : List Call) :
    (sessionOf setting calls).Consistent := by
  -- Induction on the calls, from wherever the ones before have led.
  have hrun : ∀ session : Session, session.Consistent →
      (calls.foldl (Session.perform setting) session).Consistent := by
    induction calls with
    | nil => exact fun _ h => h
    | cons call rest ih => exact fun session h => ih _ (h.perform call)
  exact hrun {} ⟨.empty, fun _ htype => absurd htype List.not_mem_nil⟩

end Schemata.Analysis
