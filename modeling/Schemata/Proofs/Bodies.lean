import Schemata.Proofs.Changes

/-!
# Bodies of object types

An object type is added without properties and rules. Its body is read while it is there,
and then it is completed. A conversion that returns has completed every object type that
it added, each with what its own schema gives.
-/

namespace Schemata.Analysis

open Schema Source

/-- An object type was made of a schema that is met, and completed with the body that was
read of it. -/
structure Filled (setting : Setting) (met : View → Prop) (type : ObjectType) (view : View)
    (shape : Shape) : Prop where
  met : met view
  conversion : view.conversionShape = .ok shape
  kind : shape = .object ∨ shape = .intersection
  source : type.source = view.pointer
  body : ∃ start stop, (typeBody setting (convert setting) view shape).Returns start
    (type.properties, type.rules) stop

/-- An object type was completed on the way to a state. -/
structure FilledBy (setting : Setting) (met : View → Prop) (after : Context) (type : ObjectType)
    (view : View) (shape : Shape) : Prop extends Filled setting met type view shape where
  earlier : ∃ start stop, (typeBody setting (convert setting) view shape).Returns start
    (type.properties, type.rules) stop ∧ stop.Earlier after

theorem FilledBy.widen {setting : Setting} {met : View → Prop} {last after : Context}
    {type : ObjectType} {view : View} {shape : Shape}
    (h : FilledBy setting met last type view shape) (hafter : last.Earlier after) :
    FilledBy setting met after type view shape := by
  obtain ⟨start, stop, hreturns, hstop⟩ := h.earlier
  exact ⟨h.toFilled, start, stop, hreturns, hstop.trans hafter⟩

/-- If an action returns, every object type that is new was completed on the way. -/
structure FillsTypes (setting : Setting) (met : View → Prop) (returned : Bool)
    (before after : Context) : Prop where
  grows : before.Grows after
  types : returned = true → ∀ entry ∈ after.typeRegistry.entries,
    entry ∈ before.typeRegistry.entries ∨
      ∃ view shape, FilledBy setting met after entry.2 view shape

section Entries

variable {setting : Setting} {met : View → Prop}

namespace FillsTypes

variable {returned : Bool} {before middle after : Context}

/-- What does not touch the object types adds none. -/
theorem of_same (hgrows : before.Grows after) (hsame : after.typeRegistry = before.typeRegistry) :
    FillsTypes setting met returned before after :=
  ⟨hgrows, fun _ _ hentry => .inl (hsame ▸ hentry)⟩

theorem trans (hfirst : FillsTypes setting met true before middle)
    (hsecond : FillsTypes setting met returned middle after) :
    FillsTypes setting met returned before after := by
  refine ⟨hfirst.grows.trans hsecond.grows, fun hreturned entry hentry => ?_⟩
  rcases hsecond.types hreturned entry hentry with hmiddle | ⟨view, shape, hfilled⟩
  · refine (hfirst.types rfl entry hmiddle).imp_right ?_
    rintro ⟨view, shape, hfilled⟩
    exact ⟨view, shape, hfilled.widen hsecond.grows.earlier⟩
  · exact .inr ⟨view, shape, hfilled⟩

theorem leave {pointer : Pointer}
    (h : FillsTypes setting met returned (before.enter pointer) after) :
    FillsTypes setting met returned before after.leave := by
  refine ⟨h.grows.leave, fun hreturned entry hentry => ?_⟩
  refine (h.types hreturned entry hentry).imp_right ?_
  rintro ⟨view, shape, hfilled⟩
  exact ⟨view, shape, hfilled.widen after.earlier_leave⟩

end FillsTypes

theorem gradual_fillsTypes : Change.Gradual (FillsTypes setting met) where
  still hgrows hsame := .of_same hgrows hsame.types
  trans := .trans
  leave := .leave

theorem fillsTypes_stringEnum {members : List View} {view : View} {loc : Option LocationCode} :
    (stringEnum setting view members loc).Makes (FillsTypes setting met) := by
  refine .named gradual_fillsTypes fun name before hnew => ?_
  exact .of_same ((Context.Extends.addEnum hnew).trans (.note _ _)).grows rfl

variable {convert : Converter} {view : View} {loc : Option LocationCode}

theorem fillsTypes_union
    (hbody : (unionBody setting convert view).Makes (FillsTypes setting met)) :
    (union setting convert view loc).Makes (FillsTypes setting met) := by
  refine .named gradual_fillsTypes fun name before hnew => ?_
  have hadded : FillsTypes setting met true before
      ((before.addUnion (newUnion view name loc)).note
        (.registered .union name.value view.pointer)) :=
    .of_same ((Context.Extends.addUnion hnew).trans (.note _ _)).grows rfl
  rw [Action.ensures_bind, Action.ensures_modify, Action.ensures_bind, Action.ensures_note,
    Action.ensures_bind]
  refine (hbody _).imp (fun body after hafter => ?_) fun _ _ hafter => hadded.trans hafter
  exact (hadded.trans hafter).trans (.of_same (.completeUnion after _ _ _ _) rfl)

/-- Once the body of an object type is read, it is completed. -/
theorem filled_of_body {name : Label} {shape : Shape} {before start after : Context}
    {body : TypeBody} (hview : met view) (hshape : view.conversionShape = .ok shape)
    (hkind : shape = .object ∨ shape = .intersection) (hgrows : before.Grows start)
    (hstart : start.typeRegistry.entries =
      before.typeRegistry.entries ++ [(name.value, newType view name loc)])
    (hextends : start.Extends after) (hfills : FillsTypes setting met true start after)
    (hreturns : (typeBody setting (Analysis.convert setting) view shape).Returns start body after) :
    FillsTypes setting met true before (after.completeType name.value body.1 body.2) := by
  have hdone := Context.Grows.completeType after name.value body.1 body.2
  refine ⟨(hgrows.trans hfills.grows).trans hdone, ?_⟩
  rintro - ⟨key, type⟩ hentry
  obtain ⟨old, hold, htype⟩ := Registry.mem_entries_modify.mp hentry
  dsimp only at hold htype
  by_cases hkey : key = name.value
  · -- The entry of this name is the one that was added.
    subst hkey
    have hopen : (name.value, newType view name loc) ∈ after.typeRegistry.entries := by
      refine hextends.types.subset ?_
      rw [hstart]
      exact List.mem_append_right _ List.mem_cons_self
    rw [← Registry.get?_eq_some_iff] at hold hopen
    obtain rfl : newType view name loc = old := Option.some.inj (hopen.symm.trans hold)
    rw [if_pos rfl] at htype
    subst htype
    refine .inr ⟨view, shape, ⟨hview, hshape, hkind, rfl, start, after, hreturns⟩, ?_⟩
    exact ⟨start, after, hreturns, hdone.earlier⟩
  · rw [if_neg hkey] at htype
    subst htype
    rcases hfills.types rfl _ hold with hmem | ⟨other, otherShape, hfilled⟩
    · rw [hstart, List.mem_append, List.mem_singleton] at hmem
      exact .inl (hmem.resolve_right fun hadded => hkey (Prod.mk.inj hadded).1)
    · exact .inr ⟨other, otherShape, hfilled.widen hdone.earlier⟩

variable (hcontinues : Continues convert) (hagrees : convert.Agrees (Analysis.convert setting))

include hcontinues hagrees

theorem fillsTypes_typeEntry {origin : Origin} {shape : Shape} (hview : met view)
    (hshape : view.conversionShape = .ok shape)
    (hkind : shape = .object ∨ shape = .intersection)
    (hbody : (typeBody setting convert view shape).Makes (FillsTypes setting met)) :
    (typeEntry setting origin (typeBody setting convert view shape) view loc).Makes
      (FillsTypes setting met) := by
  refine .named gradual_fillsTypes fun name before hnew => ?_
  have hgrows := ((Context.Extends.addType hnew).trans
    (.note (before.addType (newType view name loc))
      (.registered origin name.value view.pointer))).grows
  have hstart := Registry.entries_insert (newType view name loc)
    (Context.lookup_eq_none_iff.mp hnew).1
  have hfollows : Follows setting convert view loc (some name)
      ((before.addType (newType view name loc)).note
        (.registered origin name.value view.pointer)) (typeBody setting convert view shape) _ :=
    follows_typeBody hshape hkind
  rw [Action.ensures_bind, Action.ensures_modify, Action.ensures_bind, Action.ensures_note,
    Action.ensures_bind]
  refine ((hbody _).and hfollows.recalled).imp ?_ ?_
  · rintro body after ⟨hfills, hcourse, -, hreturns⟩
    have hwhole : (typeBody setting (Analysis.convert setting) view shape).Returns _ body after :=
      (agrees_typeBody setting hagrees view shape _ (by rw [hreturns]; nofun)).trans hreturns
    exact filled_of_body hview hshape hkind hgrows hstart (hcourse.extends hcontinues) hfills hwhole
  · exact fun _ _ hafter => ⟨hgrows.trans hafter.1.grows, nofun⟩

theorem entries_fillsTypes : Change.Entries setting met (FillsTypes setting met) convert where
  type := fillsTypes_typeEntry hcontinues hagrees
  enumeration _ := fillsTypes_stringEnum
  union _ _ := fillsTypes_union

end Entries

/-- Every object type of a document was completed, if its conversion returns. -/
theorem analyze_filledBy {setting : Setting} {converted : Converted} {context : Context}
    (hreturns : analyze setting = (.ok converted, context)) :
    ∀ type ∈ context.types, ∃ view shape,
      FilledBy setting (Descends setting (View.root setting.document)) context type view shape := by
  have hmakes : Action.Makes (FillsTypes setting
      (Descends setting (View.root setting.document))) (convert setting _ _) :=
    convertWithin_makes gradual_fillsTypes (fun _ _ hview hcall => hview.tail hcall)
      (fun _ hcontinues hagrees => entries_fillsTypes hcontinues hagrees) le_rfl
      (View.root setting.document) (some (View.root setting.document).code) .refl
  have hfills := (hmakes {}).of_returns hreturns
  intro type htype
  obtain ⟨entry, hentry, rfl⟩ := List.mem_map.mp htype
  exact (hfills.types rfl entry hentry).resolve_left List.not_mem_nil

theorem analyze_filled {setting : Setting} {converted : Converted} {context : Context}
    (hreturns : analyze setting = (.ok converted, context)) :
    ∀ type ∈ context.types, ∃ view shape,
      Filled setting (Descends setting (View.root setting.document)) type view shape := by
  intro type htype
  obtain ⟨view, shape, hfilled⟩ := analyze_filledBy hreturns type htype
  exact ⟨view, shape, hfilled.toFilled⟩

/-! ### What bodies consist of -/

/-- Entries are converted one after the other, each to a property. -/
inductive ConvertsEntries (setting : Setting) (convert : Converter) :
    Context → List (Schema.Entry × Property) → Context → Prop
  | nil {state : Context} : ConvertsEntries setting convert state [] state
  | cons {before middle after : Context} {entry : Schema.Entry} {property : Property}
      {rest : List (Schema.Entry × Property)}
      (hfirst : (Analysis.property setting convert entry).Returns before property middle)
      (hrest : ConvertsEntries setting convert middle rest after) :
      ConvertsEntries setting convert before ((entry, property) :: rest) after

section Contents

variable {setting : Setting} {convert : Converter} {before : Context}

namespace ConvertsEntries

variable {middle after : Context} {first second converted : List (Schema.Entry × Property)}

theorem append (hfirst : ConvertsEntries setting convert before first middle)
    (hsecond : ConvertsEntries setting convert middle second after) :
    ConvertsEntries setting convert before (first ++ second) after := by
  induction hfirst with
  | nil => exact hsecond
  | cons hproperty _ ih => exact .cons hproperty (ih hsecond)

/-- Each property was returned by the conversion of its entry. -/
theorem mayReturn (h : ConvertsEntries setting convert before converted after)
    {pair : Schema.Entry × Property} (hpair : pair ∈ converted) :
    (property setting convert pair.1).MayReturn pair.2 := by
  induction h with
  | nil => exact absurd hpair List.not_mem_nil
  | cons hfirst _ ih =>
      rcases List.mem_cons.mp hpair with rfl | hrest
      · exact ⟨_, _, hfirst⟩
      · exact ih hrest

/-- Each property has the key of its entry as its name. -/
theorem name_eq (h : ConvertsEntries setting convert before converted after) :
    ∀ pair ∈ converted, pair.2.name = pair.1.key.label := by
  intro pair hpair
  obtain ⟨start, stop, hreturns⟩ := h.mayReturn hpair
  obtain ⟨_, _, _, -, -, -, hmade⟩ := (ensures_property _).of_returns hreturns
  rw [hmade]

end ConvertsEntries

theorem converts_propertyList (entries : List Schema.Entry) :
    (propertyList setting convert entries).Ensures before (fun found after =>
      ∃ converted, ConvertsEntries setting convert before converted after ∧
        converted.map Prod.fst = entries ∧ found = converted.map Prod.snd) fun _ _ => True := by
  induction entries generalizing before with
  | nil => exact ⟨[], .nil, rfl, rfl⟩
  | cons entry rest ih =>
      rw [propertyList, Action.ensures_bind]
      refine (Action.ensures_returns _ before).imp (fun first middle hfirst => ?_) fun _ _ h => h
      rw [Action.ensures_bind]
      refine ih.imp ?_ fun _ _ h => h
      rintro others after ⟨converted, hconverted, rfl, rfl⟩
      exact ⟨(entry, first) :: converted, .cons hfirst hconverted, rfl, rfl⟩

/-- The properties of a schema are named after the keys that it lists. -/
theorem names_properties {view : View} {found : List Property}
    (h : (properties setting convert view).MayReturn found) :
    found.map Property.name = (propertyEntries view).map fun entry => entry.key.label := by
  obtain ⟨start, stop, hreturns⟩ := h
  obtain ⟨converted, hconverted, hentries, rfl⟩ := (converts_propertyList _).of_returns hreturns
  rw [← hentries, List.map_map, List.map_map]
  exact List.map_congr_left hconverted.name_eq

/-- What is taken over of a member is what it stands for, if that is an object. -/
theorem takenOver_eq {member : View} {target : Option View} {taken : Bool}
    (htarget : ∀ part, target = some part ↔ StandsFor setting member part)
    (htaken : isObject target = .ok taken) :
    takenOver setting member = if taken then target.toList else [] := by
  have hstands : (if member.reference?.isNone then [member] else targets setting member) =
      target.toList := by
    cases hreference : member.reference? with
    | none =>
        obtain rfl := (htarget member).mpr ((standsFor_iff_of_none hreference).mpr rfl)
        rfl
    | some reference =>
        have htargets : ∀ other, other ∈ targets setting member ↔ target = some other :=
          fun other => mem_targets_iff.trans <|
            (standsFor_iff_of_reference hreference).symm.trans (htarget other).symm
        rw [Option.isNone_some, if_neg Bool.false_ne_true]
        rw [targets] at htargets ⊢
        exact congrArg Option.toList (Option.ext fun other => by simpa using htargets other)
  rw [takenOver, hstands]
  cases target with
  | none => exact (ite_self _).symm
  | some part =>
      change part.hasType "object" = .ok taken at htaken
      cases taken <;> simp [htaken]

/-- The members of an intersection are replaced by what they refer to, one step on, and are
left out unless they are of objects. -/
theorem ensures_intersectionParts (members : List View) :
    (intersectionParts setting members).Ensures before
      (fun parts _ => parts = members.flatMap (takenOver setting)) fun _ _ => True := by
  induction members generalizing before with
  | nil => exact rfl
  | cons member rest ih =>
      have hstandIn : Gives before (standIn setting member) _ := gives_standIn member
      rw [intersectionParts_cons, Action.ensures_bind]
      refine Action.Ensures.imp hstandIn (fun target middle h => ?_) fun _ _ _ => trivial
      rw [Action.ensures_bind, Action.ensures_lift]
      refine ⟨fun taken htaken => ?_, fun _ _ => trivial⟩
      rw [Action.ensures_bind]
      refine ih.imp (fun others after hothers => ?_) fun _ _ h => h
      rw [Action.ensures_pure, List.flatMap_cons, takenOver_eq h.2.1 htaken, hothers]
      split <;> rfl

/-- An intersection has the properties of its parts in one list, where later ones replace
earlier ones, and all rules of its parts in order. -/
structure Merges (setting : Setting) (convert : Converter) (parts : List View)
    (body : TypeBody) : Prop where
  properties : ∃ found, List.Forall₂
    (fun part added => (properties setting convert part).MayReturn added) parts found ∧
      body.1 = found.flatten.foldl mergeProperty []
  rules : ∃ found, List.Forall₂ (fun part added => part.objectRules = .ok added) parts found ∧
    body.2 = found.flatten

theorem ensures_mergedProperties (merged : List Property) (parts : List View) :
    (mergedProperties setting convert merged parts).Ensures before
      (fun properties _ => ∃ found, List.Forall₂
        (fun part added => (Analysis.properties setting convert part).MayReturn added)
          parts found ∧ properties = found.flatten.foldl mergeProperty merged)
      fun _ _ => True := by
  induction parts generalizing before merged with
  | nil => exact ⟨[], .nil, rfl⟩
  | cons part rest ih =>
      rw [mergedProperties, Action.ensures_bind]
      refine (Action.ensures_returns _ before).imp (fun added middle hadded => ?_) fun _ _ h => h
      refine (ih _).imp ?_ fun _ _ h => h
      rintro properties after ⟨found, hfound, rfl⟩
      refine ⟨added :: found, .cons ⟨before, middle, hadded⟩ hfound, ?_⟩
      rw [List.flatten_cons, List.foldl_append]

theorem mergedRules_eq_ok {parts : List View} {rules : List Rule}
    (h : mergedRules parts = .ok rules) :
    ∃ found, List.Forall₂ (fun part added => part.objectRules = .ok added) parts found ∧
      rules = found.flatten := by
  induction parts generalizing rules with
  | nil => exact ⟨[], .nil, (Except.ok.inj h).symm⟩
  | cons part rest ih =>
      obtain ⟨own, hown, h⟩ := bind_eq_ok.mp h
      obtain ⟨others, hothers, h⟩ := bind_eq_ok.mp h
      obtain ⟨found, hfound, rfl⟩ := ih hothers
      exact ⟨own :: found, .cons hown hfound, (Except.ok.inj h).symm⟩

theorem merges_of_returns {view : View} {body : TypeBody} {start stop : Context}
    (h : (intersectionBody setting convert view).Returns start body stop) :
    Merges setting convert ((view.allOf?.getD []).flatMap (takenOver setting)) body := by
  have hensures : (intersectionBody setting convert view).Ensures start
      (fun body _ =>
        Merges setting convert ((view.allOf?.getD []).flatMap (takenOver setting)) body)
      fun _ _ => True := by
    rw [intersectionBody, Action.ensures_bind]
    refine (ensures_intersectionParts _).imp ?_ fun _ _ h => h
    rintro parts middle rfl
    rw [Action.ensures_bind]
    refine (ensures_mergedProperties [] _).imp (fun properties after hproperties => ?_)
      fun _ _ h => h
    rw [Action.ensures_bind, Action.ensures_lift]
    exact ⟨fun rules hrules => ⟨hproperties, mergedRules_eq_ok hrules⟩, fun _ _ => trivial⟩
  exact hensures.of_returns h

theorem objectBody_of_returns {view : View} {body : TypeBody} {start stop : Context}
    (h : (objectBody setting convert view).Returns start body stop) :
    (properties setting convert view).MayReturn body.1 ∧ view.objectRules = .ok body.2 := by
  have hensures : (objectBody setting convert view).Ensures start
      (fun body _ => (properties setting convert view).MayReturn body.1 ∧
        view.objectRules = .ok body.2) fun _ _ => True := by
    rw [objectBody, Action.ensures_bind]
    refine (Action.ensures_returns _ start).imp (fun found middle hfound => ?_) fun _ _ h => h
    rw [Action.ensures_bind, Action.ensures_lift]
    exact ⟨fun rules hrules => ⟨⟨start, middle, hfound⟩, hrules⟩, fun _ _ => trivial⟩
  exact hensures.of_returns h

end Contents

/-! ### Names of properties -/

/-- The names of properties, in order. -/
def propertyNames (properties : List Property) : List Str :=
  properties.map fun property => property.name.value

/-- The names of the properties that a schema lists, in order. A key may be repeated. -/
def propertyKeys (view : View) : List Str :=
  (propertyEntries view).map fun entry => entry.key.name

theorem propertyNames_of_mayReturn {setting : Setting} {convert : Converter} {view : View}
    {found : List Property} (h : (properties setting convert view).MayReturn found) :
    propertyNames found = propertyKeys view := by
  have hnames := congrArg (List.map Label.value) (names_properties h)
  rw [List.map_map, List.map_map] at hnames
  exact hnames

/-- A property is added under its name, or takes the place of the one that had it. -/
theorem propertyNames_mergeProperty (properties : List Property) (added : Property) :
    propertyNames (mergeProperty properties added) =
      if added.name.value ∈ propertyNames properties then propertyNames properties
      else propertyNames properties ++ [added.name.value] := by
  have htaken : properties.any (·.name.value = added.name.value) = true ↔
      added.name.value ∈ propertyNames properties := by
    simp [propertyNames]
  rw [mergeProperty]
  by_cases h : added.name.value ∈ propertyNames properties
  · rw [if_pos h, if_pos (htaken.mpr h), propertyNames, List.map_map]
    refine List.map_congr_left fun other _ => ?_
    rw [Function.comp_apply]
    split
    next heq => exact heq.symm
    next => rfl
  · rw [if_neg h, if_neg (mt htaken.mp h), propertyNames, List.map_append]
    rfl

theorem nodup_mergeProperty {properties : List Property} (added : Property)
    (h : (propertyNames properties).Nodup) :
    (propertyNames (mergeProperty properties added)).Nodup := by
  rw [propertyNames_mergeProperty]
  split
  next => exact h
  next hnew => exact List.nodup_append_comm.mp (List.nodup_cons.mpr ⟨hnew, h⟩)

theorem nodup_foldl_mergeProperty {properties : List Property} (added : List Property)
    (h : (propertyNames properties).Nodup) :
    (propertyNames (added.foldl mergeProperty properties)).Nodup := by
  induction added generalizing properties with
  | nil => exact h
  | cons first rest ih => exact ih (nodup_mergeProperty first h)

theorem mem_propertyNames_foldl_iff {properties added : List Property} {name : Str} :
    name ∈ propertyNames (added.foldl mergeProperty properties) ↔
      name ∈ propertyNames properties ∨ name ∈ propertyNames added := by
  induction added generalizing properties with
  | nil => simp [propertyNames]
  | cons first rest ih =>
      have hfirst : name ∈ propertyNames (mergeProperty properties first) ↔
          name ∈ propertyNames properties ∨ name = first.name.value := by
        rw [propertyNames_mergeProperty]
        split
        next htaken => exact ⟨.inl, fun h => h.elim id fun heq => heq ▸ htaken⟩
        next => simp
      rw [List.foldl_cons, ih, hfirst]
      simp [propertyNames, or_assoc]

end Schemata.Analysis
