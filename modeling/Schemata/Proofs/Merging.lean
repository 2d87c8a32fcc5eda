import Mathlib.Data.List.Find
import Schemata.Proofs.Bodies
import Schemata.Proofs.Marks

/-!
# Merged properties

An intersection has one property for each key that its parts list. A key keeps the place of its
first occurrence among all of them, and its last occurrence is what the property was made of.
Every occurrence is converted, also one that is replaced later.
-/

namespace Schemata.Analysis

open Schema Source

theorem mem_of_findRev?_eq_some {α : Type} {p : α → Bool} {items : List α} {found : α}
    (h : items.findRev? p = some found) : found ∈ items ∧ p found = true := by
  rw [List.findRev?_eq_find?_reverse] at h
  exact ⟨List.mem_reverse.mp (List.mem_of_find?_eq_some h), List.find?_some h⟩

theorem findRev?_map {α β : Type} {p : β → Bool} (f : α → β) (items : List α) :
    (items.map f).findRev? p = (items.findRev? (p ∘ f)).map f := by
  rw [List.findRev?_eq_find?_reverse, List.findRev?_eq_find?_reverse, ← List.map_reverse,
    List.find?_map]

/-- The last item of several lists is the last one in the last list that has any. -/
theorem exists_findRev?_of_flatMap {α β : Type} {p : α → Bool} {parts : β → List α}
    {items : List β} {found : α} (h : (items.flatMap parts).findRev? p = some found) :
    ∃ item, items.findRev? (fun item => (parts item).any p) = some item ∧
      (parts item).findRev? p = some found := by
  simp only [List.findRev?_eq_find?_reverse, List.reverse_flatMap, List.find?_flatMap] at h ⊢
  obtain ⟨before, item, after, hitems, hfound, hbefore⟩ := List.findSome?_eq_some_iff.mp h
  refine ⟨item, List.find?_eq_some_iff_append.mpr ⟨?_, before, after, hitems, ?_⟩, hfound⟩
  · have hmem := List.mem_reverse.mp (List.mem_of_find?_eq_some hfound)
    exact List.any_eq_true.mpr ⟨found, hmem, List.find?_some hfound⟩
  · intro other hother
    have hnone := List.find?_eq_none.mp (hbefore other hother)
    simpa using hnone

/-! ### Properties by name -/

/-- The property of a name. If there are several, it is the first one. -/
def propertyNamed? (properties : List Property) (name : Str) : Option Property :=
  properties.find? (·.name.value = name)

/-- A merged property is found under its name, and what other names have stays the same. -/
theorem propertyNamed?_mergeProperty (properties : List Property) (added : Property)
    (name : Str) : propertyNamed? (mergeProperty properties added) name =
      if added.name.value = name then some added else propertyNamed? properties name := by
  have hnames (other : Property) : (if other.name.value = added.name.value then added
      else other).name.value = other.name.value := by
    split
    next heq => exact heq.symm
    next => rfl
  unfold mergeProperty propertyNamed?
  by_cases hname : added.name.value = name
  · subst hname
    rw [if_pos rfl]
    split
    next htaken =>
      obtain ⟨found, hfound⟩ := Option.isSome_iff_exists.mp
        (List.find?_isSome.mpr (List.any_eq_true.mp htaken))
      have hown : found.name.value = added.name.value := by simpa using List.find?_some hfound
      simp [List.find?_map, hnames, hfound, hown]
    next hfree =>
      have hnone : properties.find? (·.name.value = added.name.value) = none := by simpa using hfree
      simp [List.find?_append, hnone]
  · rw [if_neg hname]
    split
    next =>
      simp only [List.find?_map, Function.comp_def, hnames]
      cases hfound : properties.find? (·.name.value = name) with
      | none => rfl
      | some found =>
          have hown : found.name.value = name := by simpa using List.find?_some hfound
          rw [Option.map_some, if_neg fun heq => hname (heq.symm.trans hown)]
    next => simp [List.find?_append, hname]

theorem propertyNamed?_of_mem {properties : List Property} {property : Property}
    (hdistinct : (propertyNames properties).Nodup) (hproperty : property ∈ properties) :
    propertyNamed? properties property.name.value = some property := by
  cases hfound : propertyNamed? properties property.name.value with
  | none => simpa using List.find?_eq_none.mp hfound property hproperty
  | some found =>
      have hname : found.name.value = property.name.value := by simpa using List.find?_some hfound
      rw [List.inj_on_of_nodup_map hdistinct (List.mem_of_find?_eq_some hfound) hproperty hname]

theorem propertyNamed?_foldl_mergeProperty (added : List Property) (name : Str) :
    propertyNamed? (added.foldl mergeProperty []) name =
      added.findRev? (·.name.value = name) := by
  induction added using List.reverseRecOn with
  | nil => rfl
  | append_singleton rest last ih =>
      rw [List.foldl_concat, propertyNamed?_mergeProperty, ih]
      simp only [List.findRev?_eq_find?_reverse, List.reverse_append, List.reverse_singleton,
        List.singleton_append, List.find?_cons]
      by_cases hname : last.name.value = name
      · simp [hname]
      · simp [hname]

/-- The names of merged properties are in the order in which they come up first. -/
theorem propertyNames_foldl_mergeProperty (added : List Property) :
    propertyNames (added.foldl mergeProperty []) = (propertyNames added).eraseDups := by
  induction added using List.reverseRecOn with
  | nil => rfl
  | append_singleton rest last ih =>
      have hnames : propertyNames (rest ++ [last]) = propertyNames rest ++ [last.name.value] := by
        simp [propertyNames]
      rw [List.foldl_concat, propertyNames_mergeProperty, ih, hnames, List.eraseDups_append]
      simp only [List.mem_eraseDups]
      split
      next htaken => simp [List.removeAll, htaken]
      next hnew => simp [List.removeAll, hnew, List.eraseDups_cons]

/-! ### Converted properties -/

section Conversions

variable {setting : Setting} {convert : Converter} {before after : Context}

theorem ConvertsEntries.names_eq {converted : List (Schema.Entry × Property)}
    (h : ConvertsEntries setting convert before converted after) :
    propertyNames (converted.map Prod.snd) = (converted.map Prod.fst).map (·.key.name) := by
  rw [propertyNames, List.map_map, List.map_map]
  exact List.map_congr_left fun pair hpair => congrArg Label.value (h.name_eq pair hpair)

/-- The entries of all parts are converted in order, before the properties are merged. -/
theorem converts_mergedProperties (merged : List Property) (parts : List View) :
    (mergedProperties setting convert merged parts).Ensures before (fun properties after =>
      ∃ converted, ConvertsEntries setting convert before converted after ∧
        converted.map Prod.fst = parts.flatMap propertyEntries ∧
        properties = (converted.map Prod.snd).foldl mergeProperty merged) fun _ _ => True := by
  induction parts generalizing before merged with
  | nil => exact ⟨[], .nil, rfl, rfl⟩
  | cons part rest ih =>
      rw [mergedProperties, Action.ensures_bind]
      refine (converts_propertyList _).imp ?_ fun _ _ h => h
      rintro added middle ⟨first, hfirst, hentries, rfl⟩
      refine (ih _).imp ?_ fun _ _ h => h
      rintro properties after ⟨others, hothers, hrest, rfl⟩
      refine ⟨first ++ others, hfirst.append hothers, ?_, ?_⟩
      · rw [List.map_append, hentries, hrest, List.flatMap_cons]
      · rw [List.map_append, List.foldl_append]

end Conversions

/-- Properties are merged of what entries were converted to, one for each name. -/
structure MergedOf (properties : List Property) (parts : List View)
    (converted : List (Schema.Entry × Property)) : Prop where
  distinct : (propertyNames properties).Nodup
  names : propertyNames properties = (parts.flatMap propertyKeys).eraseDups
  last : ∀ property ∈ properties, ∃ part entry,
    parts.findRev? (fun part => property.name.value ∈ propertyKeys part) = some part ∧
    (propertyEntries part).findRev? (·.key.name = property.name.value) = some entry ∧
    converted.findRev? (·.1.key.name = property.name.value) = some (entry, property)

/-- An object type was put together from the properties and rules of several schemas, on the way
to a state. -/
structure Assembled (setting : Setting) (after : Context) (type : ObjectType)
    (parts : List View) : Prop where
  properties : ∃ start converted stop,
    ConvertsEntries setting (convert setting) start converted stop ∧ stop.Earlier after ∧
    converted.map Prod.fst = parts.flatMap propertyEntries ∧
    MergedOf type.properties parts converted
  rules : ∃ found, List.Forall₂ (fun part added => part.objectRules = .ok added) parts found ∧
    type.rules = found.flatten

/-- What is merged was made of the last occurrences of the keys. -/
theorem ConvertsEntries.mergedOf {setting : Setting} {convert : Converter}
    {before after : Context} {converted : List (Schema.Entry × Property)} {parts : List View}
    (h : ConvertsEntries setting convert before converted after)
    (hentries : converted.map Prod.fst = parts.flatMap propertyEntries) :
    MergedOf ((converted.map Prod.snd).foldl mergeProperty []) parts converted where
  distinct := nodup_foldl_mergeProperty _ List.nodup_nil
  names := by
    rw [propertyNames_foldl_mergeProperty, h.names_eq, hentries, List.map_flatMap]
    rfl
  last property hproperty := by
    have hdistinct : (propertyNames ((converted.map Prod.snd).foldl mergeProperty [])).Nodup :=
      nodup_foldl_mergeProperty _ List.nodup_nil
    have hnamed := propertyNamed?_of_mem hdistinct hproperty
    rw [propertyNamed?_foldl_mergeProperty, findRev?_map] at hnamed
    obtain ⟨⟨entry, other⟩, hpair, rfl⟩ := Option.map_eq_some_iff.mp hnamed
    -- The properties that were merged have the keys of their entries.
    have hlast : converted.findRev? (·.1.key.name = other.name.value) = some (entry, other) := by
      rw [← hpair, List.findRev?_eq_find?_reverse, List.findRev?_eq_find?_reverse]
      refine List.find?_congr fun pair hmem => ?_
      simp [h.name_eq pair (List.mem_reverse.mp hmem), Json.Key.label]
    have hentry : (parts.flatMap propertyEntries).findRev? (·.key.name = other.name.value) =
        some entry := by
      rw [← hentries, findRev?_map]
      exact congrArg (Option.map Prod.fst) hlast
    obtain ⟨part, hpart, hpartEntry⟩ := exists_findRev?_of_flatMap hentry
    refine ⟨part, entry, ?_, hpartEntry, hlast⟩
    rw [← hpart]
    congr
    funext part
    simp [propertyKeys, List.any_eq]

/-- The body of an intersection is put together from its parts. -/
theorem assembled_of_returns {setting : Setting} {view : View} {start stop after : Context}
    {type : ObjectType} (hstop : stop.Earlier after)
    (h : (intersectionBody setting (convert setting) view).Returns start
      (type.properties, type.rules) stop) :
    Assembled setting after type ((view.allOf?.getD []).flatMap (takenOver setting)) := by
  have hensures : (intersectionBody setting (convert setting) view).Ensures start
      (fun body last => ∃ middle converted,
        ConvertsEntries setting (convert setting) middle converted last ∧
        converted.map Prod.fst =
          ((view.allOf?.getD []).flatMap (takenOver setting)).flatMap propertyEntries ∧
        body.1 = (converted.map Prod.snd).foldl mergeProperty [] ∧
        mergedRules ((view.allOf?.getD []).flatMap (takenOver setting)) = .ok body.2)
      fun _ _ => True := by
    rw [intersectionBody, Action.ensures_bind]
    refine (ensures_intersectionParts _).imp ?_ fun _ _ h => h
    rintro parts middle rfl
    rw [Action.ensures_bind]
    refine (converts_mergedProperties [] _).imp ?_ fun _ _ h => h
    rintro properties last ⟨converted, hconverted, hentries, rfl⟩
    rw [Action.ensures_bind, Action.ensures_lift]
    exact ⟨fun rules hrules => ⟨middle, converted, hconverted, hentries, rfl, hrules⟩,
      fun _ _ => trivial⟩
  obtain ⟨middle, converted, hconverted, hentries, hproperties, hrules⟩ := hensures.of_returns h
  change type.properties = _ at hproperties
  refine ⟨⟨middle, converted, stop, hconverted, hstop, hentries, ?_⟩, mergedRules_eq_ok hrules⟩
  rw [hproperties]
  exact hconverted.mergedOf hentries

namespace OverriddenKey

/-- An intersection of two schemas of objects, of which the second one repeats a key of the
first one. -/
def text : String :=
  "\x7b\"allOf\":[\x7b\"type\":\"object\"," ++
    "\"properties\":\x7b\"a\":\x7b\x7d,\"b\":\x7b\x7d\x7d\x7d," ++
    "\x7b\"type\":\"object\",\"properties\":\x7b\"a\":\x7b\x7d\x7d\x7d]\x7d"

def first : View :=
  ⟨.object (.inFirstLine 10 56)
    [⟨⟨"type", "\"type\"", .inFirstLine 11 17⟩,
        .scalar (.inFirstLine 18 26) (.string "object") "\"object\""⟩,
      ⟨⟨"properties", "\"properties\"", .inFirstLine 27 39⟩,
        .object (.inFirstLine 40 55)
          [⟨⟨"a", "\"a\"", .inFirstLine 41 44⟩, .object (.inFirstLine 45 47) []⟩,
            ⟨⟨"b", "\"b\"", .inFirstLine 48 51⟩, .object (.inFirstLine 52 54) []⟩]⟩],
    "#/allOf/0"⟩

def second : View :=
  ⟨.object (.inFirstLine 57 96)
    [⟨⟨"type", "\"type\"", .inFirstLine 58 64⟩,
        .scalar (.inFirstLine 65 73) (.string "object") "\"object\""⟩,
      ⟨⟨"properties", "\"properties\"", .inFirstLine 74 86⟩,
        .object (.inFirstLine 87 95)
          [⟨⟨"a", "\"a\"", .inFirstLine 88 91⟩, .object (.inFirstLine 92 94) []⟩]⟩],
    "#/allOf/1"⟩

def tree : Json.Node :=
  .object (.inFirstLine 0 98)
    [⟨⟨"allOf", "\"allOf\"", .inFirstLine 1 8⟩,
      .array (.inFirstLine 9 97) [first.node, second.node]⟩]

theorem read_text : Json.read text = .ok tree := by
  cbv

theorem exists_outcome : ∃ outcome, convertText text "" = .ok outcome ∧
    outcome.service.types.map (fun type => (type.source, propertyNames type.properties)) =
      [(("#" : Pointer), (["a", "b"] : List Str))] := by
  have hnames : ((outcome ⟨tree, "", {}⟩).1.map fun found =>
      found.service.types.map fun type => (type.source, propertyNames type.properties)) =
        .ok [(("#" : Pointer), (["a", "b"] : List Str))] := by
    decide +kernel
  exact exists_convertText read_text hnames

end OverriddenKey

end Schemata.Analysis
