import Schemata.Proofs.Bodies
import Schemata.Proofs.Marks

/-!
# Names of the properties of an object type

An intersection has no two properties of one name, as later ones take the place of earlier
ones. The properties of an object schema are taken as they are listed, so that a key that
is repeated in the text gives as many properties of one name.
-/

namespace Schemata.Analysis

open Schema Source

/-- The names are all different, or they are the keys that the schema lists. -/
theorem Filled.propertyNames {setting : Setting} {met : View → Prop} {type : ObjectType}
    {view : View} {shape : Shape} (h : Filled setting met type view shape) :
    shape = .intersection ∧ (propertyNames type.properties).Nodup ∨
      shape = .object ∧ propertyNames type.properties = propertyKeys view := by
  obtain ⟨start, stop, hreturns⟩ := h.body
  rcases h.kind with rfl | rfl
  · exact .inr ⟨rfl, propertyNames_of_mayReturn (objectBody_of_returns hreturns).1⟩
  · obtain ⟨found, -, hproperties⟩ := (merges_of_returns hreturns).properties
    change type.properties = _ at hproperties
    rw [hproperties]
    exact .inl ⟨rfl, nodup_foldl_mergeProperty _ List.nodup_nil⟩

/-- If no key is repeated in a document, none is among the properties that a schema lists. -/
theorem nodup_propertyKeys {document : Json.Node} {view : View} (hdistinct : DistinctKeys document)
    (hview : Occurs document view.node) : (propertyKeys view).Nodup := by
  unfold propertyKeys propertyEntries
  cases hmap : view.properties? with
  | none => exact List.nodup_nil
  | some map =>
      have hkeys : (map.entries.map fun entry => entry.key.name).Nodup := by
        rw [View.entries, List.map_map]
        exact hdistinct.nodup (hview.holds (View.holds_of_child? hmap))
      exact hkeys.sublist (List.filter_sublist.map _)

/-- Every object type of an outcome stems from a schema that the conversion meets. If that is
an intersection, no two properties have one name. If it lists the properties itself, their
names are repeated as the keys are, so that they are all different unless the text repeats a
key. -/
theorem property_names_of_types {text path : String} {options : Options} {outcome : Outcome}
    (houtcome : convertText text path options = .ok outcome) :
    ∃ document, Json.read text = .ok document ∧
      (∀ type ∈ outcome.service.types, ∃ view, Met ⟨document, path, options⟩ view ∧
        type.source = view.pointer ∧
        (view.conversionShape = .ok .intersection ∧ (propertyNames type.properties).Nodup ∨
          view.conversionShape = .ok .object ∧
            propertyNames type.properties = propertyKeys view)) ∧
      (DistinctKeys document →
        ∀ type ∈ outcome.service.types, (propertyNames type.properties).Nodup) := by
  obtain ⟨document, converted, context, label, hread, hreturns, rfl⟩ := convertText_eq_ok houtcome
  have hfilled := analyze_filled hreturns
  refine ⟨document, hread, fun type htype => ?_, fun hdistinct type htype => ?_⟩
  · obtain ⟨view, shape, hview⟩ := hfilled type htype
    refine ⟨view, hview.met, hview.source, ?_⟩
    have hconversion := hview.conversion
    rcases hview.propertyNames with ⟨rfl, hnames⟩ | ⟨rfl, hnames⟩
    · exact .inl ⟨hconversion, hnames⟩
    · exact .inr ⟨hconversion, hnames⟩
  · obtain ⟨view, shape, hview⟩ := hfilled type htype
    rcases hview.propertyNames with ⟨-, hnames⟩ | ⟨-, hnames⟩
    · exact hnames
    · rw [hnames]
      exact nodup_propertyKeys hdistinct hview.met.reachable.occurs

namespace RepeatedKey

/-- An object schema that lists a property twice. -/
def text : String :=
  "\x7b\"type\":\"object\",\"properties\":\x7b\"a\":\x7b\x7d,\"a\":\x7b\x7d\x7d\x7d"

def tree : Json.Node :=
  .object (.inFirstLine 0 46)
    [⟨⟨"type", "\"type\"", .inFirstLine 1 7⟩,
        .scalar (.inFirstLine 8 16) (.string "object") "\"object\""⟩,
      ⟨⟨"properties", "\"properties\"", .inFirstLine 17 29⟩,
        .object (.inFirstLine 30 45)
          [⟨⟨"a", "\"a\"", .inFirstLine 31 34⟩, .object (.inFirstLine 35 37) []⟩,
            ⟨⟨"a", "\"a\"", .inFirstLine 38 41⟩, .object (.inFirstLine 42 44) []⟩]⟩]

theorem read_text : Json.read text = .ok tree := by
  cbv

theorem exists_outcome : ∃ outcome, convertText text "" = .ok outcome ∧
    outcome.service.types.map (fun type => propertyNames type.properties) =
      [(["a", "a"] : List Str)] := by
  have hnames : ((outcome ⟨tree, "", {}⟩).1.map fun found =>
      found.service.types.map fun type => propertyNames type.properties) =
        .ok [(["a", "a"] : List Str)] := by
    decide +kernel
  exact exists_convertText read_text hnames

/-- The names are the keys, one of them twice. -/
theorem property_names_repeatedKey :
    ∃ outcome, convertText text "" = .ok outcome ∧
      outcome.service.types.map (fun type => propertyNames type.properties) =
        [(["a", "a"] : List Str)] ∧
      ∃ document, Json.read text = .ok document ∧
        ∀ type ∈ outcome.service.types, ∃ view, Met ⟨document, "", {}⟩ view ∧
          type.source = view.pointer ∧
          (view.conversionShape = .ok .intersection ∧ (propertyNames type.properties).Nodup ∨
            view.conversionShape = .ok .object ∧
              propertyNames type.properties = propertyKeys view) := by
  obtain ⟨outcome, houtcome, hnames⟩ := exists_outcome
  obtain ⟨document, hread, htypes, -⟩ := property_names_of_types houtcome
  exact ⟨outcome, houtcome, hnames, document, hread, htypes⟩

/-- An object type may have two properties of one name. -/
theorem not_nodup_property_names :
    ¬ ∀ (text path : String) (options : Options) (outcome : Outcome),
      convertText text path options = .ok outcome →
        ∀ type ∈ outcome.service.types, (propertyNames type.properties).Nodup := by
  intro hnodup
  obtain ⟨outcome, houtcome, hnames⟩ := exists_outcome
  obtain ⟨type, htype, hrepeated⟩ : ∃ type ∈ outcome.service.types,
      propertyNames type.properties = ["a", "a"] :=
    List.mem_map.mp (hnames ▸ List.mem_cons_self)
  exact absurd (hrepeated ▸ hnodup text "" {} outcome houtcome type htype) (by decide)

end RepeatedKey

end Schemata.Analysis
