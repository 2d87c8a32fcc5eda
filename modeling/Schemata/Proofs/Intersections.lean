import Schemata.Proofs.Bodies
import Schemata.Proofs.Marks

/-!
# Members of intersections

An intersection takes over the properties and rules of those members that are of objects. A
member that is a reference stands for what it refers to, and for no more than that: if that
is a reference again, it is not followed, and nothing of what it leads to is taken over.
-/

namespace Schemata.Analysis

open Schema Source

/-- A type has all that a schema of objects gives: a property of each name that the schema
lists, and each of its rules. -/
structure TakesIn (type : ObjectType) (part : View) : Prop where
  names : ∀ name ∈ propertyKeys part, name ∈ propertyNames type.properties
  rules : ∃ rules, part.objectRules = .ok rules ∧ ∀ rule ∈ rules, rule ∈ type.rules

/-- A type has nothing but what certain schemas give. -/
structure MadeOf (type : ObjectType) (parts : View → Prop) : Prop where
  names : ∀ name ∈ propertyNames type.properties, ∃ part, parts part ∧ name ∈ propertyKeys part
  rules : ∀ rule ∈ type.rules, ∃ part rules, parts part ∧ part.objectRules = .ok rules ∧
    rule ∈ rules

section Merging

variable {setting : Setting} {convert : Converter} {parts : List View} {type : ObjectType}
  (h : Merges setting convert parts (type.properties, type.rules))

include h

theorem Merges.takesIn {part : View} (hpart : part ∈ parts) : TakesIn type part := by
  obtain ⟨found, hfound, hproperties⟩ := h.properties
  obtain ⟨lists, hlists, hrules⟩ := h.rules
  constructor
  · intro name hname
    obtain ⟨added, hadded, hreturned⟩ := exists_related hfound hpart
    change type.properties = _ at hproperties
    rw [hproperties, mem_propertyNames_foldl_iff]
    rw [← propertyNames_of_mayReturn hreturned] at hname
    obtain ⟨property, hproperty, rfl⟩ := List.mem_map.mp hname
    exact .inr (List.mem_map_of_mem (List.mem_flatten_of_mem hadded hproperty))
  · obtain ⟨rules, hmem, hpartRules⟩ := exists_related hlists hpart
    refine ⟨rules, hpartRules, fun rule hrule => ?_⟩
    change type.rules = _ at hrules
    rw [hrules]
    exact List.mem_flatten_of_mem hmem hrule

theorem Merges.madeOf : MadeOf type (· ∈ parts) := by
  obtain ⟨found, hfound, hproperties⟩ := h.properties
  obtain ⟨lists, hlists, hrules⟩ := h.rules
  constructor
  · intro name hname
    change type.properties = _ at hproperties
    rw [hproperties, mem_propertyNames_foldl_iff] at hname
    obtain ⟨property, hproperty, rfl⟩ := List.mem_map.mp (hname.resolve_left List.not_mem_nil)
    obtain ⟨added, hadded, hmem⟩ := List.mem_flatten.mp hproperty
    obtain ⟨part, hpart, hreturned⟩ := exists_related hfound.flip hadded
    exact ⟨part, hpart, propertyNames_of_mayReturn hreturned ▸ List.mem_map_of_mem hmem⟩
  · intro rule hrule
    change type.rules = _ at hrules
    rw [hrules] at hrule
    obtain ⟨rules, hlist, hmem⟩ := List.mem_flatten.mp hrule
    obtain ⟨part, hpart, hpartRules⟩ := exists_related hlists.flip hlist
    exact ⟨part, rules, hpart, hpartRules, hmem⟩

end Merging

theorem mem_flatMap_takenOver_iff {setting : Setting} {view part : View} :
    part ∈ (view.allOf?.getD []).flatMap (takenOver setting) ↔ TakesOver setting view part := by
  simp only [List.mem_flatMap, mem_takenOver_iff, TakesOver]
  constructor
  · rintro ⟨member, hmember, hother, htype⟩
    exact ⟨⟨member, hmember, hother⟩, htype⟩
  · rintro ⟨⟨member, hmember, hother⟩, htype⟩
    exact ⟨member, hmember, hother, htype⟩

/-- The object type of an intersection has all that the schemas of objects give that its
members are or refer to, and nothing else. -/
theorem intersection_takes_over {text path : String} {options : Options} {document : Json.Node}
    {outcome : Outcome} (hread : Json.read text = .ok document)
    (hdistinct : DistinctKeys document) (houtcome : convertText text path options = .ok outcome)
    {type : ObjectType} (htype : type ∈ outcome.service.types) {view : View}
    (hview : Met ⟨document, path, options⟩ view) (hsource : type.source = view.pointer)
    (hshape : view.conversionShape = .ok .intersection) :
    (∀ member ∈ view.allOf?.getD [], ∀ target, RefersTo ⟨document, path, options⟩ member target →
      target.hasType "object" = .ok true → TakesIn type target) ∧
    (∀ member ∈ view.allOf?.getD [], member.reference? = none →
      member.hasType "object" = .ok true → TakesIn type member) ∧
    MadeOf type (TakesOver ⟨document, path, options⟩ view) := by
  obtain ⟨tree, converted, context, label, htree, hreturns, rfl⟩ := convertText_eq_ok houtcome
  obtain rfl : document = tree := Except.ok.inj (hread.symm.trans htree)
  obtain ⟨other, shape, hfilled⟩ := analyze_filled hreturns type htype
  -- The schema at the source of the type is the one that it was made of.
  obtain rfl : view = other := hview.eq_of_pointer hdistinct (.root document) hfilled.met
    (hsource.symm.trans hfilled.source)
  obtain rfl : Shape.intersection = shape := Except.ok.inj (hshape.symm.trans hfilled.conversion)
  obtain ⟨start, stop, hbody⟩ := hfilled.body
  have hmerges := merges_of_returns hbody
  have htaken : ∀ part, TakesOver ⟨document, path, options⟩ view part → TakesIn type part :=
    fun part hpart => hmerges.takesIn (mem_flatMap_takenOver_iff.mpr hpart)
  refine ⟨fun member hmember target htarget hobject => ?_, fun member hmember hnone hobject => ?_,
    ?_⟩
  · exact htaken target ⟨⟨member, hmember, .inr htarget⟩, hobject⟩
  · exact htaken member ⟨⟨member, hmember, .inl ⟨hnone, rfl⟩⟩, hobject⟩
  · have hmade := hmerges.madeOf
    simp only [mem_flatMap_takenOver_iff] at hmade
    exact hmade

namespace AliasedMember

/-- An intersection of one member that refers to `B`, an object schema. -/
def direct : String :=
  "\x7b\"$defs\":\x7b\"A\":\x7b\"$ref\":\"#/$defs/B\"\x7d,\"B\":\x7b\"type\":\"object\"," ++
    "\"properties\":\x7b\"id\":\x7b\x7d\x7d\x7d\x7d,\"allOf\":[\x7b\"$ref\":\"#/$defs/B\"\x7d]\x7d"

/-- An intersection of one member that refers to `A`, which refers to `B`. -/
def indirect : String :=
  "\x7b\"$defs\":\x7b\"A\":\x7b\"$ref\":\"#/$defs/B\"\x7d,\"B\":\x7b\"type\":\"object\"," ++
    "\"properties\":\x7b\"id\":\x7b\x7d\x7d\x7d\x7d,\"allOf\":[\x7b\"$ref\":\"#/$defs/A\"\x7d]\x7d"

/-- A reference to a definition, from an offset on. -/
def link (first : Int) (name : String) : Json.Node :=
  .object (.inFirstLine first (first + 20))
    [⟨⟨"$ref", "\"$ref\"", .inFirstLine (first + 1) (first + 7)⟩,
      .scalar (.inFirstLine (first + 8) (first + 19)) (.string ("#/$defs/" ++ name : String))
        ("\"#/$defs/" ++ name ++ "\"")⟩]

def base : View :=
  ⟨.object (.inFirstLine 39 79)
    [⟨⟨"type", "\"type\"", .inFirstLine 40 46⟩,
        .scalar (.inFirstLine 47 55) (.string "object") "\"object\""⟩,
      ⟨⟨"properties", "\"properties\"", .inFirstLine 56 68⟩,
        .object (.inFirstLine 69 78)
          [⟨⟨"id", "\"id\"", .inFirstLine 70 74⟩, .object (.inFirstLine 75 77) []⟩]⟩],
    "#/$defs/B"⟩

def detour : View :=
  ⟨link 14 "B", "#/$defs/A"⟩

def member (name : String) : View :=
  ⟨link 90 name, "#/allOf/0"⟩

def sample (name : String) : Setting where
  document :=
    .object (.inFirstLine 0 112)
      [⟨⟨"$defs", "\"$defs\"", .inFirstLine 1 8⟩,
          .object (.inFirstLine 9 80) [⟨⟨"A", "\"A\"", .inFirstLine 10 13⟩, detour.node⟩,
            ⟨⟨"B", "\"B\"", .inFirstLine 35 38⟩, base.node⟩]⟩,
        ⟨⟨"allOf", "\"allOf\"", .inFirstLine 81 88⟩,
          .array (.inFirstLine 89 111) [(member name).node]⟩]
  sourcePath := ""
  options := {}

theorem read_direct : Json.read direct = .ok (sample "B").document := by
  cbv

theorem read_indirect : Json.read indirect = .ok (sample "A").document := by
  cbv

/-- The root is the second type. -/
theorem exists_root {text name : String} (names : List Str)
    (hread : Json.read text = .ok (sample name).document)
    (htypes : ((outcome (sample name)).1.map fun found =>
      found.service.types.map fun type => (type.source, propertyNames type.properties)) =
        .ok [("#/$defs/B", ["id"]), ("#", names)]) :
    ∃ outcome type, convertText text "" = .ok outcome ∧ type ∈ outcome.service.types ∧
      type.source = "#" ∧ propertyNames type.properties = names := by
  obtain ⟨outcome, houtcome, hfound⟩ := exists_convertText hread htypes
  obtain ⟨type, htype, hroot⟩ := List.mem_map.mp
    (hfound ▸ List.mem_cons_of_mem _ List.mem_cons_self)
  exact ⟨outcome, type, houtcome, htype, congrArg Prod.fst hroot, congrArg Prod.snd hroot⟩

/-- What the member refers to itself is taken over. -/
theorem takes_over_direct :
    Json.read direct = .ok (sample "B").document ∧ DistinctKeys (sample "B").document ∧
      ∃ outcome type, convertText direct "" = .ok outcome ∧ type ∈ outcome.service.types ∧
        Met (sample "B") (View.root (sample "B").document) ∧ type.source = "#" ∧
        (View.root (sample "B").document).conversionShape = .ok .intersection ∧
        RefersTo (sample "B") (member "B") base ∧ base.hasType "object" = .ok true ∧
        TakesIn type base := by
  have hdistinct : DistinctKeys (sample "B").document := by decide +kernel
  obtain ⟨outcome, type, houtcome, htype, hsource, -⟩ := exists_root ["id"] read_direct
    (by decide +kernel)
  have htarget : RefersTo (sample "B") (member "B") base := ⟨_, _, rfl, rfl, rfl⟩
  have hroot : Met (sample "B") (View.root (sample "B").document) := .refl
  have htaken := intersection_takes_over read_direct hdistinct houtcome htype hroot hsource rfl
  exact ⟨read_direct, hdistinct, outcome, type, houtcome, htype, hroot, hsource, rfl, htarget, rfl,
    htaken.1 (member "B") List.mem_cons_self base htarget rfl⟩

/-- What the member leads to in more than one step is not taken over. -/
theorem not_takes_over_detour :
    ¬ ∀ (text path : String) (options : Options) (document : Json.Node) (outcome : Outcome)
        (type : ObjectType) (view member target : View),
      Json.read text = .ok document → DistinctKeys document →
      convertText text path options = .ok outcome → type ∈ outcome.service.types →
      Met ⟨document, path, options⟩ view → type.source = view.pointer →
      view.conversionShape = .ok .intersection → member ∈ view.allOf?.getD [] →
      Relation.TransGen (RefersTo ⟨document, path, options⟩) member target →
      target.reference? = none → target.hasType "object" = .ok true → TakesIn type target := by
  intro hall
  have hdistinct : DistinctKeys (sample "A").document := by decide +kernel
  obtain ⟨outcome, type, houtcome, htype, hsource, hnames⟩ :=
    exists_root [] read_indirect (by decide +kernel)
  have hfirst : RefersTo (sample "A") (member "A") detour := ⟨_, _, rfl, rfl, rfl⟩
  have hsecond : RefersTo (sample "A") detour base := ⟨_, _, rfl, rfl, rfl⟩
  have htaken := hall indirect "" {} (sample "A").document outcome type
    (View.root (sample "A").document) (member "A") base read_indirect hdistinct houtcome htype .refl
    hsource rfl List.mem_cons_self (.tail (.single hfirst) hsecond) rfl rfl
  have hid : ("id" : Str) ∈ propertyNames type.properties := htaken.names "id" List.mem_cons_self
  exact absurd (hnames ▸ hid) List.not_mem_nil

end AliasedMember

end Schemata.Analysis
