import Schemata.Proofs.AccessPaths
import Schemata.Proofs.Intersections
import Schemata.Proofs.Merging

/-!
# Required properties

A property is required if the schema that lists it says so. That schema is looked up along the
pointer of the property, two segments back, and what it is found to say is what it says, however
its keys and the pointer to it are spelled. So the property of an intersection is required if the
part that it was read from requires it.
-/

namespace Schemata.Schema

open Json

/-- A schema has a key in its list of those that are required. -/
def View.Demands (view : View) (key : Str) : Prop :=
  ∃ found ∈ view.node.members, found.key.name = "required" ∧
    ∃ item ∈ found.value.items, item.scalar? = some (.string key)

/-- Views of the items of a list name a key if one of the items does. -/
theorem requires_mapIdx_iff {items : List Node} {place : Nat → Pointer} {key : Str} :
    requires (items.mapIdx fun index node => ⟨node, place index⟩) key = true ↔
      ∃ item ∈ items, item.scalar? = some (.string key) := by
  simp only [requires, List.any_eq_true, List.mem_mapIdx, decide_eq_true_eq]
  constructor
  · rintro ⟨_, ⟨index, hindex, rfl⟩, hkey⟩
    exact ⟨items[index], List.getElem_mem hindex, hkey⟩
  · rintro ⟨item, hitem, hkey⟩
    obtain ⟨index, hindex, rfl⟩ := List.getElem_of_mem hitem
    exact ⟨_, ⟨index, hindex, rfl⟩, hkey⟩

/-- If no key is repeated, what a schema is found to require is what it has in its list. -/
theorem any_requires_iff {view : View} {key : Str}
    (hnodup : (view.node.members.map fun found => found.key.name).Nodup) :
    view.required?.any (requires · key) = true ↔ view.Demands key := by
  unfold View.required? View.children?
  constructor
  · intro h
    obtain ⟨parts, hparts, hkey⟩ := (Option.any_eq_true _ _).mp h
    simp only [Option.bind_eq_bind, Option.bind_eq_some_iff] at hparts
    obtain ⟨found, hfound, items, hitems, heq⟩ := hparts
    obtain rfl := Option.some.inj heq
    obtain ⟨hmem, hname⟩ := member?_eq_some hfound
    exact ⟨found, hmem, hname, items_of_array? hitems ▸ requires_mapIdx_iff.mp hkey⟩
  · rintro ⟨found, hmem, hname, item, hitem, hkey⟩
    have hfound := member?_of_mem hnodup hmem
    rw [hname] at hfound
    cases hvalue : found.value with
    | object | scalar => simp [hvalue, Node.items] at hitem
    | array range items =>
        rw [hvalue] at hitem
        simp only [hfound, hvalue, Node.array?, Option.bind_eq_bind, Option.bind_some]
        exact requires_mapIdx_iff.mpr ⟨item, hitem, hkey⟩

section Owner

variable {document : Node} {owner : View} (howner : Placed document owner)

include howner

/-- Two segments above a part of a part is the schema itself, by some spelling of its pointer. -/
theorem node_of_ancestor {outer inner : Str} {found : Option View}
    (h : ancestor document ((owner.pointer.child outer).child inner) 2 = .ok found) :
    ∃ pointer, found = some ⟨owner.node, pointer⟩ := by
  obtain ⟨path, hsegments, hleads⟩ := howner
  have hpointer : ((owner.pointer.child outer).child inner).segments =
      (Pointer.root :: path) ++ [outer, inner] := by
    rw [Pointer.segments_child, Pointer.segments_child, hsegments, List.append_assoc]
    rfl
  have hancestor := ancestor_of_segments document hpointer (List.cons_ne_nil _ _)
    (List.cons_ne_nil _ _)
  have hresolve : resolve document (Pointer.root.join path) = .ok found := hancestor.symm.trans h
  have hjoined : (Pointer.root.join path).segments = Pointer.root :: path := by
    rw [segments_join, Pointer.segments_root]
    rfl
  rw [resolve, hjoined] at hresolve
  obtain ⟨node, hnode, rfl⟩ := map_eq_ok.mp hresolve
  obtain rfl := hleads.eq_of_follow hnode
  exact ⟨_, rfl⟩

/-- Whether a property is required is what the schema says whose pointer its pointer extends. -/
theorem isRequired_iff {key : Str} {required : Bool} (hdistinct : DistinctKeys document)
    (h : isRequired document ((owner.pointer.child "properties").child key) = .ok required) :
    required = true ↔ owner.Demands key := by
  have hreverse : ((owner.pointer.child "properties").child key).segments.reverse =
      key :: "properties" :: owner.pointer.segments.reverse := by
    simp [Pointer.segments_child]
  obtain ⟨last, outer, houter⟩ : ∃ last outer, owner.pointer.segments.reverse = last :: outer := by
    obtain ⟨path, hsegments, -⟩ := howner
    exact List.exists_cons_of_ne_nil (by simp [hsegments])
  rw [isRequired, hreverse, houter] at h
  obtain ⟨found, hfound, hrequired⟩ := bind_eq_ok.mp h
  obtain ⟨pointer, rfl⟩ := node_of_ancestor howner hfound
  obtain ⟨path, -, hleads⟩ := howner
  have hnodup := hdistinct.nodup (hleads.occurs (.root document))
  exact Except.ok.inj hrequired ▸ any_requires_iff hnodup

end Owner

end Schemata.Schema

namespace Schemata.Analysis

open Schema Source

theorem isOptional_withConstant (type : ValueType) (constant : Option Constant) :
    (type.withConstant constant).isOptional = type.isOptional := by
  unfold ValueType.withConstant
  split <;> rfl

section Properties

variable {setting : Setting} {convert : Converter} {before after : Context}
  {entry : Schema.Entry} {property : Property} {owner : View}

/-- A property may be absent unless its schema is found to be required. -/
theorem isRequired_of_property
    (h : (Analysis.property setting convert entry).Returns before property after) :
    isRequired setting.document entry.view.pointer = .ok !property.type.isOptional := by
  obtain ⟨_, _, required, -, -, hrequired, rfl⟩ := (ensures_property entry).of_returns h
  rw [hrequired, isOptional_withConstant, Bool.not_not]

theorem pointer_of_mem_propertyEntries (h : entry ∈ propertyEntries owner) :
    entry.view.pointer = (owner.pointer.child "properties").child entry.key.name := by
  obtain ⟨hentry, -⟩ := List.mem_filter.mp h
  cases hmap : owner.properties? with
  | none => simp [hmap] at hentry
  | some map =>
      rw [hmap] at hentry
      obtain ⟨found, -, rfl⟩ := Option.map_eq_some_iff.mp hmap
      obtain ⟨member, -, rfl⟩ := List.mem_map.mp hentry
      rfl

/-- A property that was made of an entry is required if the schema says so that has the entry. -/
theorem isOptional_eq_false_iff (hdistinct : DistinctKeys setting.document)
    (howner : Placed setting.document owner) (hentry : entry ∈ propertyEntries owner)
    (hreturns : (Analysis.property setting convert entry).Returns before property after) :
    property.type.isOptional = false ↔ owner.Demands entry.key.name := by
  have hrequired := isRequired_of_property hreturns
  rw [pointer_of_mem_propertyEntries hentry] at hrequired
  rw [← isRequired_iff howner hdistinct hrequired, Bool.not_eq_true']

end Properties

/-- The schemas whose properties an object type has: the parts of an intersection, or the schema
itself. -/
def propertyOwners (setting : Setting) (view : View) : Shape → List View
  | .intersection => (view.allOf?.getD []).flatMap (takenOver setting)
  | _ => [view]

/-- The schema that the property of a name is read from. If several list the name it is the last
one. -/
def readFrom? (setting : Setting) (view : View) (shape : Shape) (name : Str) : Option View :=
  (propertyOwners setting view shape).findRev? fun owner => name ∈ propertyKeys owner

/-- A property was made of the entry of its name in a schema. -/
structure MadeIn (setting : Setting) (owner : View) (entry : Schema.Entry) (property : Property) :
    Prop where
  mem : entry ∈ propertyEntries owner
  name : entry.key.name = property.name.value
  returns : (Analysis.property setting (convert setting) entry).MayReturn property

section Owners

variable {setting : Setting} {met : View → Prop} {view : View} {shape : Shape} {type : ObjectType}

/-- Each property of a completed object type was made in the schema that it is read from. -/
theorem Filled.exists_owner (h : Filled setting met type view shape) {property : Property}
    (hproperty : property ∈ type.properties) : ∃ owner entry,
      readFrom? setting view shape property.name.value = some owner ∧
        owner ∈ propertyOwners setting view shape ∧ MadeIn setting owner entry property := by
  obtain ⟨start, stop, hbody⟩ := h.body
  rcases h.kind with rfl | rfl
  · obtain ⟨⟨first, last, hreturns⟩, -⟩ := objectBody_of_returns hbody
    obtain ⟨converted, hconverted, hentries, hproperties⟩ :=
      (converts_propertyList _).of_returns hreturns
    change type.properties = _ at hproperties
    rw [hproperties] at hproperty
    obtain ⟨⟨entry, _⟩, hpair, rfl⟩ := List.mem_map.mp hproperty
    have hentry : entry ∈ propertyEntries view := hentries ▸ List.mem_map_of_mem hpair
    have hname : _ = entry.key.name := congrArg Label.value (hconverted.name_eq _ hpair)
    have hmade := hconverted.mayReturn hpair
    dsimp only at hname hmade ⊢
    have hkey : entry.key.name ∈ propertyKeys view := List.mem_map_of_mem hentry
    refine ⟨view, entry, ?_, List.mem_cons_self, hentry, hname.symm, hmade⟩
    rw [hname]
    simp [readFrom?, propertyOwners, hkey]
  · obtain ⟨⟨first, converted, last, hconverted, -, hentries, hmerged⟩, -⟩ :=
      assembled_of_returns (Context.Grows.refl stop).earlier hbody
    obtain ⟨part, entry, hpart, hentry, hlast⟩ := hmerged.last property hproperty
    obtain ⟨hmem, hname⟩ := mem_of_findRev?_eq_some hentry
    have hreturns := hconverted.mayReturn (mem_of_findRev?_eq_some hlast).1
    have howner := (mem_of_findRev?_eq_some hpart).1
    exact ⟨part, entry, hpart, howner, hmem, by simpa using hname, hreturns⟩

/-- A schema whose properties are taken lies where its pointer leads. -/
theorem placed_of_mem_propertyOwners (hdistinct : DistinctKeys setting.document)
    (hview : Placed setting.document view) {owner : View}
    (howner : owner ∈ propertyOwners setting view shape) : Placed setting.document owner := by
  cases shape with
  | intersection => exact (mem_flatMap_takenOver_iff.mp howner).placed hdistinct hview
  | _ =>
      obtain rfl := List.mem_singleton.mp howner
      exact hview

end Owners

/-- Every object type of an outcome was made of a schema that is met, and its properties were read
from that schema or, if it is an intersection, from its parts. A property must be there if and
only if the schema that it was read from has its name in its list of those that are required. -/
theorem required_properties {text path : String} {options : Options} {document : Json.Node}
    {outcome : Outcome} (hread : Json.read text = .ok document)
    (hdistinct : DistinctKeys document) (houtcome : convertText text path options = .ok outcome) :
    ∀ type ∈ outcome.service.types, ∃ view shape, Met ⟨document, path, options⟩ view ∧
      type.source = view.pointer ∧ view.conversionShape = .ok shape ∧
      ∀ property ∈ type.properties, ∃ owner entry,
        readFrom? ⟨document, path, options⟩ view shape property.name.value = some owner ∧
          MadeIn ⟨document, path, options⟩ owner entry property ∧
          (property.type.isOptional = false ↔ owner.Demands property.name.value) := by
  obtain ⟨tree, converted, context, label, htree, hreturns, rfl⟩ := convertText_eq_ok houtcome
  obtain rfl : document = tree := Except.ok.inj (hread.symm.trans htree)
  intro type htype
  obtain ⟨view, shape, hfilled⟩ := analyze_filled hreturns type htype
  refine ⟨view, shape, hfilled.met, hfilled.source, hfilled.conversion, ?_⟩
  intro property hproperty
  obtain ⟨owner, entry, hfrom, howner, hmade⟩ := hfilled.exists_owner hproperty
  obtain ⟨start, stop, hproperty⟩ := hmade.returns
  have hplaced := placed_of_mem_propertyOwners hdistinct
    (hfilled.met.placed hdistinct (.root document)) howner
  refine ⟨owner, entry, hfrom, hmade, ?_⟩
  rw [← hmade.name]
  exact isOptional_eq_false_iff hdistinct hplaced hmade.mem hproperty

namespace InheritedKeys

/-- An intersection of one member, which refers to an object schema. Of its two properties the one
is required, and the other one is called like the keyword for properties. -/
def text : String :=
  "\x7b\"allOf\":[\x7b\"$ref\":\"#/$defs/x~1y\"\x7d]," ++
    "\"$defs\":\x7b\"x/y\":\x7b\"type\":\"object\"," ++
    "\"properties\":\x7b\"a/b\":\x7b\x7d,\"properties\":\x7b\x7d\x7d," ++
    "\"required\":[\"a/b\"]\x7d\x7d\x7d"

def base : View :=
  ⟨.object (.inFirstLine 50 126)
    [⟨⟨"type", "\"type\"", .inFirstLine 51 57⟩,
        .scalar (.inFirstLine 58 66) (.string "object") "\"object\""⟩,
      ⟨⟨"properties", "\"properties\"", .inFirstLine 67 79⟩,
        .object (.inFirstLine 80 106)
          [⟨⟨"a/b", "\"a/b\"", .inFirstLine 81 86⟩, .object (.inFirstLine 87 89) []⟩,
            ⟨⟨"properties", "\"properties\"", .inFirstLine 90 102⟩,
              .object (.inFirstLine 103 105) []⟩]⟩,
      ⟨⟨"required", "\"required\"", .inFirstLine 107 117⟩,
        .array (.inFirstLine 118 125)
          [.scalar (.inFirstLine 119 124) (.string "a/b") "\"a/b\""]⟩],
    "#/$defs/x~1y"⟩

def tree : Json.Node :=
  .object (.inFirstLine 0 128)
    [⟨⟨"allOf", "\"allOf\"", .inFirstLine 1 8⟩,
        .array (.inFirstLine 9 34)
          [.object (.inFirstLine 10 33)
            [⟨⟨"$ref", "\"$ref\"", .inFirstLine 11 17⟩,
              .scalar (.inFirstLine 18 32) (.string "#/$defs/x~1y") "\"#/$defs/x~1y\""⟩]]⟩,
      ⟨⟨"$defs", "\"$defs\"", .inFirstLine 35 42⟩,
        .object (.inFirstLine 43 127) [⟨⟨"x/y", "\"x/y\"", .inFirstLine 44 49⟩, base.node⟩]⟩]

theorem read_text : Json.read text = .ok tree := by
  cbv

theorem distinctKeys_tree : DistinctKeys tree := by
  decide +kernel

theorem exists_outcome : ∃ outcome, convertText text "" = .ok outcome ∧
    outcome.service.types.map (fun type => (type.source, type.properties.map fun property =>
      (property.name.value, property.type.isOptional))) =
        ([("#/$defs/x~1y", [("a/b", false), ("properties", true)]),
          ("#", [("a/b", false), ("properties", true)])] : List (Pointer × List (Str × Bool))) := by
  have htypes : ((outcome ⟨tree, "", {}⟩).1.map fun found =>
      found.service.types.map fun type => (type.source, type.properties.map fun property =>
        (property.name.value, property.type.isOptional))) =
          .ok [("#/$defs/x~1y", [("a/b", false), ("properties", true)]),
            ("#", [("a/b", false), ("properties", true)])] := by
    decide +kernel
  exact exists_convertText read_text htypes

/-- The properties of the intersection are read from the schema that its member refers to. -/
theorem required_by_base : Json.read text = .ok tree ∧ DistinctKeys tree ∧
    ∃ outcome type, convertText text "" = .ok outcome ∧ type ∈ outcome.service.types ∧
      type.source = "#" ∧ (type.properties.map fun property =>
        (property.name.value, property.type.isOptional)) =
          ([("a/b", false), ("properties", true)] : List (Str × Bool)) ∧
      ∀ property ∈ type.properties,
        (property.type.isOptional = false ↔ base.Demands property.name.value) := by
  obtain ⟨outcome, houtcome, htypes⟩ := exists_outcome
  obtain ⟨type, htype, hroot⟩ := List.mem_map.mp
    (htypes ▸ List.mem_cons_of_mem _ List.mem_cons_self)
  obtain ⟨hsource, hproperties⟩ := Prod.mk.inj hroot
  obtain ⟨view, shape, hview, hpointer, hshape, hrequired⟩ :=
    required_properties read_text distinctKeys_tree houtcome type htype
  have hmet : Met ⟨tree, "", {}⟩ (View.root tree) := .refl
  obtain rfl : View.root tree = view := hmet.eq_of_pointer distinctKeys_tree (.root tree) hview
    (hsource.symm.trans hpointer)
  obtain rfl : Shape.intersection = shape := Except.ok.inj hshape
  refine ⟨read_text, distinctKeys_tree, outcome, type, houtcome, htype, hsource, hproperties, ?_⟩
  intro property hproperty
  obtain ⟨owner, entry, howner, -, hiff⟩ := hrequired property hproperty
  obtain rfl : base = owner := by
    have hmem := (mem_of_findRev?_eq_some howner).1
    exact (List.mem_singleton.mp hmem).symm
  exact hiff

end InheritedKeys

end Schemata.Analysis
