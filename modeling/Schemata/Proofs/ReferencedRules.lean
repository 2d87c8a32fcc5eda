import Schemata.Proofs.ForcedPaths

/-!
# Rules of referenced schemas

A property whose schema is no more than a reference takes the rules of the type that the
reference leads to. A type has rules only if it is primitive, and a list has those of its items.
So the rules of the referenced schema itself are taken over if it is primitive, and lost if it
is an array or becomes an entry.
-/

namespace Schemata.Schema

open Json

/-! ### Rules and types -/

namespace View

variable {view : View} {name other : Str}

theorem scalar?_of_scalar {value : Scalar} (h : view.scalar = .ok value) :
    view.scalar? = some value := by
  unfold scalar at h
  split at h
  next found hfound => rw [hfound, Except.ok.inj h]
  next => cases h

/-- A schema declares one type at most. -/
theorem hasType_eq_false (h : view.hasType name = .ok true) (hother : other ≠ name) :
    view.hasType other = .ok false := by
  unfold hasType at h ⊢
  split
  next type htype =>
    simp only [htype] at h
    obtain ⟨value, hvalue, heq⟩ := map_eq_ok.mp h
    have hname : value = .string name := by simpa using heq
    rw [hvalue, hname]
    simp [Except.map, Ne.symm hother]
  next => rfl

theorem hasType_of_many {types : List View} (h : view.type? = some (.many types)) :
    view.hasType name = .ok false := by
  simp [hasType, h]

/-- The shape of a schema without keywords of composition or an enumeration is told by its
type. -/
theorem shape_cases {shape : Shape} (h : view.shape = .ok shape) :
    shape ∈ [.reference, .intersection, .anyOf, .union, .enumeration] ∨
      (shape = .typeList ∧ ∃ types, view.type? = some (.many types)) ∨
      view.shapeOfType = .ok shape := by
  unfold View.shape at h
  split at h
  · simp_all
  split at h
  · simp_all
  split at h
  · simp_all
  split at h
  · simp_all
  split at h
  next types htypes => exact .inr (.inl ⟨(Except.ok.inj h).symm, types, htypes⟩)
  next =>
    split at h
    · simp_all
    · exact .inr (.inr h)

theorem conversionShape_cases {shape : Shape} (h : view.conversionShape = .ok shape) :
    shape ∈ [.reference, .intersection, .anyOf, .union, .enumeration] ∨
      (shape = .typeList ∧ ∃ types, view.type? = some (.many types)) ∨
      view.shapeOfType = .ok shape := by
  obtain ⟨found, hfound, h⟩ := bind_eq_ok.mp h
  have hcases := shape_cases hfound
  cases found with
  | enumeration =>
      obtain ⟨isString, -, h⟩ := bind_eq_ok.mp h
      cases isString with
      | true =>
          obtain rfl := Except.ok.inj h
          exact hcases
      | false => exact .inr (.inr h)
  | _ =>
      obtain rfl := Except.ok.inj h
      exact hcases

theorem hasType_of_shapeOfType_object (h : view.shapeOfType = .ok .object) :
    view.hasType "object" = .ok true := by
  obtain ⟨isObject, hobject, h⟩ := bind_eq_ok.mp h
  cases isObject with
  | true => exact hobject
  | false =>
      obtain ⟨isArray, -, h⟩ := bind_eq_ok.mp h
      cases isArray with
      | true => cases h
      | false => cases h

theorem hasType_of_shapeOfType_primitive (h : view.shapeOfType = .ok .primitive) :
    view.hasType "object" = .ok false ∧ view.hasType "array" = .ok false := by
  obtain ⟨isObject, hobject, h⟩ := bind_eq_ok.mp h
  cases isObject with
  | true => cases h
  | false =>
      obtain ⟨isArray, harray, h⟩ := bind_eq_ok.mp h
      cases isArray with
      | true => cases h
      | false => exact ⟨hobject, harray⟩

/-- A schema that declares none of the types that rules are for has none. -/
theorem valueRules_eq_nil
    (h : ∀ name ∈ ["string", "number", "integer", "array"], view.hasType name = .ok false) :
    view.valueRules = .ok [] := by
  have hfamily : ∀ family, family ≠ .objects → view.hasFamily family = .ok false := by
    intro family hfamily
    cases family with
    | strings => exact h _ (by decide)
    | numbers =>
        rw [hasFamily, hasNumericType, h "number" (by decide), h "integer" (by decide)]
        rfl
    | arrays => exact h _ (by decide)
    | objects => exact absurd rfl hfamily
  have hrules : ∀ facets : List Facet, (∀ facet ∈ facets, facet.family ≠ .objects) →
      Facet.rules view facets = .ok [] := by
    intro facets hfacets
    induction facets with
    | nil => rfl
    | cons facet rest ih =>
        have hfacet := hfacets facet List.mem_cons_self
        have hadditional : facet ≠ .additionalProperties := by
          rintro rfl
          exact hfacet rfl
        have hrest := ih fun other hother => hfacets other (List.mem_cons_of_mem _ hother)
        rw [Facet.rules, Facet.rule?, if_neg hadditional, hfamily _ hfacet, hrest]
        rfl
  exact hrules _ (by decide)

theorem valueRules_of_object (h : view.shapeOfType = .ok .object) : view.valueRules = .ok [] := by
  have hobject := hasType_of_shapeOfType_object h
  refine valueRules_eq_nil fun name hname => hasType_eq_false hobject fun heq => ?_
  rw [Str.ofString_inj.mp heq] at hname
  exact absurd hname (by decide)

/-! ### The same value elsewhere -/

section SameNode

variable {view other : View} (h : view.node = other.node)

include h

theorem scalarUnder?_of_node (key : Str) : view.scalarUnder? key = other.scalarUnder? key := by
  rw [scalarUnder?, scalarUnder?, child?, child?, h]
  cases other.node.member? key <;> rfl

theorem ruleUnder_of_node (key : Str) (constraint : Constraint) :
    view.ruleUnder key constraint = other.ruleUnder key constraint := by
  rw [ruleUnder, ruleUnder, memberCode?, memberCode?, h]

theorem children?_of_node (key : Str) :
    (view.children? key).map (List.map View.node) =
      (other.children? key).map (List.map View.node) := by
  have hnodes : ∀ (items : List Node) (base : Pointer),
      (items.mapIdx fun index node => (⟨node, base.item index⟩ : View)).map View.node = items := by
    exact fun items base => List.ext_getElem (by simp) (by simp)
  simp only [children?, h]
  cases other.node.member? key with
  | none => rfl
  | some found =>
      cases hitems : found.value.array? with
      | none => simp [hitems]
      | some items => simp [hitems, hnodes]

theorem hasType_of_node {name : Str} {applies : Bool} (hview : view.hasType name = .ok applies) :
    other.hasType name = .ok applies := by
  simp only [hasType, type?, oneOrMany?, children?, child?, h] at hview ⊢
  cases hmember : other.node.member? "type" with
  | none => simpa [hmember] using hview
  | some found =>
      cases hitems : found.value.array? with
      | some items => simpa [hmember, hitems] using hview
      | none =>
          cases hscalar : found.value.scalar? with
          | none => simp [hmember, hitems, scalar, scalar?, hscalar, Except.map] at hview
          | some value => simpa [hmember, hitems, scalar, scalar?, hscalar] using hview

theorem hasFamily_of_node {family : Family} {applies : Bool}
    (hview : view.hasFamily family = .ok applies) : other.hasFamily family = .ok applies := by
  cases family with
  | strings | arrays | objects => exact hasType_of_node h hview
  | numbers =>
      obtain ⟨number, hnumber, hview⟩ := bind_eq_ok.mp hview
      obtain ⟨integer, hinteger, hview⟩ := bind_eq_ok.mp hview
      rw [hasFamily, hasNumericType, hasType_of_node h hnumber, hasType_of_node h hinteger]
      exact hview

theorem enumRule?_of_node : view.enumRule? = other.enumRule? := by
  have hstring : View.string? = (fun node : Node => node.scalar?.bind Scalar.string?) ∘ View.node :=
    rfl
  have hmembers := children?_of_node h "enum"
  unfold enumRule? enum?
  cases hview : view.children? "enum" with
  | none =>
      cases hother : other.children? "enum" with
      | none => rfl
      | some others => simp [hview, hother] at hmembers
  | some members =>
      cases hother : other.children? "enum" with
      | none => simp [hview, hother] at hmembers
      | some others =>
          simp only [hview, hother, Option.map_some, Option.some.injEq] at hmembers
          simp only [hstring, ← List.filterMap_map, hmembers, ruleUnder_of_node h]

theorem read?_of_node (facet : Facet) : facet.read? view = facet.read? other := by
  cases facet with
  | enumeration => exact enumRule?_of_node h
  | _ =>
      simp only [Facet.read?, numberRule?, textRule?, boundRule?, numberUnder?, textUnder?,
        scalarUnder?_of_node h, ruleUnder_of_node h]

/-- The rules of a schema are told by its value alone, wherever that is. -/
theorem valueRules_of_node {rules : List Rule} (hview : view.valueRules = .ok rules) :
    other.valueRules = .ok rules := by
  have hrules : ∀ (facets : List Facet) (rules : List Rule), Facet.rules view facets = .ok rules →
      Facet.rules other facets = .ok rules := by
    intro facets
    induction facets with
    | nil => exact fun _ hrules => hrules
    | cons facet rest ih =>
        intro rules hrules
        obtain ⟨rule, hrule, hrules⟩ := bind_eq_ok.mp hrules
        obtain ⟨others, hothers, hrules⟩ := bind_eq_ok.mp hrules
        have hsame : facet.rule? other = .ok rule := by
          unfold Facet.rule? at hrule ⊢
          split
          next hadditional => rwa [if_pos hadditional] at hrule
          next hadditional =>
            rw [if_neg hadditional] at hrule
            obtain ⟨applies, happlies, rfl⟩ := map_eq_ok.mp hrule
            rw [hasFamily_of_node h happlies, read?_of_node h]
            rfl
        rw [Facet.rules, hsame, ih _ hothers]
        exact hrules
  exact hrules _ _ hview

end SameNode

end View

end Schemata.Schema

namespace Schemata.Analysis

open Schema Source

variable {setting : Setting} {view target last : View} {loc lastLoc : Option LocationCode}
  {path : List View} {before after : Context} {type : ValueType}

/-! ### The rules of an end -/

theorem mapped?_ne_none {name : String} (h : name ∈ ["string", "number", "integer"])
    (format : Option Str) : mapped? name format ≠ none := by
  have hlookup : ∀ name ∈ ["string", "number", "integer"],
      unformatted.lookup (Str.ofString name) ≠ none := by
    decide
  intro hnone
  exact hlookup name h (Option.or_eq_none_iff.mp hnone).2

/-- A schema of no known primitive type has no rules. -/
theorem valueRules_of_unmapped (hshape : view.shapeOfType = .ok .primitive)
    (htype : mappedPrimitive? view = none) : view.valueRules = .ok [] := by
  obtain ⟨hobject, harray⟩ := View.hasType_of_shapeOfType_primitive hshape
  refine View.valueRules_eq_nil fun name hname => ?_
  by_cases hother : name = "array"
  · rw [hother, harray]
  unfold View.hasType at hobject ⊢
  split
  next type hone =>
    simp only [hone] at hobject
    obtain ⟨value, hvalue, -⟩ := map_eq_ok.mp hobject
    rw [hvalue]
    have hne : value ≠ .string name := by
      rintro rfl
      have hscalar := View.scalar?_of_scalar hvalue
      simp only [mappedPrimitive?, hone, View.string?, hscalar] at htype
      exact mapped?_ne_none (by simp_all) _ htype
    simp [Except.map, hne]
  next => rfl

/-- The rules that the type of a schema comes with, if no reference or array leads on from
there: a primitive type has rules, and any other has none. -/
inductive EndRules (view : View) : List Rule → Prop
  | primitive {rules : List Rule} (hshape : view.conversionShape = .ok .primitive)
      (hrules : view.valueRules = .ok rules) : EndRules view rules
  | other {shape : Shape} (hshape : view.conversionShape = .ok shape)
      (hother : shape ≠ .primitive) : EndRules view []

namespace EndRules

variable {rules : List Rule} {shape : Shape}

theorem exists_shape (h : EndRules view rules) : ∃ shape, view.conversionShape = .ok shape := by
  cases h with
  | primitive hshape _ => exact ⟨_, hshape⟩
  | other hshape _ => exact ⟨_, hshape⟩

theorem eq_nil (h : EndRules view rules) (hshape : view.conversionShape = .ok shape)
    (hother : shape ≠ .primitive) : rules = [] := by
  cases h with
  | primitive hprimitive _ => exact absurd (Except.ok.inj (hshape.symm.trans hprimitive)) hother
  | other => rfl

/-- An object schema and one that lists types have no rules of their own either. -/
theorem valueRules (h : EndRules view rules) (hshape : view.conversionShape = .ok shape)
    (hkind : shape ∈ [.primitive, .object, .typeList]) : view.valueRules = .ok rules := by
  cases h with
  | primitive _ hrules => exact hrules
  | other hother hne =>
      obtain rfl := Except.ok.inj (hshape.symm.trans hother)
      rcases View.conversionShape_cases hshape with hcases | ⟨-, types, htypes⟩ | htype
      · simp at hcases hkind
        grind
      · exact View.valueRules_eq_nil fun _ _ => View.hasType_of_many htypes
      · rcases shapeOfType_cases htype with rfl | rfl | rfl
        · exact View.valueRules_of_object htype
        · simp at hkind
        · exact absurd rfl hne

end EndRules

theorem HasType.endRules (h : HasType setting view loc type) : EndRules view type.rules := by
  cases h with
  | named hshape hnamed _ => exact .other hshape (by rintro rfl; cases hnamed)
  | primitive hshape _ _ hrules => exact .primitive hshape hrules
  | unmapped hshape htype =>
      rcases View.conversionShape_cases hshape with hcases | ⟨heq, -⟩ | htypeShape
      · simp at hcases
      · cases heq
      · exact .primitive hshape (valueRules_of_unmapped htypeShape htype)
  | placeholder hshape hkind => exact .other hshape (by rcases hkind with rfl | rfl <;> nofun)
  | nowhere hshape => exact .other hshape nofun
  | itemless hshape => exact .other hshape nofun

/-! ### The rules of a property -/

theorem rules_withConstant (type : ValueType) (constant : Option Constant) :
    (type.withConstant constant).rules = type.rules := by
  unfold ValueType.withConstant
  split <;> rfl

section Properties

variable {entry : Schema.Entry} {property : Property}

/-- A property has the rules of its own schema. If there are none and the schema is a
reference, it has those of the type that the schema is converted to. -/
theorem rules_of_property
    (h : (convertProperty setting entry).Returns before property after) :
    ∃ converted middle own,
      (convert setting entry.view (some entry.code)).Returns before converted middle ∧
        entry.view.valueRules = .ok own ∧
        property.type.rules =
          if own.isEmpty && entry.view.reference?.isSome then converted.type.rules else own := by
  obtain ⟨converted, own, required, hconverted, hown, -, rfl⟩ :=
    (ensures_property entry).of_returns h
  exact ⟨converted, after, own, hconverted, hown, rules_withConstant _ _⟩

/-- A property whose schema is no reference has the rules of that schema. -/
theorem rules_of_unreferenced (hreference : entry.view.reference? = none)
    (hreturns : (convertProperty setting entry).Returns before property after) :
    entry.view.valueRules = .ok property.type.rules := by
  obtain ⟨converted, middle, own, -, hown, hrules⟩ := rules_of_property hreturns
  rw [hrules, hreference, Option.isSome_none, Bool.and_false, if_neg Bool.false_ne_true]
  exact hown

/-- A property whose schema is a reference without rules has those of the end of the path from
its target. -/
theorem endRules_of_property (hdistinct : DistinctKeys setting.document)
    (hentry : Placed setting.document entry.view) (hbare : entry.view.valueRules = .ok [])
    (htarget : RefersTo setting entry.view target)
    (hfree : Unnamed target → target.pointer ∉ before.chain)
    (hpath : ForcedPath setting target (some entry.code) path last lastLoc)
    (hrest : PathFree setting path before.chain)
    (hreturns : (convertProperty setting entry).Returns before property after) :
    EndRules last property.type.rules := by
  obtain ⟨converted, middle, own, hconverted, hown, hrules⟩ := rules_of_property hreturns
  obtain rfl := Except.ok.inj (hbare.symm.trans hown)
  have hreference : entry.view.reference?.isSome = true := by
    obtain ⟨reference, _, hreference, -⟩ := htarget
    rw [hreference]
    rfl
  have hloc : passedLoc entry.view target (some entry.code) = some entry.code := by
    rw [passedLoc, isList_eq_false htarget.conversionShape (by decide)]
    rfl
  have hwhole : ForcedPath setting entry.view (some entry.code) (entry.view :: path) last lastLoc :=
    .next (.inl htarget) (hloc.symm ▸ hpath)
  have hwholeFree : PathFree setting (entry.view :: path) before.chain := by
    intro passed hpassed other hother hunnamed
    rcases List.mem_cons.mp hpassed with rfl | hmem
    · obtain rfl := hother.unique htarget
      exact hfree hunnamed
    · exact hrest passed hmem other hother hunnamed
  obtain ⟨type, htype, hconvertedType⟩ :=
    convertWithin_forcedPath hdistinct hentry hwhole hwholeFree hconverted
  have hequal : property.type.rules = type.rules := by
    rw [hrules, hreference, hconvertedType]
    rfl
  rw [hequal]
  exact htype.endRules

/-- A property whose schema is a bare reference has the rules of the referenced schema if that is
primitive, and also if it is an object schema or lists types, as there are none then. It has no
rules if the schema becomes an entry or is not supported, and those of the items if it is an
array, whatever the rules of the schema itself are. An inline copy of the schema always has
these. -/
theorem rules_of_bare_reference (hdistinct : DistinctKeys setting.document)
    (hentry : Placed setting.document entry.view) (hbare : entry.view.valueRules = .ok [])
    (htarget : RefersTo setting entry.view target) (hlast : target.reference? = none)
    (hfree : Unnamed target → target.pointer ∉ before.chain)
    (hreturns : (convertProperty setting entry).Returns before property after) :
    (∃ shape, target.conversionShape = .ok shape ∧
      (shape ∈ [.primitive, .object, .typeList] → target.valueRules = .ok property.type.rules) ∧
      (shape ∈ [.intersection, .anyOf, .union, .enumeration] → property.type.rules = []) ∧
      (shape = .array → ∀ path last lastLoc,
        ForcedPath setting target (some entry.code) path last lastLoc →
          PathFree setting path before.chain → EndRules last property.type.rules)) ∧
      ∀ (inline : Schema.Entry) start copy stop, inline.view.node = target.node →
        (convertProperty setting inline).Returns start copy stop →
          target.valueRules = .ok copy.type.rules := by
  refine ⟨?_, fun inline start copy stop hnode hcopy => ?_⟩
  · have hrules : ∀ path last lastLoc,
        ForcedPath setting target (some entry.code) path last lastLoc →
        PathFree setting path before.chain → EndRules last property.type.rules :=
      fun _ _ _ hpath hrest =>
        endRules_of_property hdistinct hentry hbare htarget hfree hpath hrest hreturns
    by_cases hnext : ∃ next, Passes setting target next
    · obtain ⟨next, hreference | hitem⟩ := hnext
      · obtain ⟨_, _, hreference, -⟩ := hreference
        exact absurd (hlast.symm.trans hreference) nofun
      · exact ⟨.array, hitem.1, by simp, by simp, fun _ => hrules⟩
    · -- The path ends at the target, which has a type of its own.
      have hend : ∀ next, ¬ Passes setting target next := fun next h => hnext ⟨next, h⟩
      have hrest : PathFree setting [target] before.chain := by
        intro passed hpassed other hother
        obtain rfl := List.mem_singleton.mp hpassed
        exact absurd (.inl hother) (hend other)
      have hends := hrules _ _ _ (.last hend) hrest
      obtain ⟨shape, hshape⟩ := hends.exists_shape
      refine ⟨shape, hshape, hends.valueRules hshape, fun hkind => ?_, fun _ => hrules⟩
      exact hends.eq_nil hshape fun heq => by simp [heq] at hkind
  · exact View.valueRules_of_node hnode
      (rules_of_unreferenced (by simpa [View.reference?, View.child?, hnode] using hlast) hcopy)

end Properties

namespace TagList

def tag : View :=
  ⟨bareObject [("type", bareString "string")], "#/definitions/Tags/items"⟩

def list : View :=
  ⟨bareObject [("type", bareString "array"), ("items", tag.node),
    ("minItems", .scalar .start (.number (.integer 1)) "1")], "#/definitions/Tags"⟩

def entry : Schema.Entry :=
  ⟨⟨"tags", "tags", .start⟩,
    ⟨bareObject [("$ref", bareString "#/definitions/Tags")], "#/properties/tags"⟩⟩

/-- An object with a list of at least one tag. -/
def sample : Setting :=
  ⟨bareObject [("type", bareString "object"), ("definitions", bareObject [("Tags", list.node)]),
    ("properties", bareObject [("tags", entry.view.node)])], "", {}⟩

theorem refersTo_tags : RefersTo sample entry.view list :=
  ⟨_, _, rfl, rfl, rfl⟩

/-- The list must not be empty, but the property may be. -/
theorem rules_of_tags_lost :
    DistinctKeys sample.document ∧ entry ∈ propertyEntries (View.root sample.document) ∧
      entry.view.valueRules = .ok [] ∧ RefersTo sample entry.view list ∧ list.reference? = none ∧
      list.valueRules = .ok [list.ruleUnder "minItems" (.minItems (.integer 1))] ∧
      (analyze sample).2.violations = [] ∧
      (analyze sample).2.types.map (fun type => (type.source, type.properties.map
        fun property => (property.name.value, property.type.rules))) =
          [(("#" : Pointer), [(("tags" : Str), [])])] := by
  refine ⟨by decide +kernel, List.mem_cons_self, rfl, refersTo_tags, rfl, rfl, ?_, ?_⟩
  · decide +kernel
  · decide +kernel

/-- The property has the rules of a tag. -/
theorem rules_of_tags :
    ∃ property after, (convertProperty sample entry).Returns {} property after ∧
      EndRules tag property.type.rules := by
  have hreturns : ((convertProperty sample entry).run.run {}).1.toOption.isSome = true := by
    decide +kernel
  have htag : tag.conversionShape = .ok .primitive := rfl
  have hpath : ForcedPath sample list (some entry.code) [list, tag] tag (some tag.code) :=
    .next (.inr ⟨rfl, rfl⟩) (.last (not_passes htag nofun (not_listsItem htag nofun)))
  have hresolve : resolve sample.document entry.view.pointer = .ok (some entry.view) := rfl
  rcases hrun : (convertProperty sample entry).run.run {} with ⟨failure | property, after⟩
  · simp [hrun, Except.toOption] at hreturns
  · have hdistinct : DistinctKeys sample.document := by decide +kernel
    obtain ⟨⟨shape, hshape, -, -, harray⟩, -⟩ := rules_of_bare_reference hdistinct
      (.of_resolve hresolve) rfl refersTo_tags rfl (fun _ => List.not_mem_nil) hrun
    have hlist : list.conversionShape = .ok .array := rfl
    refine ⟨property, after, hrun, ?_⟩
    exact harray (Except.ok.inj (hshape.symm.trans hlist)) _ _ _ hpath
      fun _ _ _ _ _ => List.not_mem_nil

end TagList

end Schemata.Analysis
