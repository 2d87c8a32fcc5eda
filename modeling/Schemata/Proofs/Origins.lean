import Schemata.Proofs.Layouts
import Schemata.Proofs.Results
import Schemata.Proofs.Descent

/-!
# Origins of entries

An entry has a range in the text. It is that of the place from which its schema was first
called for: the schema itself, or a reference that leads to it. A reference hands the range of
its own place on to its target, so that the range of an entry need not be where the pointer of
the entry leads to.
-/

namespace Schemata.Source

/-- The first range reaches over the second one. -/
def Range.Encloses (outer inner : Range) : Prop :=
  outer.first.offset ≤ inner.first.offset ∧ inner.last.offset ≤ outer.last.offset

instance (outer inner : Range) : Decidable (outer.Encloses inner) :=
  inferInstanceAs (Decidable (_ ∧ _))

theorem Range.Encloses.refl (range : Range) : range.Encloses range :=
  ⟨le_rfl, le_rfl⟩

end Schemata.Source

namespace Schemata

open Source

/-- The pointers of all entries, with their ranges. -/
def Service.sites (service : Service) : List (Pointer × Option LocationCode) :=
  service.types.map (fun type => (type.source, type.loc)) ++
    service.enums.map (fun type => (type.source, type.loc)) ++
      service.unions.map fun type => (type.source, type.loc)

end Schemata

namespace Schemata.Json

open Grammar Source Schema

theorem Spells.key_le {text : List Char} {member : Member Node} (h : Spells text (.member member)) :
    member.key.range.first.offset ≤ member.value.range.first.offset := by
  obtain ⟨start, _, tail, -, hwritten⟩ := h
  cases hwritten with
  | @member _ _ _ _ _ _ _ _ _ _ hvalue =>
      rw [hvalue.range_eq]
      exact offset_le_past _ _

/-- The members of a document reach over their values. -/
def MembersEnclose (document : Node) : Prop :=
  ∀ node, Occurs document node → ∀ member ∈ node.members, member.range.Encloses member.value.range

theorem membersEnclose_of_read {text : String} {document : Node} (h : read text = .ok document) :
    MembersEnclose document := by
  intro node hnode member hmember
  cases node with
  | object range members =>
      exact ⟨(((spells_of_read h).occurs hnode).members hmember).key_le, le_rfl⟩
  | array | scalar => exact absurd hmember List.not_mem_nil

end Schemata.Json

namespace Schemata.Analysis

open Schema Source Json

variable {setting : Setting} {view : View} {loc : Option LocationCode}

/-! ### Where a schema is called for -/

/-- The conversion of a document may come to a schema, to make an entry of it at a range. -/
inductive Called (setting : Setting) : View → Option LocationCode → Prop
  | root : Called setting (View.root setting.document) (some (View.root setting.document).code)
  | definition {view : View} {loc : Option LocationCode} {entry : Schema.Entry}
      (hview : Called setting view loc) (hentry : entry ∈ definitionEntries view)
      (hwanted : entry.key.name ∉ setting.options.ignoreDefinitions) :
      Called setting entry.view (some entry.code)
  | call {view called : View} {loc calledLoc : Option LocationCode} {opened : Option Label}
      {context : Context} (hview : Called setting view loc)
      (hcall : Calls setting view loc opened context called calledLoc) :
      Called setting called calledLoc

/-- The place of a schema: its value, or the member of a map that has this value. -/
inductive IsPlace (document : Json.Node) (view : View) : Range → Prop
  | value : IsPlace document view view.node.range
  | member {map : View} {key : Key} (hmap : Occurs document map.node)
      (hentry : ⟨key, view⟩ ∈ map.entries) :
      IsPlace document view ⟨key.range.first, view.node.range.last⟩

theorem IsPlace.encloses {document : Json.Node} {range : Range}
    (hmembers : MembersEnclose document) (h : IsPlace document view range) :
    range.Encloses view.node.range := by
  cases h with
  | value => exact .refl _
  | member hmap hentry =>
      obtain ⟨found, hfound, heq⟩ := List.mem_map.mp hentry
      obtain ⟨rfl, rfl⟩ := Schema.Entry.mk.inj heq
      exact hmembers _ hmap _ hfound

/-- The range of an entry stems from the place of a schema that is met, from which references
lead to that of the entry. -/
structure StemsFrom (setting : Setting) (origin : View) (range : Range) (view : View)
    (loc : Option LocationCode) : Prop where
  met : Descends setting (View.root setting.document) origin
  place : IsPlace setting.document origin range
  refers : Relation.ReflTransGen (RefersTo setting) origin view
  code : loc = some range.code

theorem Called.descends (h : Called setting view loc) :
    Descends setting (View.root setting.document) view := by
  induction h with
  | root => exact .refl
  | definition _ hentry hwanted ih => exact ih.tail (.definition ⟨_, hentry, hwanted, rfl⟩)
  | call _ hcall ih => exact ih.tail (.own hcall.dependsOn)

theorem Called.stemsFrom (h : Called setting view loc) :
    ∃ origin range, StemsFrom setting origin range view loc := by
  -- A schema that is not called for by a reference has its own place.
  have hvalue : ∀ {called : View}, Called setting called (some called.code) →
      ∃ origin range, StemsFrom setting origin range called (some called.code) :=
    fun hcalled => ⟨_, _, hcalled.descends, .value, .refl, rfl⟩
  have hmember : ∀ {holder : View} {entry : Schema.Entry}, Reachable setting.document holder →
      (∃ map, Holds holder map ∧ entry ∈ map.entries) →
      Called setting entry.view (some entry.code) →
      ∃ origin range, StemsFrom setting origin range entry.view (some entry.code) :=
    fun hholder ⟨_, hmap, hentry⟩ hcalled =>
      ⟨_, _, hcalled.descends, .member (hholder.occurs.holds hmap) hentry, .refl, rfl⟩
  induction h with
  | root => exact hvalue .root
  | definition hview hentry hwanted ih =>
      exact hmember hview.descends.reachable (exists_map_of_mem_definitionEntries hentry)
        (.definition hview hentry hwanted)
  | call hview hcall ih =>
      have hcalled := Called.call hview hcall
      have hreachable := hview.descends.reachable
      cases hcall with
      | target htarget _ =>
          obtain ⟨origin, range, horigin⟩ := ih
          exact ⟨origin, range, { horigin with refers := horigin.refers.tail htarget }⟩
      | item _ => exact hvalue hcalled
      | part hpart =>
          cases hpart with
          | property _ hentry =>
              exact hmember hreachable (exists_map_of_mem_propertyEntries hentry) hcalled
          | inherited _ hpart hentry =>
              exact hmember (hreachable.takesOver hpart) (exists_map_of_mem_propertyEntries hentry)
                hcalled
          | member _ _ => exact hvalue hcalled

/-! ### What a conversion adds -/

/-- A schema with the pointer is one that the conversion may come to, for an entry at the
range. -/
def CalledAt (setting : Setting) (site : Pointer × Option LocationCode) : Prop :=
  ∃ view, view.pointer = site.1 ∧ Called setting view site.2

/-- Every entry is one of a schema that the conversion may come to for it. -/
structure Sited (setting : Setting) (context : Context) : Prop where
  types : context.typeRegistry.All fun _ type => CalledAt setting (type.source, type.loc)
  enums : context.enumRegistry.All fun _ type => CalledAt setting (type.source, type.loc)
  unions : context.unionRegistry.All fun _ type => CalledAt setting (type.source, type.loc)

namespace Sited

variable {context : Context} {name : Label}

theorem empty (setting : Setting) : Sited setting {} :=
  ⟨fun _ _ hmem => absurd hmem List.not_mem_nil, fun _ _ hmem => absurd hmem List.not_mem_nil,
    fun _ _ hmem => absurd hmem List.not_mem_nil⟩

theorem record (h : Sited setting context) (violation : Violation) :
    Sited setting (context.record violation) := by
  unfold Context.record
  split
  · exact h
  · exact ⟨h.types, h.enums, h.unions⟩

section Added

variable (h : Sited setting context) (hview : Called setting view loc)

include h hview

theorem addType : Sited setting (context.addType (newType view name loc)) :=
  { h with types := h.types.insert ⟨view, rfl, hview⟩ }

theorem addEnum (members : List View) :
    Sited setting (context.addEnum (newEnum view members name loc)) :=
  { h with enums := h.enums.insert ⟨view, rfl, hview⟩ }

theorem addUnion : Sited setting (context.addUnion (newUnion view name loc)) :=
  { h with unions := h.unions.insert ⟨view, rfl, hview⟩ }

end Added

theorem completeType (h : Sited setting context) (name : Str) (properties : List Property)
    (rules : List Rule) : Sited setting (context.completeType name properties rules) :=
  { h with types := h.types.modify fun _ hsite => hsite }

theorem completeUnion (h : Sited setting context) (name : Str) (kind : UnionKind)
    (members : List ValueType) (discriminator : Option Label) :
    Sited setting (context.completeUnion name kind members discriminator) :=
  { h with unions := h.unions.modify fun _ hsite => hsite }

end Sited

section Runs

variable {convert : Converter} {before after : Context}
  (hconvert : ∀ view loc before after, (convert view loc).Leads false before after →
    Called setting view loc → Sited setting before → Sited setting after)
  (hview : Called setting view loc)

include hconvert hview

theorem Course.sited {returning : Bool} {opened : Option Label}
    (hcourse : Course setting convert view loc returning opened before after)
    (hbefore : Sited setting before) : Sited setting after := by
  induction hcourse with
  | done => exact hbefore
  | andThen _ _ ihFirst ihSecond => exact ihSecond (ihFirst hbefore)
  | note _ => exact ⟨hbefore.types, hbefore.enums, hbefore.unions⟩
  | report _ => exact hbefore.record _
  | convert hcall hcalled =>
      exact hconvert _ _ _ _ ⟨hcalled.1, nofun⟩ (.call hview hcall) hbefore
  | enumEntry _ _ => exact hbefore.addEnum hview _
  | typeOpened _ _ _ _ ih => exact ih (hbefore.addType hview)
  | typeEntry _ _ _ _ _ _ ihStart ih =>
      exact (ih (ihStart (hbefore.addType hview))).completeType _ _ _
  | unionOpened _ _ _ ih => exact ih (hbefore.addUnion hview)
  | unionEntry _ _ _ _ _ ihStart ih =>
      exact (ih (ihStart (hbefore.addUnion hview))).completeUnion _ _ _ _

theorem Conversion.sited (hconversion : Conversion setting convert view loc before after)
    (hbefore : Sited setting before) : Sited setting after := by
  induction hconversion with
  | done => exact hbefore
  | andThen _ _ ihFirst ihSecond => exact ihSecond (ihFirst hbefore)
  | definition hvisitable hcalled =>
      refine hconvert _ _ _ _ hcalled (.definition hview hvisitable.1 hvisitable.2.1) ?_
      exact ⟨hbefore.types, hbefore.enums, hbefore.unions⟩
  | within _ hcourse =>
      have hafter := hcourse.sited hconvert hview ⟨hbefore.types, hbefore.enums, hbefore.unions⟩
      exact ⟨hafter.types, hafter.enums, hafter.unions⟩

end Runs

theorem convertWithin_sited (setting : Setting) (depth : Nat) :
    ∀ view loc before after, (convertWithin setting depth view loc).Leads false before after →
      Called setting view loc → Sited setting before → Sited setting after := by
  induction depth with
  | zero =>
      rintro _ _ _ _ ⟨rfl, -⟩ _ hbefore
      exact hbefore
  | succ depth ih =>
      rintro _ _ _ _ ⟨rfl, -⟩ hview
      exact (conversion_step _ _ _ _ _).sited ih hview

theorem analyze_sited (setting : Setting) : Sited setting (analyze setting).2 :=
  convertWithin_sited setting setting.depth _ _ _ _ ⟨rfl, nofun⟩ .root (.empty setting)

/-- What holds of all entries of a registry holds of what is told of its values. -/
theorem Registry.All.of_mem_map {α β : Type} {registry : Registry α} {told : α → β}
    {holds : β → Prop} (h : registry.All fun _ value => holds (told value)) {found : β}
    (hfound : found ∈ registry.values.map told) : holds found := by
  obtain ⟨_, hvalue, rfl⟩ := List.mem_map.mp hfound
  obtain ⟨entry, hentry, rfl⟩ := List.mem_map.mp hvalue
  exact h _ _ hentry

theorem Sited.calledAt {context : Context} (h : Sited setting context) {label : Label}
    {site : Pointer × Option LocationCode}
    (hsite : site ∈ (context.outcome setting label).service.sites) : CalledAt setting site := by
  rcases List.mem_append.mp hsite with hsite | hunion
  · rcases List.mem_append.mp hsite with htype | henum
    · exact h.types.of_mem_map htype
    · exact h.enums.of_mem_map henum
  · exact h.unions.of_mem_map hunion

/-- The range of an entry is that of a place from which references lead to the schema of the
entry: the place of this schema itself, or of a reference. If no reference leads to the schema,
the range is sure to reach over what the pointer of the entry leads to. -/
theorem entries_stem_from_places {text path : String} {options : Options} {outcome : Outcome}
    {document : Json.Node} (hread : Json.read text = .ok document)
    (hconverted : convertText text path options = .ok outcome)
    (hdistinct : DistinctKeys document) {source : Pointer} {loc : Option LocationCode}
    (hsite : (source, loc) ∈ outcome.service.sites) :
    ∃ schema origin range, Placed document schema ∧ schema.pointer = source ∧
      StemsFrom ⟨document, path, options⟩ origin range schema loc ∧
      range.Encloses origin.node.range ∧
      ((∀ view, Descends ⟨document, path, options⟩ (View.root document) view →
          ¬ RefersTo ⟨document, path, options⟩ view schema) →
        range.Encloses schema.node.range) := by
  obtain ⟨_, converted, context, label, hdocument, hreturns, rfl⟩ := convertText_eq_ok hconverted
  obtain rfl := Except.ok.inj (hread.symm.trans hdocument)
  have hsited := analyze_sited ⟨document, path, options⟩
  rw [hreturns] at hsited
  obtain ⟨schema, hsource, hcalled⟩ := hsited.calledAt hsite
  obtain ⟨origin, range, hstems⟩ := hcalled.stemsFrom
  have hencloses := hstems.place.encloses (membersEnclose_of_read hread)
  refine ⟨schema, origin, range, hcalled.descends.placed hdistinct (.root _), hsource, hstems,
    hencloses, fun hunreferred => ?_⟩
  rcases Relation.ReflTransGen.cases_tail hstems.refers with rfl | ⟨view, hview, hrefers⟩
  · exact hencloses
  · have hdescends := hview.lift id fun _ _ htarget => CallsFor.own (.target htarget)
    exact absurd hrefers (hunreferred view (hstems.met.trans hdescends))

namespace AliasFirst

/-- A definition that refers to the one after it. -/
def text : String :=
  "\x7b\"$defs\":\x7b\"A\":\x7b\"$ref\":\"#/$defs/B\"\x7d,\"B\":\x7b\"type\":\"object\"\x7d\x7d\x7d"

/-- The range between two offsets in a text of one line. -/
def range (first last : Int) : Range :=
  ⟨⟨1, first + 1, first⟩, ⟨1, last + 1, last⟩⟩

def schema : View :=
  ⟨.object (range 39 56) [⟨⟨"type", "\"type\"", range 40 46⟩,
    .scalar (range 47 55) (.string "object") "\"object\""⟩], "#/$defs/B"⟩

def tree : Json.Node :=
  .object (range 0 58) [⟨⟨"$defs", "\"$defs\"", range 1 8⟩, .object (range 9 57)
    [⟨⟨"A", "\"A\"", range 10 13⟩, .object (range 14 34)
      [⟨⟨"$ref", "\"$ref\"", range 15 21⟩,
        .scalar (range 22 33) (.string "#/$defs/B") "\"#/$defs/B\""⟩]⟩,
    ⟨⟨"B", "\"B\"", range 35 38⟩, schema.node⟩]⟩]

theorem read_text : Json.read text = .ok tree := by
  cbv

theorem distinctKeys : DistinctKeys tree := by
  decide +kernel

theorem exists_outcome : ∃ outcome, convertText text "" = .ok outcome ∧
    outcome.service.sites = [(schema.pointer, some (range 10 34).code)] :=
  exists_convertText read_text (by decide +kernel)

/-- The entry of the second definition has the range of the first one, which ends before the
second one begins. -/
theorem entry_at_alias :
    ∃ outcome site, convertText text "" = .ok outcome ∧ Json.read text = .ok tree ∧
      DistinctKeys tree ∧ site ∈ outcome.service.sites ∧
      resolve tree site.1 = .ok (some schema) ∧
      ¬ (Location.ofCode site.2).range.Encloses schema.node.range := by
  obtain ⟨outcome, hconverted, hsites⟩ := exists_outcome
  exact ⟨outcome, _, hconverted, read_text, distinctKeys, hsites ▸ List.mem_singleton_self _,
    rfl, by decide +kernel⟩

theorem entries_stem_alias :
    ∃ outcome, convertText text "" = .ok outcome ∧ Json.read text = .ok tree ∧
      DistinctKeys tree ∧ ∃ schema origin range, Placed tree schema ∧
      StemsFrom ⟨tree, "", {}⟩ origin range schema (some (AliasFirst.range 10 34).code) := by
  obtain ⟨outcome, hconverted, hsites⟩ := exists_outcome
  obtain ⟨schema, origin, range, hplaced, -, hstems, -, -⟩ :=
    entries_stem_from_places read_text hconverted distinctKeys (hsites ▸ List.mem_singleton_self _)
  exact ⟨outcome, hconverted, read_text, distinctKeys, schema, origin, range, hplaced, hstems⟩

end AliasFirst

end Schemata.Analysis
