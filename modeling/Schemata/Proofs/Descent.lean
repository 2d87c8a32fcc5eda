import Schemata.Proofs.Growth
import Schemata.Proofs.Pointers

/-!
# Descents

A descent goes from schema to schema wherever a conversion may go: to what the type of a
schema depends on, and to the definitions that a schema holds. In a document without
repeated keys, a descent from the root meets no two schemas at one pointer, and each of
them has a name if its name can be inferred at all.
-/

namespace Schemata.Analysis

open Schema Source

/-- The type of a schema is made with the type of another one. -/
inductive DependsOn (setting : Setting) (view : View) : View → Prop
  | target {target : View} (htarget : RefersTo setting view target) :
      DependsOn setting view target
  | item {item : View} (hitem : ListsItem view item) : DependsOn setting view item
  | part {part : View} {code : LocationCode} (hpart : HasPart setting view part code) :
      DependsOn setting view part

/-- The conversion of a schema calls for that of another one. -/
inductive CallsFor (setting : Setting) (view : View) : View → Prop
  | own {other : View} (hother : DependsOn setting view other) : CallsFor setting view other
  | definition {definition : View} (hdefinition : Defines setting view definition) :
      CallsFor setting view definition

/-- The second schema is the first one or below it on some descent. -/
abbrev Descends (setting : Setting) : View → View → Prop :=
  Relation.ReflTransGen (CallsFor setting)

/-- The conversion of a document may come to a schema. -/
abbrev Met (setting : Setting) (view : View) : Prop :=
  Descends setting (View.root setting.document) view

/-- Some descent leads from what a schema depends on to another schema, so that the one may
be on the chain while the other is converted. -/
def Encloses (setting : Setting) (outer view : View) : Prop :=
  ∃ other, DependsOn setting outer other ∧ Descends setting other view

/-- A conversion that began with a schema may come to another one with these pointers on the
chain. -/
inductive Arrives (setting : Setting) (entry : View) : View → List Pointer → Prop
  | start : Arrives setting entry entry []
  | own {view other : View} {chain : List Pointer} (hview : Arrives setting entry view chain)
      (hother : DependsOn setting view other)
      (hfree : RefersTo setting view other → other.pointer ∈ view.pointer :: chain → Named other) :
      Arrives setting entry other (view.pointer :: chain)
  | definition {view definition : View} {chain : List Pointer}
      (hview : Arrives setting entry view chain) (hdefinition : Defines setting view definition) :
      Arrives setting entry definition chain

/-- A schema becomes an entry of a kind and name, if that name is free. -/
def Registers (setting : Setting) (view : View) (kind : EntryKind) (name : Str) : Prop :=
  ∃ shape label, view.conversionShape = .ok shape ∧ entryKind? shape = some kind ∧
    setting.naming.infer view = .ok (some label) ∧ label.value = name

/-- No two schemas at different pointers on the descents from a schema are to become
entries of one name. -/
def NamesApart (setting : Setting) (entry : View) : Prop :=
  ∀ view other kind otherKind name, Descends setting entry view →
    Descends setting entry other → Registers setting view kind name →
    Registers setting other otherKind name → view.pointer = other.pointer

variable {setting : Setting} {entry view other : View}

/-! ### Shapes -/

theorem RefersTo.conversionShape (h : RefersTo setting view other) :
    view.conversionShape = .ok .reference := by
  obtain ⟨reference, _, hreference, -⟩ := h
  exact conversionShape_of_reference hreference

theorem RefersTo.unique {target : View} (h : RefersTo setting view target)
    (hother : RefersTo setting view other) : target = other := by
  obtain ⟨reference, pointer, hreference, hpointer, htarget⟩ := h
  obtain ⟨otherReference, otherPointer, hotherReference, hotherPointer, hother⟩ := hother
  obtain rfl : reference = otherReference :=
    Option.some.inj (hreference.symm.trans hotherReference)
  obtain rfl : pointer = otherPointer := Option.some.inj (hpointer.symm.trans hotherPointer)
  exact Option.some.inj (Except.ok.inj (htarget.symm.trans hother))

theorem ListsItem.unique {item : View} (h : ListsItem view item) (hother : ListsItem view other) :
    item = other := by
  simpa using h.2.symm.trans hother.2

theorem HasPart.named {code : LocationCode} (h : HasPart setting view other code) :
    Named view := by
  cases h with
  | property hshape _ => exact ⟨_, hshape, rfl⟩
  | inherited hshape _ _ => exact ⟨_, hshape, rfl⟩
  | member hshape _ => exact ⟨_, hshape, rfl⟩

theorem Registers.named {kind : EntryKind} {name : Str}
    (h : Registers setting view kind name) : Named view := by
  obtain ⟨shape, _, hshape, hkind, -⟩ := h
  exact ⟨shape, hshape, isNamed_iff.mpr ⟨kind, hkind⟩⟩

theorem Registers.unique {kind otherKind : EntryKind} {name otherName : Str}
    (h : Registers setting view kind name) (hother : Registers setting view otherKind otherName) :
    name = otherName := by
  obtain ⟨_, label, -, -, hlabel, rfl⟩ := h
  obtain ⟨_, otherLabel, -, -, hotherLabel, rfl⟩ := hother
  rw [Option.some.inj (Except.ok.inj (hlabel.symm.trans hotherLabel))]

/-- What a schema without an entry depends on is its target or its items. -/
theorem DependsOn.of_unnamed (h : DependsOn setting view other) (hunnamed : Unnamed view) :
    RefersTo setting view other ∨ ListsItem view other := by
  cases h with
  | target htarget => exact .inl htarget
  | item hitem => exact .inr hitem
  | part hpart => exact absurd hpart.named hunnamed.not_named

/-! ### Arrivals -/

theorem Calls.dependsOn {loc calledLoc : Option LocationCode} {opened : Option Label}
    {context : Context} {called : View}
    (h : Calls setting view loc opened context called calledLoc) :
    DependsOn setting view called := by
  cases h with
  | target htarget _ => exact .target htarget
  | item hitem => exact .item hitem
  | part hpart => exact .part hpart

theorem Encloses.tail {outer : View} (h : Encloses setting outer view)
    (hcall : CallsFor setting view other) : Encloses setting outer other := by
  obtain ⟨first, hfirst, hdescends⟩ := h
  exact ⟨first, hfirst, hdescends.tail hcall⟩

theorem DependsOn.encloses (h : DependsOn setting view other) : Encloses setting view other :=
  ⟨other, h, .refl⟩

theorem Encloses.descends {outer : View} (h : Encloses setting outer view) :
    Descends setting outer view := by
  obtain ⟨first, hfirst, hdescends⟩ := h
  exact hdescends.head (.own hfirst)

theorem Arrives.call {loc calledLoc : Option LocationCode} {opened : Option Label}
    {context : Context} {chain : List Pointer} (h : Arrives setting entry view chain)
    (hchain : context.chain = view.pointer :: chain)
    (hcall : Calls setting view loc opened context other calledLoc) :
    Arrives setting entry other context.chain := by
  rw [hchain]
  refine h.own hcall.dependsOn fun hrefers hmem => ?_
  cases hcall with
  | target _ hfree => exact hfree (hchain ▸ hmem)
  | item hitem => exact absurd (hitem.1.symm.trans hrefers.conversionShape) nofun
  | part hpart =>
      exact absurd hpart.named (Unnamed.not_named ⟨_, hrefers.conversionShape, rfl⟩)

theorem Arrives.descends {chain : List Pointer} (h : Arrives setting entry view chain) :
    Descends setting entry view := by
  induction h with
  | start => exact .refl
  | own _ hother _ ih => exact ih.tail (.own hother)
  | definition _ hdefinition ih => exact ih.tail (.definition hdefinition)

/-- The chain consists of schemas that enclose the one that is converted next. -/
theorem Arrives.encloses {chain : List Pointer} {pointer : Pointer}
    (h : Arrives setting entry view chain) (hmem : pointer ∈ chain) :
    ∃ outer, Descends setting entry outer ∧ outer.pointer = pointer ∧
      Encloses setting outer view := by
  induction h with
  | start => exact absurd hmem List.not_mem_nil
  | own hview hother _ ih =>
      rcases List.mem_cons.mp hmem with rfl | hchain
      · exact ⟨_, hview.descends, rfl, hother.encloses⟩
      · obtain ⟨outer, houter, heq, hencloses⟩ := ih hchain
        exact ⟨outer, houter, heq, hencloses.tail (.own hother)⟩
  | definition _ hdefinition ih =>
      obtain ⟨outer, houter, heq, hencloses⟩ := ih hmem
      exact ⟨outer, houter, heq, hencloses.tail (.definition hdefinition)⟩

/-- Descents lead to a schema from all that is on the chain while it is converted. -/
theorem Arrives.outer {chain : List Pointer} {pointer : Pointer}
    (h : Arrives setting entry view chain) (hmem : pointer ∈ view.pointer :: chain) :
    ∃ outer, Descends setting entry outer ∧ outer.pointer = pointer ∧
      Descends setting outer view := by
  rcases List.mem_cons.mp hmem with rfl | hchain
  · exact ⟨view, h.descends, rfl, .refl⟩
  · obtain ⟨outer, houter, heq, hencloses⟩ := h.encloses hchain
    exact ⟨outer, houter, heq, hencloses.descends⟩

/-! ### Lists of what is called for -/

/-- The schema that another one refers to, if there is one. -/
def targets (setting : Setting) (view : View) : List View :=
  ((view.reference?.bind View.string?).bind (target? setting.document)).toList

/-- The schema that a member of an intersection stands for, if its properties are taken
over. -/
def takenOver (setting : Setting) (member : View) : List View :=
  (if member.reference?.isNone then [member] else targets setting member).filter fun part =>
    part.hasType "object" = .ok true

/-- The items of an array and the parts of a named schema. -/
def ownParts (setting : Setting) (view : View) : List View :=
  match view.conversionShape with
  | .ok .array =>
      match view.items? with
      | some (.one item) => [item]
      | _ => []
  | .ok .object => (propertyEntries view).map Schema.Entry.view
  | .ok .intersection =>
      ((view.allOf?.getD []).flatMap (takenOver setting)).flatMap fun part =>
        (propertyEntries part).map Schema.Entry.view
  | .ok .union => view.oneOf?.getD []
  | _ => []

/-- The definitions of a schema that are not ignored. -/
def wantedDefinitions (setting : Setting) (view : View) : List View :=
  ((definitionEntries view).filter fun entry =>
    entry.key.name ∉ setting.options.ignoreDefinitions).map Schema.Entry.view

/-- What the conversion of a schema calls for. -/
def calledFor (setting : Setting) (view : View) : List View :=
  wantedDefinitions setting view ++ targets setting view ++ ownParts setting view

theorem mem_targets_iff : other ∈ targets setting view ↔ RefersTo setting view other := by
  simp only [targets, Option.mem_toList, Option.bind_eq_some_iff, target?_eq_some_iff,
    RefersTo]
  constructor
  · rintro ⟨pointer, ⟨reference, hreference, hpointer⟩, htarget⟩
    exact ⟨reference, pointer, hreference, hpointer, htarget⟩
  · rintro ⟨reference, pointer, hreference, hpointer, htarget⟩
    exact ⟨pointer, ⟨reference, hreference, hpointer⟩, htarget⟩

theorem mem_takenOver_iff {member : View} :
    other ∈ takenOver setting member ↔
      StandsFor setting member other ∧ other.hasType "object" = .ok true := by
  rw [takenOver, List.mem_filter, decide_eq_true_eq]
  refine and_congr_left fun _ => ?_
  cases hreference : member.reference? with
  | none => exact List.mem_singleton.trans (standsFor_iff_of_none hreference).symm
  | some reference => exact mem_targets_iff.trans (standsFor_iff_of_reference hreference).symm

theorem mem_wantedDefinitions_iff :
    other ∈ wantedDefinitions setting view ↔ Defines setting view other := by
  simp only [wantedDefinitions, List.mem_map, List.mem_filter, decide_eq_true_eq, Defines,
    and_assoc]

theorem mem_ownParts_of_hasPart {code : LocationCode} (h : HasPart setting view other code) :
    other ∈ ownParts setting view := by
  unfold ownParts
  cases h with
  | property hshape hentry =>
      rw [hshape]
      exact List.mem_map_of_mem hentry
  | inherited hshape hpart hentry =>
      obtain ⟨⟨member, hmember, hother⟩, htype⟩ := hpart
      rw [hshape]
      refine List.mem_flatMap.mpr ⟨_, ?_, List.mem_map_of_mem hentry⟩
      exact List.mem_flatMap.mpr ⟨member, hmember, mem_takenOver_iff.mpr ⟨hother, htype⟩⟩
  | member hshape hmember =>
      rw [hshape]
      exact hmember

theorem CallsFor.mem_calledFor (h : CallsFor setting view other) :
    other ∈ calledFor setting view := by
  rw [calledFor, List.mem_append, List.mem_append]
  cases h with
  | own hother =>
      cases hother with
      | target htarget => exact .inl (.inr (mem_targets_iff.mpr htarget))
      | item hitem =>
          refine .inr ?_
          rw [ownParts, hitem.1, hitem.2]
          exact List.mem_cons_self
      | part hpart => exact .inr (mem_ownParts_of_hasPart hpart)
  | definition hdefinition => exact .inl (.inl (mem_wantedDefinitions_iff.mpr hdefinition))

/-- Descents stay among schemas that call for each other only. -/
theorem Descends.mem_of_closed {views : List View} (h : Descends setting entry view)
    (hentry : entry ∈ views)
    (hclosed : ∀ view ∈ views, ∀ other ∈ calledFor setting view, other ∈ views) :
    view ∈ views := by
  induction h with
  | refl => exact hentry
  | tail _ hcall ih => exact hclosed _ ih _ hcall.mem_calledFor

theorem Descends.reachable {view : View}
    (h : Descends setting (View.root setting.document) view) :
    Reachable setting.document view := by
  induction h with
  | refl => exact .root setting.document
  | tail _ hcall ih =>
      cases hcall with
      | own hother =>
          cases hother with
          | target htarget => exact (ih.refersTo htarget).1
          | item hitem => exact ih.below (.single hitem.holds)
          | part hpart => exact ih.hasPart hpart
      | definition hdefinition =>
          obtain ⟨entry, hentry, -, rfl⟩ := hdefinition
          exact ih.below (below_of_mem_definitionEntries hentry)

/-! ### Pointers and names -/

section Placed

variable (hdistinct : DistinctKeys setting.document)

include hdistinct

omit hdistinct in
theorem RefersTo.placed (h : RefersTo setting view other) : Placed setting.document other := by
  obtain ⟨_, _, -, -, hresolve⟩ := h
  exact .of_resolve hresolve

theorem TakesOver.placed (hview : Placed setting.document view) (h : TakesOver setting view other) :
    Placed setting.document other := by
  obtain ⟨⟨member, hmember, hother⟩, -⟩ := h
  rcases hother with ⟨-, rfl⟩ | hother
  · exact hview.below hdistinct (View.below_of_mem_getD_children? hmember)
  · exact hother.placed

theorem DependsOn.placed (hview : Placed setting.document view)
    (h : DependsOn setting view other) : Placed setting.document other := by
  cases h with
  | target hother => exact hother.placed
  | item hitem => exact hview.holds hdistinct hitem.holds
  | part hpart =>
      cases hpart with
      | property _ hentry => exact hview.below hdistinct (below_of_mem_propertyEntries hentry)
      | inherited _ hpart hentry =>
          exact (hpart.placed hdistinct hview).below hdistinct
            (below_of_mem_propertyEntries hentry)
      | member _ hmember =>
          exact hview.below hdistinct (View.below_of_mem_getD_children? hmember)

theorem Descends.placed (hentry : Placed setting.document entry)
    (h : Descends setting entry view) : Placed setting.document view := by
  induction h with
  | refl => exact hentry
  | tail _ hcall ih =>
      cases hcall with
      | own hother => exact hother.placed hdistinct ih
      | definition hdefinition =>
          obtain ⟨definition, hmem, -, rfl⟩ := hdefinition
          exact ih.below hdistinct (below_of_mem_definitionEntries hmem)

/-- On the descents from a schema, pointers tell schemas apart. -/
theorem Descends.eq_of_pointer (hentry : Placed setting.document entry)
    (h : Descends setting entry view) (hother : Descends setting entry other)
    (heq : view.pointer = other.pointer) : view = other :=
  (h.placed hdistinct hentry).eq_of_pointer (hother.placed hdistinct hentry) heq

end Placed

end Schemata.Analysis
