import Schemata.Proofs.Action
import Schemata.Proofs.CitedData
import Schemata.Proofs.Results

/-!
# Citations

Whatever a conversion tells of a document it tells with a range of it. A range is taken from
the place where something was read, and is passed on as it is, and so are numbers and strings. So
all written ranges of an outcome are those of values, members and keys of the document, and no
violation is without one.
-/

namespace Schemata.Analysis

open Schema Source Json

/-- The data of a converted schema. -/
def Converted.data (converted : Converted) : List Datum :=
  converted.type.data ++ converted.inherited.flatMap Label.data

/-! ### What an entry is made from -/

section Parts

variable {naming : Naming}

theorem allCited_stringLabels {members : List View}
    (hmembers : ∀ member ∈ members, Reachable naming.document member) :
    AllCited naming ((stringLabels members).flatMap Label.data) := by
  simp only [allCited_flatMap, stringLabels, List.mem_filterMap, forall_exists_index, and_imp]
  intro label member hmember hlabel
  obtain ⟨text, htext, rfl⟩ := Option.map_eq_some_iff.mp hlabel
  have hview := hmembers member hmember
  exact allCited_cons.mpr ⟨cited_string hview htext, allCited_locData_some.mpr (cited_code hview)⟩

theorem allCited_discriminatorOf? {view : View} {label : Label}
    (hview : Reachable naming.document view) (h : discriminatorOf? view = some label) :
    AllCited naming label.data := by
  simp only [discriminatorOf?, Option.bind_eq_bind, Option.bind_eq_some_iff] at h
  obtain ⟨discriminator, hdiscriminator, name, hname, value, hvalue, h⟩ := h
  have hpart := reachable_of_child? (reachable_of_child? hview hdiscriminator) hname
  split at h
  · simp at h
  · obtain rfl := Option.some.inj h
    exact allCited_cons.mpr ⟨cited_text hpart hvalue, allCited_locData_some.mpr (cited_code hpart)⟩

theorem allCited_withConstant {type : ValueType} {constant : Option Constant}
    (htype : AllCited naming type.data)
    (hconstant : ∀ found ∈ constant, AllCited naming found.data) :
    AllCited naming (type.withConstant constant).data := by
  obtain ⟨isArray, isOptional, rules, content⟩ := type
  cases content with
  | named name => exact htype
  | primitive primitive loc other =>
      simp only [ValueType.withConstant, ValueType.data, Content.data, allCited_append,
        allCited_flatMap, Option.mem_toList] at htype ⊢
      exact ⟨htype.1, htype.2.1, hconstant⟩

end Parts

/-! ### Messages -/

section Messages

variable {naming : Naming}

@[simp] theorem cited_ofString (text : String) : Cited naming (.text text) := fun _ =>
  Str.pairFree_ofString text

theorem cited_circularMessage {reference : Str} (h : Cited naming (.text reference)) :
    Cited naming (.text (circularMessage reference)) := fun hnaming => by
  simpa [circularMessage] using h hnaming

theorem cited_unresolvedReference {reference : Str} (h : Cited naming (.text reference)) :
    Cited naming (.text (Problem.unresolvedReference reference).message) := fun hnaming => by
  simpa [Problem.message] using h hnaming

theorem cited_duplicateName {name : Str} {pointer owner : Pointer}
    (hname : Cited naming (.text name)) (hpointer : Cited naming (.text pointer))
    (howner : Cited naming (.text owner)) :
    Cited naming (.text (Problem.duplicateName name pointer owner).message) := fun hnaming => by
  have hparts := And.intro (hname hnaming) (And.intro (hpointer hnaming) (howner hnaming))
  simpa [Problem.message, Str.pairFree_append_ofString_append] using hparts

/-- A reference is told by its value, or else by its pointer. -/
theorem cited_referenceText {reference : View} (hreference : Reachable naming.document reference) :
    Cited naming (.text (referenceText reference)) := by
  unfold referenceText
  cases hvalue : reference.scalar? with
  | none => exact cited_pointer hreference
  | some value => exact cited_text hreference hvalue

end Messages

/-! ### States whose data are cited -/

/-- All data of the entries are cited, and so is the message of every violation, which has a cited
range. -/
structure Context.Citing (naming : Naming) (context : Context) : Prop where
  types : context.typeRegistry.All fun _ type => AllCited naming type.data
  enums : context.enumRegistry.All fun _ type => AllCited naming type.data
  unions : context.unionRegistry.All fun _ type => AllCited naming type.data
  violations : ∀ violation ∈ context.violations,
    CitedRange naming violation.range ∧ Cited naming (.text violation.message)

namespace Context.Citing

variable {naming : Naming} {context : Context} {setting : Setting} {view : View} {name : Label}
  {loc : Option LocationCode}

theorem empty (naming : Naming) : Context.Citing naming {} where
  types _ _ hmem := absurd hmem List.not_mem_nil
  enums _ _ hmem := absurd hmem List.not_mem_nil
  unions _ _ hmem := absurd hmem List.not_mem_nil
  violations _ hmem := absurd hmem List.not_mem_nil

theorem record {violation : Violation} (h : context.Citing naming)
    (hrange : CitedRange naming violation.range)
    (hmessage : Cited naming (.text violation.message)) :
    (context.record violation).Citing naming := by
  unfold Context.record
  split
  · exact h
  · refine ⟨h.types, h.enums, h.unions, fun other hother => ?_⟩
    rcases List.mem_append.mp hother with hold | hnew
    · exact h.violations other hold
    · rw [List.mem_singleton.mp hnew]
      exact ⟨hrange, hmessage⟩

/-- The pointer of an entry is cited. -/
theorem source {key : Str} {entry : Entry} (h : context.Citing naming)
    (hentry : context.lookup key = some entry) : Cited naming (.text entry.source) := by
  rcases Option.or_eq_some_iff.mp hentry with htype | ⟨-, hrest⟩
  · obtain ⟨type, hfound, rfl⟩ := Option.map_eq_some_iff.mp htype
    have hdata := h.types _ _ (Registry.get?_eq_some_iff.mp hfound)
    simp only [ObjectType.data, List.cons_append, allCited_cons] at hdata
    exact hdata.1
  · rcases Option.or_eq_some_iff.mp hrest with henum | ⟨-, hunion⟩
    · obtain ⟨type, hfound, rfl⟩ := Option.map_eq_some_iff.mp henum
      have hdata := h.enums _ _ (Registry.get?_eq_some_iff.mp hfound)
      simp only [EnumType.data, List.cons_append, allCited_cons] at hdata
      exact hdata.1
    · obtain ⟨type, hfound, rfl⟩ := Option.map_eq_some_iff.mp hunion
      have hdata := h.unions _ _ (Registry.get?_eq_some_iff.mp hfound)
      simp only [UnionType.data, List.cons_append, allCited_cons] at hdata
      exact hdata.1

section Added

variable (h : context.Citing naming) (hview : Reachable naming.document view)
  (hname : AllCited naming name.data) (hloc : AllCited naming (locData loc))

include h hview hname hloc

theorem addType : (context.addType (newType view name loc)).Citing naming := by
  refine { h with types := h.types.insert ?_ }
  simp only [newType, ObjectType.data, List.flatMap_nil, List.cons_append, allCited_cons,
    allCited_append, allCited_nil, and_true]
  exact ⟨cited_pointer hview, ⟨hname, allCited_paragraphs hview⟩, hloc⟩

theorem addEnum {members : List View}
    (hmembers : ∀ member ∈ members, Reachable naming.document member) :
    (context.addEnum (newEnum view members name loc)).Citing naming := by
  refine { h with enums := h.enums.insert ?_ }
  simp only [newEnum, EnumType.data, List.cons_append, allCited_cons, allCited_append]
  exact ⟨cited_pointer hview,
    ⟨⟨hname, allCited_paragraphs hview⟩, allCited_stringLabels hmembers⟩, hloc⟩

theorem addUnion : (context.addUnion (newUnion view name loc)).Citing naming := by
  refine { h with unions := h.unions.insert ?_ }
  simp only [newUnion, UnionType.data, List.flatMap_nil, Option.toList_none, List.cons_append,
    allCited_cons, allCited_append, allCited_nil, and_true]
  exact ⟨cited_pointer hview, ⟨hname, allCited_paragraphs hview⟩, hloc⟩

end Added

theorem completeType {properties : List Property} {rules : List Rule} (name : Str)
    (h : context.Citing naming)
    (hproperties : AllCited naming (properties.flatMap Property.data))
    (hrules : AllCited naming (rules.flatMap Rule.data)) :
    (context.completeType name properties rules).Citing naming := by
  refine { h with types := h.types.modify fun type htype => ?_ }
  simp only [ObjectType.data, List.cons_append, allCited_cons, allCited_append] at htype ⊢
  exact ⟨htype.1, ⟨⟨htype.2.1.1.1, hproperties⟩, hrules⟩, htype.2.2⟩

theorem completeUnion {members : List ValueType} {discriminator : Option Label} (name : Str)
    (kind : UnionKind) (h : context.Citing naming)
    (hmembers : AllCited naming (members.flatMap ValueType.data))
    (hdiscriminator : AllCited naming (discriminator.toList.flatMap Label.data)) :
    (context.completeUnion name kind members discriminator).Citing naming := by
  refine { h with unions := h.unions.modify fun type htype => ?_ }
  simp only [UnionType.data, List.cons_append, allCited_cons, allCited_append] at htype ⊢
  exact ⟨htype.1, ⟨⟨htype.2.1.1.1, hmembers⟩, hdiscriminator⟩, htype.2.2⟩

end Context.Citing

/-! ### Actions -/

/-- From a state whose data are cited an action leads to another one, with a value as given. -/
def Cites {α : Type} (naming : Naming) (action : Action α) (given : α → Prop) : Prop :=
  ∀ before : Context, before.Citing naming →
    action.Ensures before (fun value after => given value ∧ after.Citing naming)
      fun _ after => after.Citing naming

namespace Cites

variable {α β : Type} {naming : Naming} {given : α → Prop}

theorem pure {value : α} (h : given value) : Cites naming (Pure.pure value) given :=
  fun _ hbefore => ⟨h, hbefore⟩

theorem throw (failure : Failure) : Cites naming (MonadExcept.throw failure) given :=
  fun _ hbefore => hbefore

theorem lift {result : Except Failure α} (h : ∀ value, result = .ok value → given value) :
    Cites naming (liftM result : Action α) given :=
  fun _ hbefore => Action.ensures_lift.mpr
    ⟨fun value hvalue => ⟨h value hvalue, hbefore⟩, fun _ _ => hbefore⟩

theorem bind {action : Action β} {next : β → Action α} {found : β → Prop}
    (haction : Cites naming action found)
    (hnext : ∀ value, found value → Cites naming (next value) given) :
    Cites naming (action >>= next) given := by
  intro before hbefore
  rw [Action.ensures_bind]
  exact (haction before hbefore).imp (fun value middle h => hnext value h.1 middle h.2)
    fun _ _ h => h

theorem get : Cites naming (MonadState.get : Action Context) (Context.Citing naming) :=
  fun _ hbefore => ⟨hbefore, hbefore⟩

theorem update {change : Context → Context}
    (h : ∀ before : Context, before.Citing naming → (change before).Citing naming) :
    Cites naming (modify change : Action Unit) fun _ => True :=
  fun before hbefore => ⟨trivial, h before hbefore⟩

theorem note (event : Event) : Cites naming (Action.note event) fun _ => True :=
  update fun _ h => ⟨h.types, h.enums, h.unions, h.violations⟩

theorem report {setting : Setting} {problem : Problem} {range : Option LocationCode}
    (hrange : CitedRange naming range) (hmessage : Cited naming (.text problem.message)) :
    Cites naming (Action.report setting problem range) fun _ => True :=
  update fun _ hbefore => hbefore.record hrange hmessage

theorem within {action : Action α} (pointer : Pointer) (h : Cites naming action given) :
    Cites naming (Action.within pointer action) given := by
  intro before hbefore
  rw [Action.ensures_within]
  have hinside : (before.enter pointer).Citing naming :=
    ⟨hbefore.types, hbefore.enums, hbefore.unions, hbefore.violations⟩
  have hleave : ∀ after : Context, after.Citing naming → after.leave.Citing naming :=
    fun _ h => ⟨h.types, h.enums, h.unions, h.violations⟩
  exact (h _ hinside).imp (fun _ after hafter => ⟨hafter.1, hleave after hafter.2⟩)
    fun _ after hafter => hleave after hafter

end Cites

/-! ### Steps -/

section Steps

variable {setting : Setting} {convert : Converter} {view : View} {loc : Option LocationCode}

theorem cites_dereference {reference : View} (hview : Reachable setting.naming.document view)
    (hreference : view.reference? = some reference) :
    Cites setting.naming (dereference setting reference) fun found =>
      ∀ target ∈ found, Reachable setting.naming.document target := by
  have htarget : ∀ found, targetOf setting reference = .ok found →
      ∀ target ∈ found, Reachable setting.naming.document target :=
    fun _ hfound target htarget =>
      (hview.refersTo ((eq_some_iff_refersTo hreference hfound target).mp htarget)).1
  have hpart := reachable_of_child? hview hreference
  rw [dereference_eq]
  refine .bind (.lift htarget) fun found htarget => ?_
  cases found with
  | some => exact .pure htarget
  | none =>
      refine .bind (.report ⟨_, rfl, cited_code hpart⟩ ?_) fun _ _ => .pure htarget
      exact cited_unresolvedReference (cited_referenceText hpart)

theorem cites_primitive (hview : Reachable setting.naming.document view)
    (hloc : AllCited setting.naming (locData loc)) :
    Cites setting.naming (primitive setting view loc) fun type =>
      AllCited setting.naming type.data := by
  unfold primitive
  split
  · exact .pure allCited_nil
  · refine .bind (.lift fun _ _ => trivial) fun required _ => ?_
    refine .bind (.lift fun rules hrules => allCited_rules hview hrules) fun rules hrules => ?_
    refine .pure ?_
    simp only [ValueType.data, Content.data, Option.toList_none, List.flatMap_nil,
      List.append_nil, allCited_append]
    exact ⟨hrules, hloc⟩

theorem cites_placeholder {key : Str} {problem : Problem}
    (hkey : CitedRange setting.naming (view.memberCode? key))
    (hproblem : Cited setting.naming (.text problem.message)) :
    Cites setting.naming (placeholder setting view key problem) fun type =>
      AllCited setting.naming type.data := by
  unfold placeholder
  split
  · exact .bind (.report hkey hproblem) fun _ _ => .pure allCited_nil
  · exact .pure allCited_nil

/-- A name that is taken is reported where it stands, or at the title, or else at the schema. -/
theorem cites_claim {name : Label} (hview : Reachable setting.naming.document view)
    (hname : AllCited setting.naming name.data) :
    Cites setting.naming (Action.claim setting name view) fun _ => True := by
  obtain ⟨hvalue, hloc⟩ := allCited_cons.mp hname
  have hrange : CitedRange setting.naming
      (name.loc.or ((view.memberCode? "title").or view.code)) :=
    citedRange_or hloc (citedRange_or (allCited_memberCode? hview _) ⟨_, rfl, cited_code hview⟩)
  refine .bind .get fun state hstate => ?_
  split
  · exact .pure trivial
  next owner howner =>
    have hmessage := cited_duplicateName hvalue (cited_pointer hview) (hstate.source howner)
    dsimp only
    split
    · exact .bind (.report hrange hmessage) fun _ _ => .pure trivial
    · exact .pure trivial

theorem cites_named {declare : Label → Action Unit} (hview : Reachable setting.naming.document view)
    (hdeclare : ∀ name, AllCited setting.naming name.data →
      Cites setting.naming (declare name) fun _ => True) :
    Cites setting.naming (Action.named setting view declare) fun type =>
      AllCited setting.naming type.data := by
  have hinfer : Cites setting.naming (setting.naming.infer view : Action (Option Label))
      fun found => ∀ name ∈ found, AllCited setting.naming name.data := by
    refine .lift fun found hfound name hname => ?_
    subst hname
    exact allCited_infer hview hfound
  refine .bind hinfer fun found hfound => ?_
  cases found with
  | none => exact .pure allCited_nil
  | some name =>
      have hname := hfound name rfl
      refine .bind (cites_claim hview hname) fun claimed _ => ?_
      cases claimed with
      | true => exact .bind (hdeclare name hname) fun _ _ => .pure hname
      | false => exact .pure hname

theorem cites_typeEntry {origin : Origin} {body : Action TypeBody}
    (hview : Reachable setting.naming.document view) (hloc : AllCited setting.naming (locData loc))
    (hbody : Cites setting.naming body fun body =>
      AllCited setting.naming (body.1.flatMap Property.data) ∧
        AllCited setting.naming (body.2.flatMap Rule.data)) :
    Cites setting.naming (typeEntry setting origin body view loc) fun type =>
      AllCited setting.naming type.data :=
  cites_named hview fun name hname =>
    .bind (.update fun _ hbefore => hbefore.addType hview hname hloc) fun _ _ =>
      .bind (.note _) fun _ _ => .bind hbody fun _ hfound =>
        .update fun _ hbefore => hbefore.completeType name.value hfound.1 hfound.2

theorem cites_stringEnum {members : List View} (hview : Reachable setting.naming.document view)
    (hmembers : ∀ member ∈ members, Reachable setting.naming.document member)
    (hloc : AllCited setting.naming (locData loc)) :
    Cites setting.naming (stringEnum setting view members loc) fun type =>
      AllCited setting.naming type.data :=
  cites_named hview fun _ hname =>
    .bind (.update fun _ hbefore => hbefore.addEnum hview hname hloc hmembers) fun _ _ => .note _

theorem cites_standIn {member : View} (hmember : Reachable setting.naming.document member) :
    Cites setting.naming (standIn setting member) fun found =>
      ∀ part ∈ found, Reachable setting.naming.document part := by
  unfold standIn
  split
  next hreference => exact cites_dereference hmember hreference
  next => exact .pure fun _ hpart => Option.some.inj hpart ▸ hmember

theorem cites_intersectionParts {members : List View}
    (hmembers : ∀ member ∈ members, Reachable setting.naming.document member) :
    Cites setting.naming (intersectionParts setting members) fun parts =>
      ∀ part ∈ parts, Reachable setting.naming.document part := by
  induction members with
  | nil => exact .pure (List.forall_mem_nil _)
  | cons member rest ih =>
      obtain ⟨hmember, hrest⟩ := List.forall_mem_cons.mp hmembers
      rw [intersectionParts_cons]
      refine .bind (cites_standIn hmember) fun target htarget => ?_
      refine .bind (.lift fun _ _ => trivial) fun taken _ => ?_
      refine .bind (ih hrest) fun others hothers => .pure ?_
      split
      · exact List.forall_mem_append.mpr
          ⟨fun part hpart => htarget part (Option.mem_toList.mp hpart), hothers⟩
      · exact hothers

theorem cites_keep {found : List Alternative} (fits : ValueType → Bool) {problem : Problem}
    (hproblem : Cited setting.naming (.text problem.message))
    (hfound : ∀ alternative ∈ found, Reachable setting.naming.document alternative.view ∧
      AllCited setting.naming alternative.type.data) :
    Cites setting.naming (keep setting fits problem found) fun kept =>
      AllCited setting.naming (kept.flatMap ValueType.data) := by
  induction found with
  | nil => exact .pure allCited_nil
  | cons alternative rest ih =>
      obtain ⟨⟨hview, htype⟩, hrest⟩ := List.forall_mem_cons.mp hfound
      unfold keep
      split
      · refine .bind (ih hrest) fun others hothers => .pure ?_
        exact allCited_append.mpr ⟨htype, hothers⟩
      · exact .bind (.report ⟨_, rfl, cited_code hview⟩ hproblem) fun _ _ => ih hrest

/-! ### Calls -/

variable (hconvert : ∀ view loc, Reachable setting.naming.document view →
  AllCited setting.naming (locData loc) →
  Cites setting.naming (convert view loc) fun converted =>
    AllCited setting.naming converted.data)

include hconvert

theorem cites_property {map : View} {entry : Schema.Entry}
    (hmap : Reachable setting.naming.document map) (hentry : entry ∈ map.entries) :
    Cites setting.naming (property setting convert entry) fun property =>
      AllCited setting.naming property.data := by
  obtain ⟨hcode, hlabel⟩ := cited_entry hmap hentry
  have hview := hmap.below (.single (View.holds_of_mem_entries hentry))
  refine .bind (hconvert _ _ hview (allCited_locData_some.mpr hcode)) fun converted hconverted => ?_
  refine .bind (.lift fun own hown => allCited_rules hview hown) fun own hown => ?_
  refine .bind (.lift fun _ _ => trivial) fun required _ => .pure ?_
  obtain ⟨⟨hrules, hcontent⟩, hinherited⟩ : (AllCited setting.naming
      (converted.type.rules.flatMap Rule.data) ∧ AllCited setting.naming
      converted.type.content.data) ∧ AllCited setting.naming
      (converted.inherited.flatMap Label.data) := by
    simpa only [Converted.data, ValueType.data, allCited_append] using hconverted
  simp only [Property.data, allCited_append]
  refine ⟨⟨⟨hlabel, ?_⟩, ?_⟩, allCited_locData_some.mpr hcode⟩
  -- The description and the rules are those of the schema itself or what it takes over.
  · split
    · exact hinherited
    · exact allCited_paragraphs hview
  · refine allCited_withConstant ?_ fun constant hconstant => allCited_constant hview hconstant
    refine allCited_append.mpr ⟨?_, hcontent⟩
    dsimp only
    split
    · exact hrules
    · exact hown

theorem cites_properties (hview : Reachable setting.naming.document view) :
    Cites setting.naming (properties setting convert view) fun properties =>
      AllCited setting.naming (properties.flatMap Property.data) := by
  have hlist : ∀ entries, (∀ entry ∈ entries, entry ∈ propertyEntries view) →
      Cites setting.naming (propertyList setting convert entries) fun properties =>
        AllCited setting.naming (properties.flatMap Property.data) := by
    intro entries hentries
    induction entries with
    | nil => exact .pure allCited_nil
    | cons entry rest ih =>
        obtain ⟨hentry, hrest⟩ := List.forall_mem_cons.mp hentries
        obtain ⟨map, hmap, hentry⟩ := exists_map_of_mem_propertyEntries hentry
        have hreachable := hview.below (.single hmap)
        refine .bind (cites_property hconvert hreachable hentry) fun first hfirst => ?_
        exact .bind (ih hrest) fun others hothers =>
          .pure (allCited_append.mpr ⟨hfirst, hothers⟩)
  exact hlist _ fun _ h => h

theorem cites_objectBody (hview : Reachable setting.naming.document view) :
    Cites setting.naming (objectBody setting convert view) fun body =>
      AllCited setting.naming (body.1.flatMap Property.data) ∧
        AllCited setting.naming (body.2.flatMap Rule.data) :=
  .bind (cites_properties hconvert hview) fun _ hproperties =>
    .bind (.lift fun _ hrules => allCited_rules hview hrules) fun _ hrules =>
      .pure ⟨hproperties, hrules⟩

theorem cites_intersectionBody (hview : Reachable setting.naming.document view) :
    Cites setting.naming (intersectionBody setting convert view) fun body =>
      AllCited setting.naming (body.1.flatMap Property.data) ∧
        AllCited setting.naming (body.2.flatMap Rule.data) := by
  have hmembers : ∀ member ∈ view.allOf?.getD [], Reachable setting.naming.document member :=
    fun _ hmember => hview.below (View.below_of_mem_getD_children? hmember)
  have hmerged : ∀ parts before, (∀ part ∈ parts, Reachable setting.naming.document part) →
      AllCited setting.naming (before.flatMap Property.data) →
      Cites setting.naming (mergedProperties setting convert before parts) fun properties =>
        AllCited setting.naming (properties.flatMap Property.data) := by
    intro parts
    induction parts with
    | nil => exact fun before _ hbefore => .pure hbefore
    | cons part rest ih =>
        intro before hparts hbefore
        obtain ⟨hpart, hrest⟩ := List.forall_mem_cons.mp hparts
        refine .bind (cites_properties hconvert hpart) fun added hadded => ih _ hrest ?_
        rw [allCited_flatMap] at hbefore hadded ⊢
        exact fun property hproperty =>
          (mem_foldl_mergeProperty hproperty).elim (hbefore property) (hadded property)
  have hrules : ∀ parts, (∀ part ∈ parts, Reachable setting.naming.document part) →
      ∀ rules, mergedRules parts = .ok rules →
        AllCited setting.naming (rules.flatMap Rule.data) := by
    intro parts hparts
    induction parts with
    | nil =>
        rintro _ ⟨⟩
        exact allCited_nil
    | cons part rest ih =>
        intro rules hmerge
        obtain ⟨hpart, hrest⟩ := List.forall_mem_cons.mp hparts
        obtain ⟨own, hown, hmerge⟩ := bind_eq_ok.mp hmerge
        obtain ⟨others, hothers, hmerge⟩ := bind_eq_ok.mp hmerge
        obtain rfl := Except.ok.inj hmerge
        rw [List.flatMap_append, allCited_append]
        exact ⟨allCited_rules hpart hown, ih hrest _ hothers⟩
  exact .bind (cites_intersectionParts hmembers) fun parts hparts =>
    .bind (hmerged parts [] hparts allCited_nil) fun _ hproperties =>
      .bind (.lift fun _ h => hrules parts hparts _ h) fun _ hrules => .pure ⟨hproperties, hrules⟩

theorem cites_alternatives {members : List View}
    (hmembers : ∀ member ∈ members, Reachable setting.naming.document member) :
    Cites setting.naming (alternatives convert members) fun found =>
      ∀ alternative ∈ found, Reachable setting.naming.document alternative.view ∧
        AllCited setting.naming alternative.type.data := by
  induction members with
  | nil => exact .pure (List.forall_mem_nil _)
  | cons member rest ih =>
      obtain ⟨hmember, hrest⟩ := List.forall_mem_cons.mp hmembers
      refine .bind (hconvert _ _ hmember (allCited_locData_some.mpr (cited_code hmember))) ?_
      intro converted hconverted
      refine .bind (ih hrest) fun others hothers => .pure ?_
      exact List.forall_mem_cons.mpr ⟨⟨hmember, (allCited_append.mp hconverted).1⟩, hothers⟩

theorem cites_unionBody (hview : Reachable setting.naming.document view) :
    Cites setting.naming (unionBody setting convert view) fun body =>
      AllCited setting.naming (body.members.flatMap ValueType.data) ∧
        AllCited setting.naming (body.discriminator.toList.flatMap Label.data) := by
  have hmembers : ∀ member ∈ view.oneOf?.getD [], Reachable setting.naming.document member :=
    fun _ hmember => hview.below (View.below_of_mem_getD_children? hmember)
  refine .bind (cites_alternatives hconvert hmembers) fun found hfound => ?_
  have hkeep : ∀ fits (problem : Problem) (kind : UnionKind) (discriminator : Option Label),
      Cited setting.naming (.text problem.message) →
      AllCited setting.naming (discriminator.toList.flatMap Label.data) →
      Cites setting.naming (do
        let kept ← keep setting fits problem found
        return ⟨kind, kept, discriminator⟩ : Action UnionBody) fun body =>
          AllCited setting.naming (body.members.flatMap ValueType.data) ∧
            AllCited setting.naming (body.discriminator.toList.flatMap Label.data) :=
    fun fits _ _ _ hproblem hdiscriminator =>
      .bind (cites_keep fits hproblem hfound) fun _ hkept => .pure ⟨hkept, hdiscriminator⟩
  split
  next discriminator hdiscriminator =>
    have hlabel : AllCited setting.naming
        ((some discriminator).toList.flatMap Label.data) := by
      simpa using allCited_discriminatorOf? hview hdiscriminator
    split
    next mapping hmapping =>
      obtain ⟨object, hobject, hmapping⟩ := Option.bind_eq_some_iff.mp hmapping
      have hpart := reachable_of_child? (reachable_of_child? hview hobject) hmapping
      refine .bind (.report ⟨_, rfl, cited_code hpart⟩ (cited_ofString _)) fun _ _ => ?_
      exact hkeep _ _ _ _ (cited_ofString _) hlabel
    next => exact hkeep _ _ _ _ (cited_ofString _) hlabel
  next => exact .pure ⟨allCited_nil, allCited_nil⟩
  next => exact hkeep _ _ _ _ (cited_ofString _) allCited_nil

theorem cites_union (hview : Reachable setting.naming.document view)
    (hloc : AllCited setting.naming (locData loc)) :
    Cites setting.naming (union setting convert view loc) fun type =>
      AllCited setting.naming type.data :=
  cites_named hview fun name hname =>
    .bind (.update fun _ hbefore => hbefore.addUnion hview hname hloc) fun _ _ =>
      .bind (.note _) fun _ _ => .bind (cites_unionBody hconvert hview) fun body hbody =>
        .update fun _ hbefore => hbefore.completeUnion name.value body.kind hbody.1 hbody.2

theorem cites_array (hview : Reachable setting.naming.document view) :
    Cites setting.naming (array setting convert view) fun type =>
      AllCited setting.naming type.data := by
  unfold array
  split
  next => exact .pure allCited_nil
  next item hitem =>
    have hpart := reachable_of_child? hview (View.child?_of_items? hitem)
    refine .bind (hconvert _ _ hpart (allCited_locData_some.mpr (cited_code hpart))) ?_
    exact fun converted hconverted => .pure (allCited_append.mp hconverted).1
  next items hitems =>
    split
    · exact .bind (.note _) fun _ _ => .throw _
    · exact .bind (.report (citedRange_of_many hview hitems) (cited_ofString _)) fun _ _ =>
        .pure allCited_nil

/-- The place that a schema is called for is passed on to what it refers to. -/
theorem cites_convertTarget {target : View} (hview : Reachable setting.naming.document view)
    (htarget : Reachable setting.naming.document target)
    (hloc : AllCited setting.naming (locData loc)) :
    Cites setting.naming (convertTarget convert view loc target) fun converted =>
      AllCited setting.naming converted.data := by
  refine .bind (hconvert _ _ htarget hloc) fun converted hconverted => .pure ?_
  obtain ⟨htype, hinherited⟩ := allCited_append.mp hconverted
  rw [Converted.data, List.flatMap_append, allCited_append, allCited_append]
  exact ⟨htype, allCited_paragraphs hview, hinherited⟩

omit hconvert in
theorem cites_refuseCircular {reference : View}
    (hreference : Reachable setting.naming.document reference) :
    Cites setting.naming (refuseCircular setting view reference) fun converted =>
      AllCited setting.naming converted.data := by
  unfold refuseCircular
  split
  · exact .bind (.note _) fun _ _ => .throw _
  · refine .bind (.report ⟨_, rfl, cited_code hreference⟩ ?_) fun _ _ => .pure allCited_nil
    exact cited_circularMessage (cited_referenceText hreference)

theorem cites_follow {reference : View} (hview : Reachable setting.naming.document view)
    (hreference : view.reference? = some reference) (hloc : AllCited setting.naming (locData loc)) :
    Cites setting.naming (follow setting convert view reference loc) fun converted =>
      AllCited setting.naming converted.data := by
  have hpart := reachable_of_child? hview hreference
  rw [follow_eq]
  refine .bind (cites_dereference hview hreference) fun found hfound => ?_
  cases found with
  | none => exact .pure allCited_nil
  | some target =>
      have hgo := cites_convertTarget hconvert hview (hfound target rfl) hloc
      refine .bind .get fun state _ => ?_
      split
      · refine .bind (.lift fun _ _ => trivial) fun shape _ => ?_
        cases shape.isNamed with
        | true => exact hgo
        | false => exact cites_refuseCircular hpart
      · exact hgo

theorem cites_byType (hview : Reachable setting.naming.document view)
    (hloc : AllCited setting.naming (locData loc)) (shape : Shape) :
    Cites setting.naming (byType setting convert view loc shape) fun type =>
      AllCited setting.naming type.data := by
  cases shape with
  | object => exact cites_typeEntry hview hloc (cites_objectBody hconvert hview)
  | array => exact cites_array hconvert hview
  | _ => exact cites_primitive hview hloc

theorem cites_enumeration (hview : Reachable setting.naming.document view)
    (hshape : view.shape = .ok .enumeration) (hloc : AllCited setting.naming (locData loc)) :
    Cites setting.naming (enumeration setting convert view loc) fun type =>
      AllCited setting.naming type.data := by
  have hmembers : ∀ member ∈ view.enum?.getD [], Reachable setting.naming.document member :=
    fun _ hmember => hview.below (View.below_of_mem_getD_children? hmember)
  have htype : Cites setting.naming (byDeclaredType setting convert view loc) fun type =>
      AllCited setting.naming type.data :=
    .bind (.lift fun _ _ => trivial) fun shape _ => cites_byType hconvert hview hloc shape
  rw [enumeration_eq]
  refine .bind (.lift fun _ _ => trivial) fun isString _ => ?_
  dsimp only
  split
  · exact cites_stringEnum hview hmembers hloc
  · split
    · have hkeyword := (citedRange_of_shape hview hshape).2.2 rfl
      exact .bind (.report hkeyword (cited_ofString _)) fun _ _ => htype
    · exact htype

/-- What is not converted is reported at the keyword that decides the shape, which is there. -/
theorem cites_byShape {shape : Shape} (hview : Reachable setting.naming.document view)
    (hshape : view.shape = .ok shape) (hloc : AllCited setting.naming (locData loc)) :
    Cites setting.naming (byShape setting convert view loc shape) fun type =>
      AllCited setting.naming type.data := by
  have hkeyword := citedRange_of_shape hview hshape
  cases shape with
  | intersection => exact cites_typeEntry hview hloc (cites_intersectionBody hconvert hview)
  | anyOf => exact cites_placeholder (hkeyword.1 rfl) (cited_ofString _)
  | union => exact cites_union hconvert hview hloc
  | typeList => exact cites_placeholder (hkeyword.2.1 rfl) (cited_ofString _)
  | enumeration => exact cites_enumeration hconvert hview hshape hloc
  | object => exact cites_byType hconvert hview hloc .object
  | array => exact cites_array hconvert hview
  | reference | primitive => exact cites_primitive hview hloc

theorem cites_dispatch (hview : Reachable setting.naming.document view)
    (hloc : AllCited setting.naming (locData loc)) :
    Cites setting.naming (dispatch setting convert view loc) fun converted =>
      AllCited setting.naming converted.data := by
  refine .bind (.lift fun _ h => h) fun shape hshape => .bind (.note _) fun _ _ => ?_
  split
  next reference hreference => exact cites_follow hconvert hview hreference hloc
  next =>
    refine .bind (cites_byShape hconvert hview hshape hloc) fun type htype => .pure ?_
    exact allCited_append.mpr ⟨htype, allCited_paragraphs hview⟩

theorem cites_visitDefinitions {entries : List Schema.Entry}
    (hview : Reachable setting.naming.document view)
    (hentries : ∀ entry ∈ entries, entry ∈ definitionEntries view) :
    Cites setting.naming (visitDefinitions setting convert entries) fun _ => True := by
  induction entries with
  | nil => exact .pure trivial
  | cons entry rest ih =>
      obtain ⟨hentry, hrest⟩ := List.forall_mem_cons.mp hentries
      obtain ⟨map, hmap, hentry⟩ := exists_map_of_mem_definitionEntries hentry
      have hreachable := hview.below (.single hmap)
      have hcode := (cited_entry hreachable hentry).1
      have hpart := hreachable.below (.single (View.holds_of_mem_entries hentry))
      refine .bind .get fun state _ => ?_
      split
      · exact ih hrest
      · refine .bind (.update fun _ h => ⟨h.types, h.enums, h.unions, h.violations⟩) fun _ _ => ?_
        exact .bind (hconvert _ _ hpart (allCited_locData_some.mpr hcode)) fun _ _ => ih hrest

theorem cites_step (hview : Reachable setting.naming.document view)
    (hloc : AllCited setting.naming (locData loc)) :
    Cites setting.naming (step setting convert view loc) fun converted =>
      AllCited setting.naming converted.data :=
  .bind (cites_visitDefinitions hconvert hview fun _ hentry => hentry) fun _ _ =>
    .within _ (cites_dispatch hconvert hview hloc)

end Steps

theorem cites_convertWithin (setting : Setting) (depth : Nat) (view : View)
    (loc : Option LocationCode) (hview : Reachable setting.naming.document view)
    (hloc : AllCited setting.naming (locData loc)) :
    Cites setting.naming (convertWithin setting depth view loc) fun converted =>
      AllCited setting.naming converted.data := by
  induction depth generalizing view loc with
  | zero => exact .throw _
  | succ depth ih => exact cites_step ih hview hloc

/-! ### Outcomes -/

/-- The root is called for at its own range, and no entry is there yet. -/
theorem analyze_citing (setting : Setting) : (analyze setting).2.Citing setting.naming := by
  have hroot : Reachable setting.naming.document (View.root setting.document) := .root _
  have hcites := cites_convertWithin setting setting.depth (View.root setting.document)
    (some (View.root setting.document).code) hroot (allCited_locData_some.mpr (cited_code hroot))
  exact ((hcites {} (.empty _)).imp (fun _ _ h => h.2) fun _ _ h => h).ended

theorem allCited_title {setting : Setting} {label : Label} (h : title setting = .ok label) :
    AllCited setting.naming label.data := by
  obtain ⟨name, hname, h⟩ := bind_eq_ok.mp h
  obtain rfl := Except.ok.inj h
  cases name with
  | none => exact allCited_cons.mpr ⟨fun hnaming => hnaming.rootName, allCited_nil⟩
  | some name => exact allCited_infer (.root setting.document) hname

/-- The entries of a registry bring the data of its values. -/
theorem Registry.All.allCited {α : Type} {naming : Naming} {registry : Registry α}
    {data : α → List Datum} (h : registry.All fun _ value => AllCited naming (data value)) :
    AllCited naming (registry.values.flatMap data) := by
  rw [allCited_flatMap]
  intro value hvalue
  obtain ⟨⟨key, value⟩, hentry, rfl⟩ := List.mem_map.mp hvalue
  exact h key value hentry

theorem Context.Citing.allCited_outcome {setting : Setting} {context : Context} {label : Label}
    (h : context.Citing setting.naming) (hlabel : AllCited setting.naming label.data) :
    AllCited setting.naming (context.outcome setting label).data := by
  have hroot : Reachable setting.naming.document (View.root setting.document) := .root _
  simp only [Outcome.data, Service.data, Context.outcome, Context.types, Context.enums,
    Context.unions, allCited_append]
  refine ⟨⟨⟨⟨⟨hlabel, ?_⟩, h.types.allCited⟩, h.enums.allCited⟩, h.unions.allCited⟩, ?_⟩
  · exact allCited_locData_some.mpr (cited_code hroot)
  · rw [allCited_flatMap]
    intro violation hviolation
    obtain ⟨⟨code, hcode, hcited⟩, hmessage⟩ := h.violations violation hviolation
    rw [Violation.data, hcode]
    exact allCited_cons.mpr ⟨hmessage, allCited_locData_some.mpr hcited⟩

theorem title_of_convertText {text path : String} {options : Options} {document : Node}
    {outcome : Outcome} (hread : Json.read text = .ok document)
    (houtcome : convertText text path options = .ok outcome) :
    title ⟨document, path, options⟩ = .ok outcome.service.title := by
  rw [convertText_of_read hread, Analysis.outcome] at houtcome
  rcases hanalyze : analyze ⟨document, path, options⟩ with ⟨failure | converted, context⟩
  · rw [hanalyze] at houtcome
    exact absurd houtcome nofun
  · rw [hanalyze] at houtcome
    cases htitle : title ⟨document, path, options⟩ with
    | error failure =>
        rw [htitle] at houtcome
        exact absurd houtcome nofun
    | ok label =>
        rw [htitle] at houtcome
        obtain rfl := Except.ok.inj houtcome
        rfl

/-- All data of an outcome are cited, and no violation is without a range. -/
theorem convertText_citing {text path : String} {options : Options} {document : Node}
    {outcome : Outcome} (hread : Json.read text = .ok document)
    (houtcome : convertText text path options = .ok outcome) :
    AllCited (Setting.naming ⟨document, path, options⟩) outcome.data ∧
      ∀ violation ∈ outcome.violations,
        CitedRange (Setting.naming ⟨document, path, options⟩) violation.range := by
  have htitle := title_of_convertText hread houtcome
  obtain ⟨found, converted, context, label, hfound, hreturns, rfl⟩ := convertText_eq_ok houtcome
  obtain rfl : document = found := Except.ok.inj (hread.symm.trans hfound)
  have hciting := analyze_citing ⟨document, path, options⟩
  rw [hreturns] at hciting
  exact ⟨hciting.allCited_outcome (allCited_title htitle),
    fun violation hviolation => (hciting.violations violation hviolation).1⟩

end Schemata.Analysis
