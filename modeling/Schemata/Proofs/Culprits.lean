import Schemata.Proofs.Faults
import Schemata.Proofs.Marks
import Schemata.Proofs.Parallel
import Schemata.Proofs.Termination

/-!
# What failures are blamed on

A conversion that fails names what it stopped at. It is a single type that is no scalar, in a
schema whose type is asked for; or a pointer along which a segment cannot be read as an index;
or, where that is strict, schemas for items one by one or a circular reference. Nothing else in
a document makes a conversion fail.
-/

namespace Schemata.Analysis

open Schema Source

/-- A schema whose type is asked for: one without compositions, a property, or what a member
of an intersection stands for. -/
inductive Inspected (setting : Setting) : View → Prop
  | plain {view : View} (hview : Met setting view) (hplain : view.Plain) : Inspected setting view
  | property {view part : View} {code : LocationCode} {shape : Shape} (hview : Met setting view)
      (hshape : view.conversionShape = .ok shape)
      (hkind : shape = .object ∨ shape = .intersection)
      (hpart : HasPart setting view part code) : Inspected setting part
  | member {view member part : View} (hview : Met setting view)
      (hshape : view.conversionShape = .ok .intersection)
      (hmember : member ∈ view.allOf?.getD [])
      (hpart : member.reference? = none ∧ part = member ∨ RefersTo setting member part) :
      Inspected setting part

/-- A pointer that is followed: that of a schema, or the reference of a schema or of a member
of an intersection. -/
inductive LookedUp (setting : Setting) : Pointer → Prop
  | schema {view : View} (hview : Met setting view) : LookedUp setting view.pointer
  | reference {view holder reference : View} {pointer : Pointer} (hview : Met setting view)
      (hholder : holder = view ∨
        view.conversionShape = .ok .intersection ∧ holder ∈ view.allOf?.getD [])
      (hreference : holder.reference? = some reference)
      (hstring : reference.string? = some pointer) : LookedUp setting pointer

/-- What a failure is blamed on. -/
inductive Culprit (setting : Setting) : Failure → Prop
  | type {view : View} {failure : Failure} (hview : Inspected setting view)
      (htype : view.Untypable failure) : Culprit setting failure
  | pointer {pointer : Pointer} {failure : Failure} (hpointer : LookedUp setting pointer)
      (hfailure : resolve setting.document pointer = .error failure) : Culprit setting failure
  | tupleItems {view : View} {items : List View} (hview : Met setting view)
      (hitems : view.items? = some (.many items))
      (hstrict : setting.options.strictTupleItems = true) :
      Culprit setting (.tupleItems view.pointer)
  | circularReference {view reference : View} (hview : Met setting view)
      (hreference : view.reference? = some reference)
      (hstrict : setting.options.strictReferenceCycles = true) :
      Culprit setting (.circularReference (referenceText reference) view.pointer)

/-- A failure has a culprit, unless a descent is too deep. -/
def Blamed (setting : Setting) (failure : Failure) : Prop :=
  failure ≠ .tooDeep → Culprit setting failure

/-- From whatever state, an action fails only if that is blamed on something. -/
def Accountable {α : Type} (setting : Setting) (action : Action α) : Prop :=
  ∀ before, action.Ensures before (fun _ _ => True) fun failure _ => Blamed setting failure

namespace Accountable

variable {α β : Type} {setting : Setting}

theorem pure (value : α) : Accountable setting (Pure.pure value : Action α) :=
  fun _ => trivial

theorem throw {failure : Failure} (h : Blamed setting failure) :
    Accountable setting (MonadExcept.throw failure : Action α) :=
  fun _ => h

theorem lift {result : Except Failure α} (h : FailsOnly (Blamed setting) result) :
    Accountable setting (liftM result : Action α) :=
  fun _ => Action.ensures_lift.mpr ⟨fun _ _ => trivial, h⟩

theorem bind {action : Action β} {next : β → Action α} (haction : Accountable setting action)
    (hnext : ∀ value, action.MayReturn value → Accountable setting (next value)) :
    Accountable setting (action >>= next) := by
  intro before
  rw [Action.ensures_bind]
  refine ((haction before).and (action.ensures_returns before)).imp ?_ fun _ _ h => h.1
  exact fun value middle h => hnext value ⟨before, middle, h.2⟩ middle

theorem get : Accountable setting (MonadState.get : Action Context) :=
  fun _ => trivial

theorem update (change : Context → Context) : Accountable setting (modify change : Action Unit) :=
  fun _ => trivial

theorem note (event : Event) : Accountable setting (Action.note event) :=
  update _

theorem report (problem : Problem) (range : Option LocationCode) :
    Accountable setting (Action.report setting problem range) :=
  update _

theorem within {action : Action α} (pointer : Pointer) (h : Accountable setting action) :
    Accountable setting (Action.within pointer action) :=
  fun _ => Action.ensures_within.mpr (h _)

end Accountable

/-! ### Pointers of schemas -/

/-- The pointer of a schema starts at the root. -/
def Rooted (view : View) : Prop :=
  ∃ path, view.pointer.segments = Pointer.root :: path

theorem Rooted.below {view part : View} (hview : Rooted view) (h : Below view part) :
    Rooted part := by
  induction h with
  | refl => exact hview
  | tail _ hholds ih =>
      obtain ⟨path, hsegments⟩ := ih
      cases hholds with
      | @member found _ =>
          exact ⟨path ++ [found.key.name], by rw [Pointer.segments_child, hsegments]; rfl⟩
      | item _ => exact ⟨path ++ [_], by rw [Pointer.segments_item, hsegments]; rfl⟩

theorem rooted_of_resolve {document : Json.Node} {pointer : Pointer} {view : View}
    (h : resolve document pointer = .ok (some view)) : Rooted view := by
  unfold resolve at h
  split at h
  · simp at h
  next first path hsegments =>
    split at h
    next hfirst =>
      obtain ⟨found, -, h⟩ := map_eq_ok.mp h
      obtain ⟨node, -, rfl⟩ := Option.map_eq_some_iff.mp h
      exact ⟨path, by rw [hsegments, hfirst]⟩
    · simp at h

theorem Reachable.rooted {document : Json.Node} {view : View} (h : Reachable document view) :
    Rooted view := by
  obtain ⟨base, hbase, hbelow⟩ := h
  refine Rooted.below ?_ hbelow
  rcases List.mem_cons.mp hbase with rfl | htarget
  · exact ⟨[], Pointer.segments_root⟩
  · obtain ⟨pointer, -, hpointer⟩ := List.mem_filterMap.mp htarget
    exact rooted_of_resolve (target?_eq_some_iff.mp hpointer)

/-! ### Steps -/

section Steps

variable {setting : Setting} {convert : Converter} {view : View} {loc : Option LocationCode}

theorem Inspected.blamed (h : Inspected setting view) (failure : Failure)
    (htype : view.Untypable failure) : Blamed setting failure :=
  fun _ => .type h htype

theorem Met.failsOnly_infer (hview : Met setting view) :
    FailsOnly (Blamed setting) (setting.naming.infer view) := by
  obtain ⟨path, hsegments⟩ := hview.reachable.rooted
  exact (Naming.failsOnly_infer setting.naming hsegments).imp
    fun _ h _ => .pointer (.schema hview) h

theorem Met.failsOnly_isRequired (hview : Met setting view) :
    FailsOnly (Blamed setting) (isRequired setting.document view.pointer) := by
  obtain ⟨path, hsegments⟩ := hview.reachable.rooted
  exact (Schema.failsOnly_isRequired hsegments).imp fun _ h _ => .pointer (.schema hview) h

theorem Met.failsOnly_shape (hview : Met setting view) :
    FailsOnly (Blamed setting) view.shape :=
  (View.failsOnly_shape view).imp fun _ h _ => .type (.plain hview h.1) h.2

theorem accountable_dereference {holder reference : View} (hview : Met setting view)
    (hholder : holder = view ∨
      view.conversionShape = .ok .intersection ∧ holder ∈ view.allOf?.getD [])
    (hreference : holder.reference? = some reference) :
    Accountable setting (dereference setting reference) := by
  rw [dereference_eq]
  refine .bind (.lift ?_) fun found _ => ?_
  · unfold targetOf
    split
    next pointer hstring =>
      intro failure hfailure _
      exact .pointer (.reference hview hholder hreference hstring) hfailure
    next => exact .ok _
  · cases found with
    | some => exact .pure _
    | none => exact .bind (.report _ _) fun _ _ => .pure _

theorem accountable_standIn {member : View} (hview : Met setting view)
    (hshape : view.conversionShape = .ok .intersection)
    (hmember : member ∈ view.allOf?.getD []) : Accountable setting (standIn setting member) := by
  unfold standIn
  split
  next hreference => exact accountable_dereference hview (.inr ⟨hshape, hmember⟩) hreference
  next => exact .pure _

theorem accountable_primitive (hview : Met setting view) (hplain : view.Plain) :
    Accountable setting (primitive setting view loc) := by
  unfold primitive
  split
  · exact .pure _
  · refine .bind (.lift hview.failsOnly_isRequired) fun _ _ => ?_
    refine .bind (.lift ?_) fun _ _ => .pure _
    exact (View.failsOnly_rules view _).imp (Inspected.plain hview hplain).blamed

theorem accountable_placeholder {key : Str} {problem : Problem} :
    Accountable setting (placeholder setting view key problem) := by
  unfold placeholder
  split
  · exact .bind (.report _ _) fun _ _ => .pure _
  · exact .pure _

theorem accountable_named {declare : Label → Action Unit} (hview : Met setting view)
    (hdeclare : ∀ name, Accountable setting (declare name)) :
    Accountable setting (Action.named setting view declare) := by
  have hclaim : ∀ name, Accountable setting (Action.claim setting name view) := by
    refine fun name => .bind .get fun state _ => ?_
    split
    · exact .pure _
    · dsimp only
      split
      · exact .bind (.report _ _) fun _ _ => .pure _
      · exact .pure _
  refine .bind (.lift hview.failsOnly_infer) fun found _ => ?_
  cases found with
  | none => exact .pure _
  | some name =>
      refine .bind (hclaim name) fun claimed _ => ?_
      cases claimed with
      | true => exact .bind (hdeclare name) fun _ _ => .pure _
      | false => exact .pure _

theorem accountable_typeEntry {origin : Origin} {body : Action TypeBody} (hview : Met setting view)
    (hbody : Accountable setting body) :
    Accountable setting (typeEntry setting origin body view loc) :=
  accountable_named hview fun _ =>
    .bind (.update _) fun _ _ => .bind (.note _) fun _ _ => .bind hbody fun _ _ => .update _

theorem accountable_stringEnum (hview : Met setting view) (members : List View) :
    Accountable setting (stringEnum setting view members loc) :=
  accountable_named hview fun _ => .bind (.update _) fun _ _ => .note _

/-- Only the types of the members are asked for, and those of what they refer to. -/
theorem accountable_intersectionParts (hview : Met setting view)
    (hshape : view.conversionShape = .ok .intersection) {members : List View}
    (hmembers : ∀ member ∈ members, member ∈ view.allOf?.getD []) :
    Accountable setting (intersectionParts setting members) := by
  induction members with
  | nil => exact .pure _
  | cons member rest ih =>
      have hmember := hmembers member List.mem_cons_self
      have hrest := fun other hother => hmembers other (List.mem_cons_of_mem _ hother)
      rw [intersectionParts_cons]
      refine .bind (accountable_standIn hview hshape hmember) fun target htarget => ?_
      refine .bind (.lift ?_) fun _ _ => .bind (ih hrest) fun _ _ => .pure _
      cases target with
      | none => exact .ok _
      | some part =>
          exact (View.failsOnly_hasType part _).imp
            (Inspected.member hview hshape hmember (standsFor_of_mayReturn htarget)).blamed

theorem accountable_keep (fits : ValueType → Bool) (problem : Problem) (found : List Alternative) :
    Accountable setting (keep setting fits problem found) := by
  induction found with
  | nil => exact .pure _
  | cons alternative rest ih =>
      unfold keep
      split
      · exact .bind ih fun _ _ => .pure _
      · exact .bind (.report _ _) fun _ _ => ih

/-! ### Calls -/

variable (hconvert : ∀ view loc, Met setting view → Accountable setting (convert view loc))

include hconvert

theorem accountable_property {entry : Schema.Entry} (hview : Met setting entry.view)
    (hinspected : Inspected setting entry.view) :
    Accountable setting (property setting convert entry) :=
  .bind (hconvert _ _ hview) fun _ _ =>
    .bind (.lift ((View.failsOnly_rules _ _).imp hinspected.blamed)) fun _ _ =>
      .bind (.lift hview.failsOnly_isRequired) fun _ _ => .pure _

theorem accountable_propertyList {entries : List Schema.Entry}
    (hentries : ∀ entry ∈ entries, Met setting entry.view ∧ Inspected setting entry.view) :
    Accountable setting (propertyList setting convert entries) := by
  induction entries with
  | nil => exact .pure _
  | cons entry rest ih =>
      obtain ⟨hview, hinspected⟩ := hentries entry List.mem_cons_self
      refine .bind (accountable_property hconvert hview hinspected) fun _ _ => ?_
      refine .bind (ih fun other hother => ?_) fun _ _ => .pure _
      exact hentries other (List.mem_cons_of_mem _ hother)

theorem accountable_objectBody (hview : Met setting view) (hplain : view.Plain)
    (hshape : view.conversionShape = .ok .object) :
    Accountable setting (objectBody setting convert view) := by
  refine .bind (accountable_propertyList hconvert fun entry hentry => ?_) fun _ _ => ?_
  · have hpart : HasPart setting view entry.view entry.code := .property hshape hentry
    exact ⟨hview.tail (.own (.part hpart)), .property hview hshape (.inl rfl) hpart⟩
  · refine .bind (.lift ?_) fun _ _ => .pure _
    exact (View.failsOnly_rules view _).imp (Inspected.plain hview hplain).blamed

theorem accountable_intersectionBody (hview : Met setting view)
    (hshape : view.conversionShape = .ok .intersection) :
    Accountable setting (intersectionBody setting convert view) := by
  refine .bind (accountable_intersectionParts hview hshape fun _ hmember => hmember) ?_
  intro parts hparts
  have htaken := takesOver_of_mayReturn hshape hparts
  have hmerged : ∀ merged parts, (∀ part ∈ parts, TakesOver setting view part) →
      Accountable setting (mergedProperties setting convert merged parts) := by
    intro merged parts hparts
    induction parts generalizing merged with
    | nil => exact .pure _
    | cons part rest ih =>
        have hpart := hparts part List.mem_cons_self
        refine .bind (accountable_propertyList hconvert fun entry hentry => ?_) fun _ _ =>
          ih _ fun other hother => hparts other (List.mem_cons_of_mem _ hother)
        have hinherited : HasPart setting view entry.view entry.code :=
          .inherited hshape hpart hentry
        exact ⟨hview.tail (.own (.part hinherited)), .property hview hshape (.inr rfl) hinherited⟩
  have hrules : ∀ parts, (∀ part ∈ parts, TakesOver setting view part) →
      FailsOnly (Blamed setting) (mergedRules parts) := by
    intro parts hparts
    induction parts with
    | nil => exact .ok _
    | cons part rest ih =>
        obtain ⟨⟨member, hmember, hother⟩, -⟩ := hparts part List.mem_cons_self
        have hinspected : Inspected setting part := .member hview hshape hmember hother
        refine .bind ((View.failsOnly_rules part _).imp hinspected.blamed) fun _ _ => ?_
        exact .bind (ih fun other hother => hparts other (List.mem_cons_of_mem _ hother)) fun _ _ =>
          .pure _
  exact .bind (hmerged [] parts htaken) fun _ _ =>
    .bind (.lift (hrules parts htaken)) fun _ _ => .pure _

theorem accountable_unionBody (hview : Met setting view)
    (hshape : view.conversionShape = .ok .union) :
    Accountable setting (unionBody setting convert view) := by
  have halternatives : ∀ members, (∀ member ∈ members, member ∈ view.oneOf?.getD []) →
      Accountable setting (alternatives convert members) := by
    intro members hmembers
    induction members with
    | nil => exact .pure _
    | cons member rest ih =>
        have hmet : Met setting member :=
          hview.tail (.own (.part (.member hshape (hmembers member List.mem_cons_self))))
        refine .bind (hconvert _ _ hmet) fun _ _ =>
          .bind (ih fun other hother => ?_) fun _ _ => .pure _
        exact hmembers other (List.mem_cons_of_mem _ hother)
  refine .bind (halternatives _ fun _ hmember => hmember) fun found _ => ?_
  have hkeep : ∀ fits problem (kind : UnionKind) discriminator,
      Accountable setting (do
        let kept ← keep setting fits problem found
        return ⟨kind, kept, discriminator⟩ : Action UnionBody) :=
    fun fits problem _ _ => .bind (accountable_keep fits problem found) fun _ _ => .pure _
  split
  · split
    · exact .bind (.report _ _) fun _ _ => hkeep _ _ _ _
    · exact hkeep _ _ _ _
  · exact .pure _
  · exact hkeep _ _ _ _

theorem accountable_array (hview : Met setting view) (hshape : view.conversionShape = .ok .array) :
    Accountable setting (array setting convert view) := by
  unfold array
  split
  next => exact .pure _
  next item hitem =>
    exact .bind (hconvert _ _ (hview.tail (.own (.item ⟨hshape, hitem⟩)))) fun _ _ => .pure _
  next items hitems =>
    split
    next hstrict =>
      exact .bind (.note _) fun _ _ => .throw fun _ => .tupleItems hview hitems hstrict
    next => exact .bind (.report _ _) fun _ _ => .pure _

omit hconvert in
theorem accountable_refuseCircular {reference : View} (hview : Met setting view)
    (hreference : view.reference? = some reference) :
    Accountable setting (refuseCircular setting view reference) := by
  unfold refuseCircular
  split
  next hstrict =>
    exact .bind (.note _) fun _ _ => .throw fun _ => .circularReference hview hreference hstrict
  next => exact .bind (.report _ _) fun _ _ => .pure _

theorem accountable_follow {reference : View} (hview : Met setting view)
    (hreference : view.reference? = some reference) :
    Accountable setting (follow setting convert view reference loc) := by
  rw [follow_eq]
  refine .bind (accountable_dereference hview (.inl rfl) hreference) fun found hfound => ?_
  cases found with
  | none => exact .pure _
  | some target =>
      have hmet : Met setting target :=
        hview.tail (.own (.target (refersTo_of_mayReturn hreference hfound)))
      have hgo : Accountable setting (convertTarget convert view loc target) :=
        .bind (hconvert _ _ hmet) fun _ _ => .pure _
      refine .bind .get fun state _ => ?_
      split
      · refine .bind (.lift ?_) fun shape _ => ?_
        · exact (View.failsOnly_conversionShape target).imp fun _ h _ =>
            .type (.plain hmet h.1) h.2
        · cases shape.isNamed with
          | true => exact hgo
          | false => exact accountable_refuseCircular hview hreference
      · exact hgo

theorem accountable_object (hview : Met setting view) (hplain : view.Plain)
    (hshape : view.conversionShape = .ok .object) :
    Accountable setting (object setting convert view loc) :=
  accountable_typeEntry hview (accountable_objectBody hconvert hview hplain hshape)

theorem accountable_union (hview : Met setting view) (hshape : view.conversionShape = .ok .union) :
    Accountable setting (union setting convert view loc) :=
  accountable_named hview fun _ =>
    .bind (.update _) fun _ _ => .bind (.note _) fun _ _ =>
      .bind (accountable_unionBody hconvert hview hshape) fun _ _ => .update _

theorem accountable_enumeration (hview : Met setting view) (hplain : view.Plain)
    (hshape : view.shape = .ok .enumeration) :
    Accountable setting (enumeration setting convert view loc) := by
  have hblamed := (Inspected.plain hview hplain).blamed
  rw [enumeration_eq]
  refine .bind (.lift ((View.failsOnly_isStringEnum view).imp hblamed)) fun isString hstring => ?_
  cases isString with
  | true => exact accountable_stringEnum hview _
  | false =>
      have hconversion := conversionShape_of_otherEnum hshape hstring.lift
      have htype : Accountable setting (byDeclaredType setting convert view loc) := by
        refine .bind (.lift ((View.failsOnly_shapeOfType view).imp hblamed)) fun shape hfound => ?_
        rw [hfound.lift] at hconversion
        cases shape with
        | object => exact accountable_object hconvert hview hplain hconversion
        | array => exact accountable_array hconvert hview hconversion
        | _ => exact accountable_primitive hview hplain
      dsimp only
      split
      · contradiction
      · split
        · exact .bind (.report _ _) fun _ _ => htype
        · exact htype

theorem accountable_byShape (hview : Met setting view) (hreference : view.reference? = none)
    {shape : Shape} (hshape : view.shape = .ok shape) :
    Accountable setting (byShape setting convert view loc shape) := by
  have hconversion := conversionShape_of_shape hshape
  have hplain : shape ≠ .reference → shape ≠ .intersection → shape ≠ .anyOf → shape ≠ .union →
      view.Plain := by
    intro _ _ _ _
    refine View.plain_of_shape fun other hother => ?_
    obtain rfl := Except.ok.inj (hshape.symm.trans hother)
    exact ⟨‹_›, ‹_›, ‹_›, ‹_›⟩
  cases shape with
  | intersection =>
      exact accountable_typeEntry hview
        (accountable_intersectionBody hconvert hview (hconversion nofun))
  | union => exact accountable_union hconvert hview (hconversion nofun)
  | enumeration =>
      exact accountable_enumeration hconvert hview (hplain nofun nofun nofun nofun) hshape
  | object =>
      exact accountable_object hconvert hview (hplain nofun nofun nofun nofun) (hconversion nofun)
  | array => exact accountable_array hconvert hview (hconversion nofun)
  | anyOf | typeList => exact accountable_placeholder
  | reference => exact absurd hreference (reference?_of_shape hshape)
  | primitive => exact accountable_primitive hview (hplain nofun nofun nofun nofun)

theorem accountable_dispatch (hview : Met setting view) :
    Accountable setting (dispatch setting convert view loc) := by
  refine .bind (.lift hview.failsOnly_shape) fun shape hshape => .bind (.note _) fun _ _ => ?_
  split
  next reference hreference => exact accountable_follow hconvert hview hreference
  next hreference =>
    exact .bind (accountable_byShape hconvert hview hreference hshape.lift) fun _ _ => .pure _

theorem accountable_visitDefinitions (hview : Met setting view) {entries : List Schema.Entry}
    (hentries : ∀ entry ∈ entries, entry ∈ definitionEntries view) :
    Accountable setting (visitDefinitions setting convert entries) := by
  induction entries with
  | nil => exact .pure _
  | cons entry rest ih =>
      have hrest := ih fun other hother => hentries other (List.mem_cons_of_mem entry hother)
      refine .bind .get fun state _ => ?_
      split
      · exact hrest
      next hnew =>
        simp only [Bool.or_eq_true, decide_eq_true_eq, not_or] at hnew
        have hdefinition : Defines setting view entry.view :=
          ⟨entry, hentries entry List.mem_cons_self, hnew.1, rfl⟩
        exact .bind (.update _) fun _ _ =>
          .bind (hconvert _ _ (hview.tail (.definition hdefinition))) fun _ _ => hrest

theorem accountable_step (hview : Met setting view) :
    Accountable setting (step setting convert view loc) :=
  .bind (accountable_visitDefinitions hconvert hview fun _ hentry => hentry) fun _ _ =>
    .within _ (accountable_dispatch hconvert hview)

end Steps

theorem accountable_convertWithin (setting : Setting) (depth : Nat) (view : View)
    (loc : Option LocationCode) (hview : Met setting view) :
    Accountable setting (convertWithin setting depth view loc) := by
  induction depth generalizing view loc with
  | zero => exact .throw fun h => absurd rfl h
  | succ depth ih => exact accountable_step ih hview

/-! ### Documents -/

theorem analyze_culprit {setting : Setting} {failure : Failure}
    (h : (analyze setting).1 = .error failure) : Culprit setting failure := by
  have hdeep : failure ≠ .tooDeep := by
    rintro rfl
    exact (convertWithin_depth_add setting (.root _) _ _ 0).1 h
  have hensures := accountable_convertWithin setting setting.depth (View.root setting.document)
    (some (View.root setting.document).code) .refl {}
  unfold Action.Ensures at hensures
  split at hensures
  next hrun =>
    have hok := congrArg Prod.fst hrun
    exact absurd (h.symm.trans hok) nofun
  next found _ hrun =>
    obtain rfl : found = failure :=
      Except.error.inj ((congrArg Prod.fst hrun).symm.trans h)
    exact hensures hdeep

/-- The root always has a name. -/
theorem title_eq_ok (setting : Setting) : ∃ label, title setting = .ok label := by
  have hroot : ∃ label, setting.naming.infer (View.root setting.document) = .ok (some label) := by
    unfold Naming.infer
    split
    next label _ => exact ⟨label, rfl⟩
    next =>
      have hsegments : (View.root setting.document).pointer.segments = [Pointer.root] :=
        Pointer.segments_root
      exact ⟨⟨setting.rootName, none⟩, by rw [Naming.ofPointer, hsegments]; rfl⟩
  obtain ⟨label, hlabel⟩ := hroot
  exact ⟨label, by rw [title, hlabel]; rfl⟩

theorem convertText_culprit {text path : String} {options : Options} {document : Json.Node}
    (hread : Json.read text = .ok document) :
    (∃ outcome, convertText text path options = .ok outcome) ∨
      ∃ failure, convertText text path options = .error (.refused failure) ∧
        Culprit ⟨document, path, options⟩ failure := by
  simp only [convertText, hread, outcome]
  split
  next failure hfailure =>
    refine .inr ⟨failure, rfl, ?_⟩
    split at hfailure
    next found context hrun =>
      obtain rfl := Except.error.inj hfailure
      exact analyze_culprit (by rw [hrun])
    next converted context hrun =>
      obtain ⟨label, hlabel⟩ := title_eq_ok ⟨document, path, options⟩
      simp only [hlabel] at hfailure
      exact absurd hfailure nofun
  next outcome _ => exact .inl ⟨outcome, rfl⟩

/-- If neither tuples nor cycles are strict, a text that is read is converted, unless a schema
whose type is asked for has a single type that is no scalar, or a pointer is looked up in which
what is taken for an index cannot be read as one. The second is never the pointer of a schema
if keys are not repeated, in a document that has no more values than an index can count. -/
theorem convertText_lenient {text path : String} {options : Options} {document : Json.Node}
    (hread : Json.read text = .ok document) (htuples : options.strictTupleItems = false)
    (hcycles : options.strictReferenceCycles = false) :
    ((∃ outcome, convertText text path options = .ok outcome) ∨
      (∃ view type, Inspected ⟨document, path, options⟩ view ∧ view.type? = some (.one type) ∧
        type.scalar? = none ∧
        convertText text path options = .error (.refused (.notScalar type.pointer))) ∨
      ∃ pointer segment fault, LookedUp ⟨document, path, options⟩ pointer ∧
        segment ∈ pointer.segments ∧ Text.isNumber segment = true ∧
        Text.readInteger segment.chars = .error fault ∧
        resolve document pointer = .error (.badIndex segment fault) ∧
        convertText text path options = .error (.refused (.badIndex segment fault))) ∧
    (DistinctKeys document → document.size ≤ 10 ^ Text.digitLimit →
      ∀ view, Met ⟨document, path, options⟩ view →
        resolve document view.pointer = .ok (some view)) := by
  constructor
  · rcases convertText_culprit hread with houtcome | ⟨failure, hfailure, hculprit⟩
    · exact .inl houtcome
    · right
      cases hculprit with
      | type hview htype =>
          obtain ⟨type, htype, hscalar, rfl⟩ := htype
          exact .inl ⟨_, type, hview, htype, hscalar, hfailure⟩
      | @pointer pointer _ hpointer hresolve =>
          cases failsOnly_resolve document pointer _ hresolve with
          | intro hmem hnumber hfault =>
              exact .inr ⟨pointer, _, _, hpointer, hmem, hnumber, hfault, hresolve, hfailure⟩
      | tupleItems _ _ hstrict => exact absurd (htuples.symm.trans hstrict) nofun
      | circularReference _ _ hstrict => exact absurd (hcycles.symm.trans hstrict) nofun
  · intro hdistinct hsize view hview
    obtain ⟨path, hsegments, hleads⟩ := hview.placed hdistinct (.root document)
    have hfollow := hleads.follow_eq hsize
    simp only [resolve, hsegments, if_true, hfollow]
    rfl

namespace ObjectAsType

/-- A schema with an object where a name of a type is expected. -/
def text : String :=
  "\x7b\"type\":\x7b\x7d\x7d"

def tree : Json.Node :=
  .object (.inFirstLine 0 11)
    [⟨⟨"type", "\"type\"", .inFirstLine 1 7⟩, .object (.inFirstLine 8 10) []⟩]

theorem read_text : Json.read text = .ok tree := by
  cbv

def lenient : Options :=
  { strictTupleItems := false }

theorem convertText_refused :
    convertText text "" lenient = .error (.refused (.notScalar "#/type")) := by
  have hanalyze : (analyze ⟨tree, "", lenient⟩).1 = .error (.notScalar "#/type") := by
    decide +kernel
  have houtcome : (outcome ⟨tree, "", lenient⟩).1 = .error (.notScalar "#/type") := by
    unfold outcome
    split
    next hrun => simpa [hrun] using hanalyze
    next hrun => simp [hrun] at hanalyze
  simp only [convertText, read_text, houtcome]

/-- Though nothing is strict, the text is not converted. -/
theorem not_converts_objectAsType :
    Json.read text = .ok tree ∧ lenient.strictTupleItems = false ∧
      lenient.strictReferenceCycles = false ∧
      ¬ ∃ outcome, convertText text "" lenient = .ok outcome := by
  refine ⟨read_text, rfl, rfl, ?_⟩
  rintro ⟨outcome, hconverted⟩
  exact absurd (hconverted.symm.trans convertText_refused) nofun

/-- The culprit is the type of a schema. -/
theorem convertText_lenient_objectAsType :
    Json.read text = .ok tree ∧ lenient.strictTupleItems = false ∧
      lenient.strictReferenceCycles = false ∧
      ∃ view type, Inspected ⟨tree, "", lenient⟩ view ∧ view.type? = some (.one type) ∧
        type.scalar? = none ∧
        convertText text "" lenient = .error (.refused (.notScalar type.pointer)) := by
  refine ⟨read_text, rfl, rfl, ?_⟩
  have hlenient := @convertText_lenient text "" lenient tree read_text rfl rfl
  rcases hlenient.1 with houtcome | htype | hpointer
  · obtain ⟨outcome, hconverted⟩ := houtcome
    exact absurd (hconverted.symm.trans convertText_refused) nofun
  · exact htype
  · obtain ⟨_, _, _, -, -, -, -, -, hfailure⟩ := hpointer
    exact absurd (hfailure.symm.trans convertText_refused) nofun

end ObjectAsType

end Schemata.Analysis
