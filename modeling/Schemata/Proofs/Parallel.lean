import Schemata.Proofs.Descent
import Schemata.Proofs.Results

/-!
# Conversions side by side

Which problems stop a conversion and which are reported is set by flags. Two settings that
differ in nothing else convert a document in the same steps, up to where one of them
refuses a schema or leaves out a report. Whatever relates two such runs, or holds of one
of them, is shown here once for each kind of step.
-/

namespace Schemata.Analysis

open Schema Source

/-- What stops a conversion, and what is reported. -/
structure Flags where
  strictTupleItems : Bool
  strictReferenceCycles : Bool
  reportDuplicateNames : Bool
  reportUnsupportedFeatures : Bool

namespace Setting

def flags (setting : Setting) : Flags where
  strictTupleItems := setting.options.strictTupleItems
  strictReferenceCycles := setting.options.strictReferenceCycles
  reportDuplicateNames := setting.options.reportDuplicateNames
  reportUnsupportedFeatures := setting.options.reportUnsupportedFeatures

/-- The setting with other flags. -/
def flagged (setting : Setting) (flags : Flags) : Setting :=
  { setting with
    options := { setting.options with
      strictTupleItems := flags.strictTupleItems
      strictReferenceCycles := flags.strictReferenceCycles
      reportDuplicateNames := flags.reportDuplicateNames
      reportUnsupportedFeatures := flags.reportUnsupportedFeatures } }

end Setting

/-- The flag that decides about a problem. -/
inductive Flag
  | strictTupleItems
  | strictReferenceCycles
  | reportDuplicateNames
  | reportUnsupportedFeatures

/-- The flag that decides whether a problem is recorded. Others always are. -/
def flag? : Problem → Option Flag
  | .tupleItems => some .strictTupleItems
  | .circularReference _ => some .strictReferenceCycles
  | .duplicateName _ _ _ => some .reportDuplicateNames
  | .anyOf | .typeList | .enumValues => some .reportUnsupportedFeatures
  | _ => none

/-! ### Refusals -/

/-- What a schema may be refused for. -/
inductive Refusal
  | tupleItems (view : View)
  | circularReference (view reference : View)

namespace Refusal

/-- Whether the schema is refused. -/
def strict (options : Options) : Refusal → Bool
  | tupleItems _ => options.strictTupleItems
  | circularReference _ _ => options.strictReferenceCycles

def event : Refusal → Event
  | tupleItems view => .tupleItems view.pointer
  | circularReference view reference =>
      .circularReference (referenceText reference) view.pointer

def failure : Refusal → Failure
  | tupleItems view => .tupleItems view.pointer
  | circularReference view reference =>
      .circularReference (referenceText reference) view.pointer

/-- What is recorded of a schema that is not refused. -/
def problem : Refusal → Problem
  | tupleItems _ => .tupleItems
  | circularReference _ reference => .circularReference (referenceText reference)

def range : Refusal → Option LocationCode
  | tupleItems view => view.memberCode? "items"
  | circularReference _ reference => some reference.code

def violation (setting : Setting) (refusal : Refusal) : Violation :=
  refusal.problem.violation refusal.range setting.sourcePath

/-- Refuse a schema, or record the problem and return a value instead. -/
def act {α : Type} (setting : Setting) (refusal : Refusal) (value : α) : Action α :=
  if refusal.strict setting.options then do
    Action.note refusal.event
    throw refusal.failure
  else do
    Action.report setting refusal.problem refusal.range
    return value

/-- The refusal is one of a schema that is met. -/
def Arises (met : View → Prop) : Refusal → Prop
  | tupleItems view => met view ∧ ∃ items, view.items? = some (.many items)
  | circularReference view reference => met view ∧ view.reference? = some reference

end Refusal

/-- The action returns the value from some state. -/
def Action.MayReturn {α : Type} (action : Action α) (value : α) : Prop :=
  ∃ before after, action.Returns before value after

theorem Action.MayReturn.lift {α : Type} {result : Except Failure α} {value : α}
    (h : Action.MayReturn (liftM result) value) : result = .ok value := by
  obtain ⟨before, after, hreturns⟩ := h
  cases result with
  | ok found => exact congrArg Except.ok (Except.ok.inj (congrArg Prod.fst hreturns))
  | error => exact absurd (congrArg Prod.fst hreturns) nofun

/-- Visit what is behind a pointer before going on, unless that is skipped or was done. -/
def Action.unlessVisited {α β : Type} (skipped : Bool) (pointer : Pointer) (visit : Action β)
    (rest : Action α) : Action α := do
  if skipped || pointer ∈ (← get).visited then
    rest
  else
    modify (·.visit pointer)
    let _ ← visit
    rest

/-- Two actions take the same steps under two settings that differ in their flags. Schemas
that are met are converted by converters that are given for each. -/
inductive Parallel (setting : Setting) (flags : Flags) (convert other : Converter)
    (met : View → Prop) : {α : Type} → Action α → Action α → Prop
  | pure {α : Type} (value : α) :
      Parallel setting flags convert other met (Pure.pure value) (Pure.pure value)
  | lift {α : Type} (result : Except Failure α) :
      Parallel setting flags convert other met (liftM result) (liftM result)
  | bind {α β : Type} {action twin : Action β} {next twinNext : β → Action α}
      (haction : Parallel setting flags convert other met action twin)
      (hnext : ∀ value, action.MayReturn value →
        Parallel setting flags convert other met (next value) (twinNext value)) :
      Parallel setting flags convert other met (action >>= next) (twin >>= twinNext)
  | ask {α : Type} {next twinNext : Context → Action α}
      (hnext : ∀ state, Parallel setting flags convert other met (next state) (twinNext state))
      (hsame : ∀ state later : Context, later.chain = state.chain →
        next later = next state ∧ twinNext later = twinNext state) :
      Parallel setting flags convert other met (get >>= next) (get >>= twinNext)
  | note (event : Event) :
      Parallel setting flags convert other met (Action.note event) (Action.note event)
  | unlessVisited {α : Type} {skipped : Bool} {view : View} {loc : Option LocationCode}
      {rest twinRest : Action α} (hview : skipped = false → met view)
      (hrest : Parallel setting flags convert other met rest twinRest) :
      Parallel setting flags convert other met
        (Action.unlessVisited skipped view.pointer (convert view loc) rest)
        (Action.unlessVisited skipped view.pointer (other view loc) twinRest)
  | within {α : Type} (pointer : Pointer) {action twin : Action α}
      (haction : Parallel setting flags convert other met action twin) :
      Parallel setting flags convert other met (Action.within pointer action)
        (Action.within pointer twin)
  | call {view : View} {loc : Option LocationCode} (hview : met view) :
      Parallel setting flags convert other met (convert view loc) (other view loc)
  | report {problem : Problem} {range : Option LocationCode} (hproblem : flag? problem = none) :
      Parallel setting flags convert other met (Action.report setting problem range)
        (Action.report (setting.flagged flags) problem range)
  | offer {α : Type} {problem : Problem} {range : Option LocationCode} {action twin : Action α}
      (hproblem : flag? problem = some .reportUnsupportedFeatures)
      (haction : Parallel setting flags convert other met action twin) :
      Parallel setting flags convert other met
        (if setting.options.reportUnsupportedFeatures then do
          Action.report setting problem range
          action
        else action)
        (if flags.reportUnsupportedFeatures then do
          Action.report (setting.flagged flags) problem range
          twin
        else twin)
  | refuse {α : Type} (refusal : Refusal) (hrefusal : refusal.Arises met) (value : α) :
      Parallel setting flags convert other met (refusal.act setting value)
        (refusal.act (setting.flagged flags) value)
  | typeEntry {origin : Origin} {shape : Shape} {view : View} {loc : Option LocationCode}
      (hview : met view) (hshape : view.conversionShape = .ok shape)
      (hkind : shape = .object ∨ shape = .intersection)
      (hbody : Parallel setting flags convert other met (typeBody setting convert view shape)
        (typeBody (setting.flagged flags) other view shape)) :
      Parallel setting flags convert other met
        (typeEntry setting origin (typeBody setting convert view shape) view loc)
        (typeEntry (setting.flagged flags) origin
          (typeBody (setting.flagged flags) other view shape) view loc)
  | enumEntry {members : List View} {view : View} {loc : Option LocationCode} (hview : met view) :
      Parallel setting flags convert other met (stringEnum setting view members loc)
        (stringEnum (setting.flagged flags) view members loc)
  | unionEntry {view : View} {loc : Option LocationCode} (hview : met view)
      (hshape : view.conversionShape = .ok .union)
      (hbody : Parallel setting flags convert other met (unionBody setting convert view)
        (unionBody (setting.flagged flags) other view)) :
      Parallel setting flags convert other met (union setting convert view loc)
        (union (setting.flagged flags) other view loc)

section Steps

variable {setting : Setting} {flags : Flags} {convert other : Converter} {met : View → Prop}
  {view : View} {loc : Option LocationCode}

theorem parallel_primitive :
    Parallel setting flags convert other met (primitive setting view loc)
      (primitive (setting.flagged flags) view loc) := by
  unfold primitive
  split
  · exact .pure _
  · exact .bind (.lift _) fun _ _ => .bind (.lift _) fun _ _ => .pure _

theorem parallel_placeholder {key : Str} {problem : Problem}
    (hproblem : flag? problem = some .reportUnsupportedFeatures) :
    Parallel setting flags convert other met (placeholder setting view key problem)
      (placeholder (setting.flagged flags) view key problem) :=
  .offer hproblem (.pure _)

theorem parallel_dereference (reference : View) :
    Parallel setting flags convert other met (dereference setting reference)
      (dereference (setting.flagged flags) reference) := by
  rw [dereference_eq, dereference_eq]
  refine .bind (.lift _) fun found _ => ?_
  split
  · exact .bind (.report rfl) fun _ _ => .pure _
  · exact .pure _

theorem parallel_standIn (member : View) :
    Parallel setting flags convert other met (standIn setting member)
      (standIn (setting.flagged flags) member) := by
  unfold standIn
  split
  · exact parallel_dereference _
  · exact .pure _

/-- A reference that leads somewhere leads to the target of its schema. -/
theorem refersTo_of_mayReturn {reference target : View}
    (hreference : view.reference? = some reference)
    (h : (dereference setting reference).MayReturn (some target)) :
    RefersTo setting view target := by
  obtain ⟨before, after, hreturns⟩ := h
  have hgives : Gives before (dereference setting reference) _ := gives_dereference hreference
  exact ((hgives.of_returns hreturns).1 target).mp rfl

theorem standsFor_of_mayReturn {member part : View}
    (h : (standIn setting member).MayReturn (some part)) : StandsFor setting member part := by
  obtain ⟨before, after, hreturns⟩ := h
  have hgives : Gives before (standIn setting member) _ := gives_standIn member
  exact ((hgives.of_returns hreturns).1 part).mp rfl

theorem takesOver_of_mayReturn {parts : List View}
    (hshape : view.conversionShape = .ok .intersection)
    (h : (intersectionParts setting (view.allOf?.getD [])).MayReturn parts) :
    ∀ part ∈ parts, TakesOver setting view part := by
  obtain ⟨before, after, hreturns⟩ := h
  have hfollows : Follows setting (Analysis.convert setting) view none (some ⟨"", none⟩) before
      (intersectionParts setting (view.allOf?.getD [])) _ :=
    follows_intersectionParts hshape fun _ hmember => hmember
  exact (hfollows.of_returns hreturns).2

theorem parallel_intersectionParts (members : List View) :
    Parallel setting flags convert other met (intersectionParts setting members)
      (intersectionParts (setting.flagged flags) members) := by
  induction members with
  | nil => exact .pure _
  | cons member rest ih =>
      rw [intersectionParts_cons, intersectionParts_cons]
      exact .bind (parallel_standIn member) fun _ _ =>
        .bind (.lift _) fun _ _ => .bind ih fun _ _ => .pure _

theorem parallel_keep (fits : ValueType → Bool) {problem : Problem}
    (hproblem : flag? problem = none) (found : List Alternative) :
    Parallel setting flags convert other met (keep setting fits problem found)
      (keep (setting.flagged flags) fits problem found) := by
  induction found with
  | nil => exact .pure _
  | cons alternative rest ih =>
      unfold keep
      split
      · exact .bind ih fun _ _ => .pure _
      · exact .bind (.report hproblem) fun _ _ => ih

section Calls

/-! ### Calls -/

theorem parallel_property {entry : Schema.Entry} (hentry : met entry.view) :
    Parallel setting flags convert other met (property setting convert entry)
      (property (setting.flagged flags) other entry) :=
  .bind (.call hentry) fun _ _ => .bind (.lift _) fun _ _ => .bind (.lift _) fun _ _ => .pure _

theorem parallel_propertyList {entries : List Schema.Entry}
    (hentries : ∀ entry ∈ entries, met entry.view) :
    Parallel setting flags convert other met (propertyList setting convert entries)
      (propertyList (setting.flagged flags) other entries) := by
  induction entries with
  | nil => exact .pure _
  | cons entry rest ih =>
      have hrest := ih fun later hlater => hentries later (List.mem_cons_of_mem entry hlater)
      exact .bind (parallel_property (hentries entry List.mem_cons_self)) fun _ _ =>
        .bind hrest fun _ _ => .pure _

theorem parallel_mergedProperties (merged : List Property) {parts : List View}
    (hparts : ∀ part ∈ parts, ∀ entry ∈ propertyEntries part, met entry.view) :
    Parallel setting flags convert other met (mergedProperties setting convert merged parts)
      (mergedProperties (setting.flagged flags) other merged parts) := by
  induction parts generalizing merged with
  | nil => exact .pure _
  | cons part rest ih =>
      refine .bind (parallel_propertyList (hparts part List.mem_cons_self)) fun _ _ => ih _ ?_
      exact fun later hlater => hparts later (List.mem_cons_of_mem part hlater)

theorem parallel_alternatives {members : List View} (hmembers : ∀ member ∈ members, met member) :
    Parallel setting flags convert other met (alternatives convert members)
      (alternatives other members) := by
  induction members with
  | nil => exact .pure _
  | cons member rest ih =>
      have hrest := ih fun later hlater => hmembers later (List.mem_cons_of_mem member hlater)
      exact .bind (.call (hmembers member List.mem_cons_self)) fun _ _ =>
        .bind hrest fun _ _ => .pure _

variable (hclosed : ∀ view called, met view → CallsFor setting view called → met called)
  (hview : met view)

include hclosed hview

theorem parallel_objectBody (hshape : view.conversionShape = .ok .object) :
    Parallel setting flags convert other met (objectBody setting convert view)
      (objectBody (setting.flagged flags) other view) := by
  have hentries : ∀ entry ∈ propertyEntries view, met entry.view := fun _ hentry =>
    hclosed _ _ hview (.own (.part (.property hshape hentry)))
  exact .bind (parallel_propertyList hentries) fun _ _ => .bind (.lift _) fun _ _ => .pure _

theorem parallel_intersectionBody (hshape : view.conversionShape = .ok .intersection) :
    Parallel setting flags convert other met (intersectionBody setting convert view)
      (intersectionBody (setting.flagged flags) other view) := by
  refine .bind (parallel_intersectionParts _) fun parts hparts => ?_
  have htaken := takesOver_of_mayReturn hshape hparts
  have hentries : ∀ part ∈ parts, ∀ entry ∈ propertyEntries part, met entry.view :=
    fun part hpart _ hentry =>
      hclosed _ _ hview (.own (.part (.inherited hshape (htaken part hpart) hentry)))
  exact .bind (parallel_mergedProperties [] hentries) fun _ _ =>
    .bind (.lift _) fun _ _ => .pure _

theorem parallel_unionBody (hshape : view.conversionShape = .ok .union) :
    Parallel setting flags convert other met (unionBody setting convert view)
      (unionBody (setting.flagged flags) other view) := by
  have hmembers : ∀ member ∈ view.oneOf?.getD [], met member := fun _ hmember =>
    hclosed _ _ hview (.own (.part (.member hshape hmember)))
  refine .bind (parallel_alternatives hmembers) fun found _ => ?_
  have hkeep : ∀ fits problem (kind : UnionKind) discriminator, flag? problem = none →
      Parallel setting flags convert other met
        (do
          let kept ← keep setting fits problem found
          return ⟨kind, kept, discriminator⟩ : Action UnionBody)
        (do
          let kept ← keep (setting.flagged flags) fits problem found
          return ⟨kind, kept, discriminator⟩) :=
    fun fits problem kind discriminator hproblem =>
      .bind (parallel_keep fits hproblem found) fun _ _ => .pure _
  split
  · split
    · exact .bind (.report rfl) fun _ _ => hkeep _ _ _ _ rfl
    · exact hkeep _ _ _ _ rfl
  · exact .pure _
  · exact hkeep _ _ _ _ rfl

theorem parallel_array (hshape : view.conversionShape = .ok .array) :
    Parallel setting flags convert other met (array setting convert view)
      (array (setting.flagged flags) other view) := by
  unfold array
  split
  next => exact .pure _
  next item hitem =>
    have hmet : met item := hclosed _ _ hview (.own (.item ⟨hshape, hitem⟩))
    exact .bind (.call hmet) fun _ _ => .pure _
  next items hitems => exact .refuse (.tupleItems view) ⟨hview, items, hitems⟩ _

theorem parallel_follow {reference : View} (hreference : view.reference? = some reference) :
    Parallel setting flags convert other met (follow setting convert view reference loc)
      (follow (setting.flagged flags) other view reference loc) := by
  rw [follow_eq, follow_eq]
  refine .bind (parallel_dereference reference) fun found hfound => ?_
  cases found with
  | none => exact .pure _
  | some target =>
      have htarget := refersTo_of_mayReturn hreference hfound
      have hmet : met target := hclosed _ _ hview (.own (.target htarget))
      have hgo : Parallel setting flags convert other met (convertTarget convert view loc target)
          (convertTarget other view loc target) :=
        .bind (.call hmet) fun _ _ => .pure _
      refine .ask (fun state => ?_) fun state later hchain => by rw [hchain]; exact ⟨rfl, rfl⟩
      split
      · refine .bind (.lift _) fun shape _ => ?_
        cases shape.isNamed with
        | true => exact hgo
        | false => exact .refuse (.circularReference view reference) ⟨hview, hreference⟩ _
      · exact hgo

theorem parallel_object (hshape : view.conversionShape = .ok .object) :
    Parallel setting flags convert other met (object setting convert view loc)
      (object (setting.flagged flags) other view loc) := by
  have hbody : Parallel setting flags convert other met (typeBody setting convert view .object)
      (typeBody (setting.flagged flags) other view .object) :=
    parallel_objectBody hclosed hview hshape
  have hentry : ∀ setting convert, object setting convert view loc =
      typeEntry setting .object (typeBody setting convert view .object) view loc :=
    fun _ _ => rfl
  rw [hentry, hentry]
  exact .typeEntry hview hshape (.inl rfl) hbody

theorem parallel_intersection (hshape : view.conversionShape = .ok .intersection) :
    Parallel setting flags convert other met (intersection setting convert view loc)
      (intersection (setting.flagged flags) other view loc) := by
  have hbody : Parallel setting flags convert other met
      (typeBody setting convert view .intersection)
      (typeBody (setting.flagged flags) other view .intersection) :=
    parallel_intersectionBody hclosed hview hshape
  have hentry : ∀ setting convert, intersection setting convert view loc =
      typeEntry setting .intersection (typeBody setting convert view .intersection) view loc :=
    fun _ _ => rfl
  rw [hentry, hentry]
  exact .typeEntry hview hshape (.inr rfl) hbody

theorem parallel_enumeration (hshape : view.shape = .ok .enumeration) :
    Parallel setting flags convert other met (enumeration setting convert view loc)
      (enumeration (setting.flagged flags) other view loc) := by
  refine .bind (.lift _) fun isString hstring => ?_
  cases isString with
  | true => exact .enumEntry hview
  | false =>
      have hconversion := conversionShape_of_otherEnum hshape hstring.lift
      refine .offer rfl (.bind (.lift _) fun shape htype => ?_)
      rw [htype.lift] at hconversion
      cases shape with
      | object => exact parallel_object hclosed hview hconversion
      | array => exact parallel_array hclosed hview hconversion
      | _ => exact parallel_primitive

theorem parallel_byShape {shape : Shape} (hshape : view.shape = .ok shape) :
    Parallel setting flags convert other met (byShape setting convert view loc shape)
      (byShape (setting.flagged flags) other view loc shape) := by
  have hconversion := conversionShape_of_shape hshape
  cases shape with
  | intersection => exact parallel_intersection hclosed hview (hconversion nofun)
  | union =>
      have hunion := hconversion nofun
      exact .unionEntry hview hunion (parallel_unionBody hclosed hview hunion)
  | enumeration => exact parallel_enumeration hclosed hview hshape
  | object => exact parallel_object hclosed hview (hconversion nofun)
  | array => exact parallel_array hclosed hview (hconversion nofun)
  | anyOf | typeList => exact parallel_placeholder rfl
  | reference | primitive => exact parallel_primitive

theorem parallel_dispatch :
    Parallel setting flags convert other met (dispatch setting convert view loc)
      (dispatch (setting.flagged flags) other view loc) := by
  refine .bind (.lift _) fun shape hshape => .bind (.note _) fun _ _ => ?_
  split
  next reference hreference => exact parallel_follow hclosed hview hreference
  next => exact .bind (parallel_byShape hclosed hview hshape.lift) fun _ _ => .pure _

theorem parallel_visitDefinitions {entries : List Schema.Entry}
    (hentries : ∀ entry ∈ entries, entry ∈ definitionEntries view) :
    Parallel setting flags convert other met (visitDefinitions setting convert entries)
      (visitDefinitions (setting.flagged flags) other entries) := by
  induction entries with
  | nil => exact .pure _
  | cons entry rest ih =>
      have hrest := ih fun later hlater => hentries later (List.mem_cons_of_mem entry hlater)
      refine .unlessVisited (fun hwanted => ?_) hrest
      have hdefinition : Defines setting view entry.view :=
        ⟨entry, hentries entry List.mem_cons_self, of_decide_eq_false hwanted, rfl⟩
      exact hclosed _ _ hview (.definition hdefinition)

/-- Whatever the flags are, a step of a conversion consists of the same steps. -/
theorem parallel_step :
    Parallel setting flags convert other met (step setting convert view loc)
      (step (setting.flagged flags) other view loc) :=
  .bind (parallel_visitDefinitions hclosed hview fun _ hentry => hentry) fun _ _ =>
    .within _ (parallel_dispatch hclosed hview)

end Calls

end Steps

end Schemata.Analysis
