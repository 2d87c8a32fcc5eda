import Schemata.Proofs.Action
import Schemata.Proofs.Shallow
import Schemata.Proofs.Steps

/-!
# The course of a conversion

What the conversion of one schema may do to the state once its definitions are
visited, told as a sequence of small changes, each with the reason it is made for.
Every run follows such a course, also one that fails, so that whatever the changes
keep is kept by all conversions.

A named schema that is declared for the first time opens an entry, converts its parts
and completes the entry. Only then are parts converted.
-/

namespace Schemata.Analysis

open Schema Source

/-- Why the conversion of a schema may record a problem in a state, at a range. A label is the
name of an entry that is open: members of intersections are looked up while there is one. -/
inductive Reports (setting : Setting) (view : View) (opened : Option Label) (context : Context) :
    Problem → Option LocationCode → Prop
  | unresolved {holder reference : View}
      (hholder : holder = view ∨ opened ≠ none ∧
        view.conversionShape = .ok .intersection ∧ holder ∈ view.allOf?.getD [])
      (hreference : holder.reference? = some reference)
      (hnowhere : ∀ target, ¬ RefersTo setting holder target) :
      Reports setting view opened context (.unresolvedReference (referenceText reference))
        (some reference.code)
  | circular {reference target : View} {shape : Shape}
      (hreference : view.reference? = some reference) (htarget : RefersTo setting view target)
      (hchain : target.pointer ∈ context.chain) (hshape : target.conversionShape = .ok shape)
      (hunnamed : shape.isNamed = false) (hlax : setting.options.strictReferenceCycles = false) :
      Reports setting view opened context (.circularReference (referenceText reference))
        (some reference.code)
  | taken {name : Label} {owner : Entry} {shape : Shape}
      (hshape : view.conversionShape = .ok shape) (hnamed : shape.isNamed = true)
      (hname : setting.naming.infer view = .ok (some name))
      (howner : context.lookup name.value = some owner) (hother : owner.source ≠ view.pointer)
      (hset : setting.options.reportDuplicateNames = true) :
      Reports setting view opened context (.duplicateName name.value view.pointer owner.source)
        (name.loc.or ((view.memberCode? "title").or view.code))
  | tupleItems {items : List View} (hshape : view.conversionShape = .ok .array)
      (hitems : view.items? = some (.many items))
      (hlax : setting.options.strictTupleItems = false) :
      Reports setting view opened context .tupleItems (view.memberCode? "items")
  | anyOf (hshape : view.conversionShape = .ok .anyOf)
      (hset : setting.options.reportUnsupportedFeatures = true) :
      Reports setting view opened context .anyOf (view.memberCode? "anyOf")
  | typeList (hshape : view.conversionShape = .ok .typeList)
      (hset : setting.options.reportUnsupportedFeatures = true) :
      Reports setting view opened context .typeList (view.memberCode? "type")
  | enumValues (hshape : view.shape = .ok .enumeration)
      (hstring : view.isStringEnum = .ok false)
      (hset : setting.options.reportUnsupportedFeatures = true) :
      Reports setting view opened context .enumValues (view.memberCode? "enum")
  | mapping {mapping : View} (hshape : view.conversionShape = .ok .union)
      (hmapping : view.discriminator?.bind (·.child? "mapping") = some mapping) :
      Reports setting view opened context .discriminatorMapping (some mapping.code)
  | excluded {member : View} {problem : Problem} (hshape : view.conversionShape = .ok .union)
      (hmember : member ∈ view.oneOf?.getD [])
      (hproblem : problem = .primitiveDiscriminated ∨ problem = .mixedUnion) :
      Reports setting view opened context problem (some member.code)

/-- The conversion of a schema calls for that of another one, for entries made at a
range. The parts of a schema are called for while its entry is open under its name. -/
inductive Calls (setting : Setting) (view : View) (loc : Option LocationCode) :
    Option Label → Context → View → Option LocationCode → Prop
  | target {context : Context} {target : View} (htarget : RefersTo setting view target)
      (hfree : target.pointer ∈ context.chain → Named target) :
      Calls setting view loc none context target loc
  | item {context : Context} {item : View} (hitem : ListsItem view item) :
      Calls setting view loc none context item (some item.code)
  | part {context : Context} {part : View} {code : LocationCode} {name : Label}
      (hpart : HasPart setting view part code) :
      Calls setting view loc (some name) context part (some code)

/-- A schema may become an entry of a name that no entry has. -/
def Declares (setting : Setting) (view : View) (context : Context) (name : Label) : Prop :=
  setting.naming.infer view = .ok (some name) ∧ context.lookup name.value = none

variable (setting : Setting) (convert : Converter) (view : View) (loc : Option LocationCode)

/-- The body of an object type, by the shape of its schema. -/
def typeBody : Shape → Action TypeBody
  | .intersection => intersectionBody setting convert view
  | _ => objectBody setting convert view

/-- The course of the conversion of a schema, in which all calls may have to return. A
label is the name of an entry that is open. -/
inductive Course (returning : Bool) : Option Label → Context → Context → Prop
  | done {opened : Option Label} {context : Context} : Course returning opened context context
  | andThen {opened : Option Label} {before middle after : Context}
      (hfirst : Course returning opened before middle)
      (hsecond : Course returning opened middle after) :
      Course returning opened before after
  | note {opened : Option Label} {context : Context} {event : Event}
      (hevent : ∀ pointer shape, event ≠ .parsing pointer shape) :
      Course returning opened context (context.note event)
  | report {opened : Option Label} {context : Context} {problem : Problem}
      {range : Option LocationCode} (hreport : Reports setting view opened context problem range) :
      Course returning opened context (context.record (problem.violation range setting.sourcePath))
  | convert {opened : Option Label} {before after : Context} {called : View}
      {calledLoc : Option LocationCode}
      (hcall : Calls setting view loc opened before called calledLoc)
      (hcalled : (convert called calledLoc).Leads returning before after) :
      Course returning opened before after
  | enumEntry {context : Context} {name : Label} (hname : Declares setting view context name)
      (hshape : view.conversionShape = .ok .enumeration) :
      Course returning none context (context.addEnum (newEnum view (view.enum?.getD []) name loc))
  | typeOpened {before after : Context} {name : Label} {shape : Shape}
      (hname : Declares setting view before name) (hshape : view.conversionShape = .ok shape)
      (hkind : shape = .object ∨ shape = .intersection)
      (hcourse : Course returning (some name) (before.addType (newType view name loc)) after) :
      Course returning none before after
  | typeEntry {before start after : Context} {name : Label} {shape : Shape} {body : TypeBody}
      (hname : Declares setting view before name) (hshape : view.conversionShape = .ok shape)
      (hkind : shape = .object ∨ shape = .intersection)
      (hstart : Course returning (some name) (before.addType (newType view name loc)) start)
      (hbody : (typeBody setting convert view shape).Returns start body after)
      (hcourse : Course returning (some name) start after) :
      Course returning none before (after.completeType name.value body.1 body.2)
  | unionOpened {before after : Context} {name : Label}
      (hname : Declares setting view before name) (hshape : view.conversionShape = .ok .union)
      (hcourse : Course returning (some name) (before.addUnion (newUnion view name loc)) after) :
      Course returning none before after
  | unionEntry {before start after : Context} {name : Label} {body : UnionBody}
      (hname : Declares setting view before name) (hshape : view.conversionShape = .ok .union)
      (hstart : Course returning (some name) (before.addUnion (newUnion view name loc)) start)
      (hbody : (unionBody setting convert view).Returns start body after)
      (hcourse : Course returning (some name) start after) :
      Course returning none before
        (after.completeUnion name.value body.kind body.members body.discriminator)

/-- Some call in the course of a conversion fails because its descent is too deep. -/
inductive Exhausts : Option Label → Context → Prop
  | call {opened : Option Label} {context : Context} {called : View}
      {calledLoc : Option LocationCode}
      (hcall : Calls setting view loc opened context called calledLoc)
      (hdeep : ((convert called calledLoc).run.run context).1 = .error .tooDeep) :
      Exhausts opened context
  | later {opened : Option Label} {before middle : Context}
      (hcourse : Course setting convert view loc false opened before middle)
      (hrest : Exhausts opened middle) : Exhausts opened before
  | typePart {context : Context} {name : Label} (hname : Declares setting view context name)
      (hpart : Exhausts (some name) (context.addType (newType view name loc))) :
      Exhausts none context
  | unionPart {context : Context} {name : Label} (hname : Declares setting view context name)
      (hpart : Exhausts (some name) (context.addUnion (newUnion view name loc))) :
      Exhausts none context

/-- From `before`, an action returns with `returned` after a course of the conversion in
which all calls return, or fails after some course. -/
def Follows {α : Type} (opened : Option Label) (before : Context) (action : Action α)
    (returned : α → Context → Prop) : Prop :=
  action.Ensures before
    (fun value after => Course setting convert view loc true opened before after ∧
      returned value after)
    fun failure after => Course setting convert view loc false opened before after ∧
      (failure = .tooDeep → Exhausts setting convert view loc opened before)

/-- Calls that return may be taken as calls that need not. -/
theorem Course.any {setting : Setting} {convert : Converter} {view : View}
    {loc : Option LocationCode} {opened : Option Label} {before after : Context}
    (h : Course setting convert view loc true opened before after) :
    Course setting convert view loc false opened before after := by
  induction h with
  | done => exact .done
  | andThen _ _ ihFirst ihSecond => exact .andThen ihFirst ihSecond
  | note hevent => exact .note hevent
  | report hreport => exact .report hreport
  | convert hcall hcalled => exact .convert hcall ⟨hcalled.1, nofun⟩
  | enumEntry hname hshape => exact .enumEntry hname hshape
  | typeOpened hname hshape hkind _ ih => exact .typeOpened hname hshape hkind ih
  | typeEntry hname hshape hkind _ hbody _ ihStart ih =>
      exact .typeEntry hname hshape hkind ihStart hbody ih
  | unionOpened hname hshape _ ih => exact .unionOpened hname hshape ih
  | unionEntry hname hshape _ hbody _ ihStart ih =>
      exact .unionEntry hname hshape ihStart hbody ih

namespace Follows

variable {setting convert view loc} {α β : Type} {opened : Option Label} {before : Context}
  {returned : α → Context → Prop}

theorem pure {value : α} (h : returned value before) :
    Follows setting convert view loc opened before (Pure.pure value) returned :=
  ⟨.done, h⟩

theorem throw {failure : Failure} (h : failure ≠ .tooDeep) :
    Follows setting convert view loc opened before (MonadExcept.throw failure) returned :=
  ⟨.done, fun heq => absurd heq h⟩

theorem bind {action : Action β} {next : β → Action α} {between : β → Context → Prop}
    (haction : Follows setting convert view loc opened before action between)
    (hnext : ∀ value middle, between value middle →
      Follows setting convert view loc opened middle (next value) returned) :
    Follows setting convert view loc opened before (action >>= next) returned := by
  rw [Follows, Action.ensures_bind]
  refine haction.imp (fun value middle hmiddle => ?_) fun _ _ h => h
  refine (hnext value middle hmiddle.2).imp (fun _ _ hafter => ?_) fun _ _ hafter => ?_
  · exact ⟨hmiddle.1.andThen hafter.1, hafter.2⟩
  · exact ⟨hmiddle.1.any.andThen hafter.1, fun hdeep => .later hmiddle.1.any (hafter.2 hdeep)⟩

theorem lift {result : Except Failure α} (hshallow : Shallow result) :
    Follows setting convert view loc opened before (liftM result) fun value after =>
      result = .ok value ∧ after = before := by
  rw [Follows, Action.ensures_lift]
  refine ⟨fun value hvalue => ⟨.done, hvalue, rfl⟩, fun failure hfailure => ⟨.done, ?_⟩⟩
  rintro rfl
  exact absurd hfailure hshallow

theorem get : Follows setting convert view loc opened before (MonadState.get : Action Context)
    fun state after => state = before ∧ after = before :=
  ⟨.done, rfl, rfl⟩

theorem update {change : Context → Context}
    (h : Course setting convert view loc true opened before (change before)) :
    Follows setting convert view loc opened before (modify change) fun _ after =>
      after = change before :=
  ⟨h, rfl⟩

theorem imp {action : Action α} {returned' : α → Context → Prop}
    (h : Follows setting convert view loc opened before action returned)
    (himp : ∀ value after, returned value after → returned' value after) :
    Follows setting convert view loc opened before action returned' :=
  Action.Ensures.imp h (fun value after hafter => ⟨hafter.1, himp value after hafter.2⟩)
    fun _ _ hafter => hafter

/-- What an action returns may be recalled as such. -/
theorem recalled {action : Action α}
    (h : Follows setting convert view loc opened before action returned) :
    Follows setting convert view loc opened before action fun value after =>
      returned value after ∧ action.Returns before value after :=
  (Action.Ensures.and h (action.ensures_returns before)).imp
    (fun _ _ hafter => ⟨hafter.1.1, hafter.1.2, hafter.2⟩) fun _ _ hafter => hafter.1

theorem note {event : Event} (hevent : ∀ pointer shape, event ≠ .parsing pointer shape) :
    Follows setting convert view loc opened before (Action.note event) fun _ _ => True :=
  (update (.note hevent)).imp fun _ _ _ => trivial

theorem report {problem : Problem} {range : Option LocationCode}
    (hreport : Reports setting view opened before problem range) :
    Follows setting convert view loc opened before (Action.report setting problem range)
      fun _ _ => True :=
  (update (.report hreport)).imp fun _ _ _ => trivial

/-- A call is made in the course of a conversion, and only it can be too deep. -/
theorem call {called : View} {calledLoc : Option LocationCode}
    (hcall : Calls setting view loc opened before called calledLoc) :
    Follows setting convert view loc opened before (convert called calledLoc)
      ((convert called calledLoc).Returns before) :=
  (Action.ensures_leads (.call hcall)).imp
    (fun _ _ hreturns => ⟨.convert hcall (hreturns.leads true), hreturns⟩)
    fun _ _ hfailed => ⟨.convert hcall hfailed.1, hfailed.2⟩

end Follows

section Steps

variable {setting convert view loc} {opened : Option Label} {before : Context}

theorem shallow_targetOf (reference : View) :
    Shallow (targetOf setting reference) := by
  unfold targetOf
  split
  · exact shallow_resolve _ _
  · exact nofun

theorem follows_dereference {holder reference : View}
    (hholder : holder = view ∨ opened ≠ none ∧
      view.conversionShape = .ok .intersection ∧ holder ∈ view.allOf?.getD [])
    (hreference : holder.reference? = some reference) :
    Follows setting convert view loc opened before (dereference setting reference)
      fun found _ => ∀ target, found = some target → RefersTo setting holder target := by
  rw [dereference_eq]
  refine .bind (.lift (shallow_targetOf reference)) ?_
  rintro found middle ⟨hfound, rfl⟩
  have htarget := eq_some_iff_refersTo hreference hfound
  cases found with
  | some target => exact .pure fun other hother => (htarget other).mp hother
  | none =>
      refine .bind (.report ?_) fun _ _ _ => .pure nofun
      exact .unresolved hholder hreference fun target h => absurd ((htarget target).mpr h) nofun

/-- A member of an intersection stands for what the intersection may take over. -/
theorem follows_standIn {name : Label} {member : View}
    (hshape : view.conversionShape = .ok .intersection)
    (hmember : member ∈ view.allOf?.getD []) :
    Follows setting convert view loc (some name) before (standIn setting member)
      fun found _ => ∀ part, found = some part → StandsFor setting member part := by
  cases hreference : member.reference? with
  | none =>
      rw [standIn_of_none hreference]
      exact .pure fun part hpart => .inl ⟨hreference, (Option.some.inj hpart).symm⟩
  | some reference =>
      rw [standIn_of_reference hreference]
      refine Follows.imp (follows_dereference ?_ hreference) fun found _ hfound part hpart => ?_
      · exact .inr ⟨Option.some_ne_none name, hshape, hmember⟩
      · exact .inr (hfound part hpart)

theorem follows_refuseCircular {reference target : View} {shape : Shape}
    (hreference : view.reference? = some reference) (htarget : RefersTo setting view target)
    (hchain : target.pointer ∈ before.chain) (hshape : target.conversionShape = .ok shape)
    (hunnamed : shape.isNamed = false) :
    Follows setting convert view loc none before (refuseCircular setting view reference)
      fun _ _ => True := by
  unfold refuseCircular
  split
  · exact .bind (.note nofun) fun _ _ _ => .throw nofun
  next hlax =>
    refine .bind (.report ?_) fun _ _ _ => .pure trivial
    exact .circular hreference htarget hchain hshape hunnamed (by simpa using hlax)

theorem follows_follow {reference : View} (hreference : view.reference? = some reference) :
    Follows setting convert view loc none before (follow setting convert view reference loc)
      fun _ _ => True := by
  rw [follow_eq]
  refine .bind (follows_dereference (.inl rfl) hreference) fun found middle htarget => ?_
  cases found with
  | none => exact .pure trivial
  | some target =>
      have htarget := htarget target rfl
      have hgo : (target.pointer ∈ middle.chain → Named target) →
          Follows setting convert view loc none middle (convertTarget convert view loc target)
            fun _ _ => True :=
        fun hfree => .bind (.call (.target htarget hfree)) fun _ _ _ => .pure trivial
      refine .bind .get ?_
      rintro state after ⟨hstate, hafter⟩
      subst state after
      by_cases hchain : target.pointer ∈ middle.chain
      · rw [if_pos hchain]
        refine .bind (.lift (View.shallow_conversionShape target)) ?_
        rintro shape _ ⟨hshape, rfl⟩
        cases hnamed : shape.isNamed with
        | true => exact hgo fun _ => ⟨shape, hshape, hnamed⟩
        | false => exact follows_refuseCircular hreference htarget hchain hshape hnamed
      · rw [if_neg hchain]
        exact hgo fun h => absurd h hchain

theorem follows_property {name : Label} {entry : Schema.Entry}
    (hpart : HasPart setting view entry.view entry.code) :
    Follows setting convert view loc (some name) before (property setting convert entry)
      fun _ _ => True :=
  .bind (.call (.part hpart)) fun _ _ _ =>
    .bind (.lift (shallow_rules _ _)) fun _ _ _ =>
      .bind (.lift (shallow_isRequired _ _)) fun _ _ _ => .pure trivial

theorem follows_propertyList {name : Label} {entries : List Schema.Entry}
    (hparts : ∀ entry ∈ entries, HasPart setting view entry.view entry.code) :
    Follows setting convert view loc (some name) before (propertyList setting convert entries)
      fun _ _ => True := by
  induction entries generalizing before with
  | nil => exact .pure trivial
  | cons entry rest ih =>
      refine .bind (follows_property (hparts entry List.mem_cons_self)) fun _ _ _ => ?_
      refine .bind (ih fun other hother => hparts other (List.mem_cons_of_mem _ hother))
        fun _ _ _ => .pure trivial

theorem follows_objectBody {name : Label} (hshape : view.conversionShape = .ok .object) :
    Follows setting convert view loc (some name) before (objectBody setting convert view)
      fun _ _ => True :=
  .bind (follows_propertyList fun _ hentry => .property hshape hentry) fun _ _ _ =>
    .bind (.lift (shallow_rules _ _)) fun _ _ _ => .pure trivial

theorem follows_intersectionParts {name : Label} {members : List View}
    (hshape : view.conversionShape = .ok .intersection)
    (hmembers : ∀ member ∈ members, member ∈ view.allOf?.getD []) :
    Follows setting convert view loc (some name) before (intersectionParts setting members)
      fun parts _ => ∀ part ∈ parts, TakesOver setting view part := by
  induction members generalizing before with
  | nil => exact .pure nofun
  | cons member rest ih =>
      have hmember := hmembers member List.mem_cons_self
      have hrest := fun other hother => hmembers other (List.mem_cons_of_mem _ hother)
      rw [intersectionParts_cons]
      refine .bind (follows_standIn hshape hmember) fun target _ htarget => ?_
      refine .bind (.lift (shallow_isObject target)) fun taken _ hobject => ?_
      refine .bind (ih hrest) fun others _ hothers => .pure ?_
      cases taken with
      | false => exact hothers
      | true =>
          -- Only an object schema is taken.
          intro part hpart
          rcases List.mem_append.mp hpart with htaken | hother
          · obtain rfl := Option.mem_toList.mp htaken
            exact ⟨⟨member, hmember, htarget part rfl⟩, hobject.1⟩
          · exact hothers part hother

theorem shallow_mergedRules (parts : List View) : Shallow (mergedRules parts) := by
  induction parts with
  | nil => exact nofun
  | cons part rest ih => exact .bind (shallow_rules _ _) fun _ => .bind ih fun _ => .pure _

theorem follows_mergedProperties {name : Label} {merged : List Property} {parts : List View}
    (hshape : view.conversionShape = .ok .intersection)
    (hparts : ∀ part ∈ parts, TakesOver setting view part) :
    Follows setting convert view loc (some name) before
      (mergedProperties setting convert merged parts) fun _ _ => True := by
  induction parts generalizing before merged with
  | nil => exact .pure trivial
  | cons part rest ih =>
      have hpart := hparts part List.mem_cons_self
      refine .bind (follows_propertyList fun _ hentry => .inherited hshape hpart hentry) ?_
      exact fun _ _ _ => ih fun other hother => hparts other (List.mem_cons_of_mem _ hother)

theorem follows_intersectionBody {name : Label}
    (hshape : view.conversionShape = .ok .intersection) :
    Follows setting convert view loc (some name) before (intersectionBody setting convert view)
      fun _ _ => True :=
  .bind (follows_intersectionParts hshape fun _ hmember => hmember) fun _ _ hparts =>
    .bind (follows_mergedProperties hshape hparts) fun _ _ _ =>
      .bind (.lift (shallow_mergedRules _)) fun _ _ _ => .pure trivial

theorem follows_typeBody {name : Label} {shape : Shape} (hshape : view.conversionShape = .ok shape)
    (hkind : shape = .object ∨ shape = .intersection) :
    Follows setting convert view loc (some name) before (typeBody setting convert view shape)
      fun _ _ => True := by
  rcases hkind with rfl | rfl
  · exact follows_objectBody hshape
  · exact follows_intersectionBody hshape

theorem follows_alternatives {name : Label} {members : List View}
    (hshape : view.conversionShape = .ok .union)
    (hmembers : ∀ member ∈ members, member ∈ view.oneOf?.getD []) :
    Follows setting convert view loc (some name) before (alternatives convert members)
      fun found _ => ∀ alternative ∈ found, alternative.view ∈ view.oneOf?.getD [] := by
  induction members generalizing before with
  | nil => exact .pure fun _ halternative => absurd halternative List.not_mem_nil
  | cons member rest ih =>
      have hmember := hmembers member List.mem_cons_self
      refine .bind (.call (.part (.member hshape hmember))) fun _ _ _ => ?_
      refine .bind (ih fun other hother => hmembers other (List.mem_cons_of_mem _ hother)) ?_
      refine fun others _ hothers => .pure fun alternative halternative => ?_
      rcases List.mem_cons.mp halternative with rfl | hrest
      · exact hmember
      · exact hothers alternative hrest

theorem follows_keep {name : Label} {fits : ValueType → Bool} {problem : Problem}
    {found : List Alternative} (hshape : view.conversionShape = .ok .union)
    (hfound : ∀ alternative ∈ found, alternative.view ∈ view.oneOf?.getD [])
    (hproblem : problem = .primitiveDiscriminated ∨ problem = .mixedUnion) :
    Follows setting convert view loc (some name) before (keep setting fits problem found)
      fun _ _ => True := by
  induction found generalizing before with
  | nil => exact .pure trivial
  | cons alternative rest ih =>
      have hrest := fun other hother => hfound other (List.mem_cons_of_mem alternative hother)
      unfold keep
      split
      · exact .bind (ih hrest) fun _ _ _ => .pure trivial
      · have hmember := hfound alternative List.mem_cons_self
        exact .bind (.report (.excluded hshape hmember hproblem)) fun _ _ _ => ih hrest

theorem follows_unionBody {name : Label} (hshape : view.conversionShape = .ok .union) :
    Follows setting convert view loc (some name) before (unionBody setting convert view)
      fun _ _ => True := by
  refine .bind (follows_alternatives hshape fun _ hmember => hmember) fun found middle hfound => ?_
  cases discriminatorOf? view with
  | some discriminator =>
      have hkept : ∀ current, Follows setting convert view loc (some name) current (do
          let kept ← keep setting (!·.isPrimitive) .primitiveDiscriminated found
          return ⟨.discriminated, kept, some discriminator⟩ : Action UnionBody) fun _ _ => True :=
        fun _ => .bind (follows_keep hshape hfound (.inl rfl)) fun _ _ _ => .pure trivial
      dsimp only
      split
      next mapping hmapping =>
        exact .bind (.report (.mapping hshape hmapping)) fun _ _ _ => hkept _
      next => exact hkept _
  | none =>
      cases found with
      | nil => exact .pure trivial
      | cons first rest =>
          exact .bind (follows_keep hshape hfound (.inr rfl)) fun _ _ _ => .pure trivial

/-- A schema under a name that is taken refers to the entry that has it. -/
theorem follows_claim {name : Label} {shape : Shape} (hshape : view.conversionShape = .ok shape)
    (hnamed : shape.isNamed = true) (hname : setting.naming.infer view = .ok (some name)) :
    Follows setting convert view loc none before (Action.claim setting name view)
      fun claimed after => claimed = true → Declares setting view after name := by
  refine .bind .get fun state middle hstate => ?_
  obtain ⟨rfl, rfl⟩ : middle = state ∧ middle = before := ⟨by rw [hstate.1, hstate.2], hstate.2⟩
  cases howner : middle.lookup name.value with
  | none => exact .pure fun _ => ⟨hname, howner⟩
  | some owner =>
      dsimp only
      split
      next hother =>
        simp only [Bool.and_eq_true, decide_eq_true_eq] at hother
        refine .bind (.report ?_) fun _ _ _ => .pure nofun
        exact .taken hshape hnamed hname howner hother.1 hother.2
      next => exact .pure nofun

theorem follows_named {declare : Label → Action Unit} {shape : Shape}
    (hshape : view.conversionShape = .ok shape) (hnamed : shape.isNamed = true)
    (hdeclare : ∀ name middle, Declares setting view middle name →
      Follows setting convert view loc none middle (declare name) fun _ _ => True) :
    Follows setting convert view loc none before (Action.named setting view declare)
      fun _ _ => True := by
  refine .bind (.lift (Schema.Naming.shallow_infer _ _)) fun found middle hfound => ?_
  cases found with
  | none => exact .pure trivial
  | some name =>
      refine .bind (follows_claim hshape hnamed hfound.1) fun claimed after hclaimed => ?_
      cases claimed with
      | true => exact .bind (hdeclare name after (hclaimed rfl)) fun _ _ _ => .pure trivial
      | false => exact .pure trivial

theorem follows_typeEntry {origin : Origin} {shape : Shape}
    (hshape : view.conversionShape = .ok shape)
    (hkind : shape = .object ∨ shape = .intersection)
    (hbody : ∀ name start, Follows setting convert view loc (some name) start
      (typeBody setting convert view shape) fun _ _ => True) :
    Follows setting convert view loc none before
      (typeEntry setting origin (typeBody setting convert view shape) view loc)
      fun _ _ => True := by
  have hnamed : shape.isNamed = true := by rcases hkind with rfl | rfl <;> rfl
  refine follows_named hshape hnamed fun name middle hname => ?_
  have hopen : Course setting convert view loc true (some name)
      (middle.addType (newType view name loc))
      ((middle.addType (newType view name loc)).note
        (.registered origin name.value view.pointer)) := .note nofun
  rw [Follows, Action.ensures_bind, Action.ensures_modify, Action.ensures_bind,
    Action.ensures_note, Action.ensures_bind]
  -- If the body fails, the entry stays open.
  refine Action.Ensures.imp (hbody name _).recalled ?_ ?_
  · intro body after hafter
    exact ⟨.typeEntry hname hshape hkind hopen hafter.2.2 hafter.1, trivial⟩
  · intro failure after hafter
    exact ⟨.typeOpened hname hshape hkind (hopen.any.andThen hafter.1),
      fun hdeep => .typePart hname (.later hopen.any (hafter.2 hdeep))⟩

theorem follows_union (hshape : view.conversionShape = .ok .union) :
    Follows setting convert view loc none before (union setting convert view loc)
      fun _ _ => True := by
  have hbody : ∀ name start, Follows setting convert view loc (some name) start
      (unionBody setting convert view) fun _ _ => True := fun _ _ => follows_unionBody hshape
  refine follows_named hshape rfl fun name middle hname => ?_
  have hopen : Course setting convert view loc true (some name)
      (middle.addUnion (newUnion view name loc))
      ((middle.addUnion (newUnion view name loc)).note
        (.registered .union name.value view.pointer)) := .note nofun
  rw [Follows, Action.ensures_bind, Action.ensures_modify, Action.ensures_bind,
    Action.ensures_note, Action.ensures_bind]
  refine Action.Ensures.imp (hbody name _).recalled ?_ ?_
  · intro body after hafter
    exact ⟨.unionEntry hname hshape hopen hafter.2.2 hafter.1, trivial⟩
  · intro failure after hafter
    exact ⟨.unionOpened hname hshape (hopen.any.andThen hafter.1),
      fun hdeep => .unionPart hname (.later hopen.any (hafter.2 hdeep))⟩

theorem follows_stringEnum (hshape : view.conversionShape = .ok .enumeration) :
    Follows setting convert view loc none before
      (stringEnum setting view (view.enum?.getD []) loc) fun _ _ => True :=
  follows_named hshape rfl fun _ _ hname =>
    .bind (.update (.enumEntry hname hshape)) fun _ _ _ => .note nofun

theorem follows_array (hshape : view.conversionShape = .ok .array) :
    Follows setting convert view loc none before (array setting convert view)
      fun _ _ => True := by
  unfold array
  split
  next => exact .pure trivial
  next item hitems =>
    exact .bind (.call (.item ⟨hshape, hitems⟩)) fun _ _ _ => .pure trivial
  next items hitems =>
    split
    · exact .bind (.note nofun) fun _ _ _ => .throw nofun
    next hlax =>
      refine .bind (.report ?_) fun _ _ _ => .pure trivial
      exact .tupleItems hshape hitems (by simpa using hlax)

theorem follows_placeholder {key : Str} {problem : Problem}
    (hreport : setting.options.reportUnsupportedFeatures = true →
      Reports setting view none before problem (view.memberCode? key)) :
    Follows setting convert view loc none before (placeholder setting view key problem)
      fun _ _ => True := by
  unfold placeholder
  split
  next hset => exact .bind (.report (hreport hset)) fun _ _ _ => .pure trivial
  next => exact .pure trivial

theorem follows_primitive :
    Follows setting convert view loc none before (primitive setting view loc)
      fun _ _ => True := by
  unfold primitive
  split
  · exact .pure trivial
  · exact .bind (.lift (shallow_isRequired _ _)) fun _ _ _ =>
      .bind (.lift (shallow_rules _ _)) fun _ _ _ => .pure trivial

theorem follows_object (hshape : view.conversionShape = .ok .object) :
    Follows setting convert view loc none before (object setting convert view loc)
      fun _ _ => True := by
  have hbody : objectBody setting convert view = typeBody setting convert view .object := rfl
  rw [object, hbody]
  exact follows_typeEntry hshape (.inl rfl) fun _ _ => follows_objectBody hshape

theorem follows_intersection (hshape : view.conversionShape = .ok .intersection) :
    Follows setting convert view loc none before (intersection setting convert view loc)
      fun _ _ => True := by
  have hbody : intersectionBody setting convert view =
      typeBody setting convert view .intersection := rfl
  rw [intersection, hbody]
  exact follows_typeEntry hshape (.inr rfl) fun _ _ => follows_intersectionBody hshape

/-- An enumeration of other values than strings is converted as the type that it declares. -/
theorem follows_byDeclaredType (hshape : view.shape = .ok .enumeration)
    (hstring : view.isStringEnum = .ok false) :
    Follows setting convert view loc none before (byDeclaredType setting convert view loc)
      fun _ _ => True := by
  have hconversion := conversionShape_of_otherEnum hshape hstring
  refine .bind (.lift (View.shallow_shapeOfType view)) fun shape after htype => ?_
  rw [htype.1] at hconversion
  cases shape with
  | object => exact follows_object hconversion
  | array => exact follows_array hconversion
  | _ => exact follows_primitive

theorem follows_enumeration (hshape : view.shape = .ok .enumeration) :
    Follows setting convert view loc none before (enumeration setting convert view loc)
      fun _ _ => True := by
  rw [enumeration_eq]
  refine .bind (.lift (View.shallow_isStringEnum view)) fun isString middle hstring => ?_
  cases isString with
  | true => exact follows_stringEnum (conversionShape_of_stringEnum hshape hstring.1)
  | false =>
      dsimp only
      split
      · contradiction
      · split
        next hset =>
          exact .bind (.report (.enumValues hshape hstring.1 hset)) fun _ _ _ =>
            follows_byDeclaredType hshape hstring.1
        next => exact follows_byDeclaredType hshape hstring.1

theorem follows_byShape {shape : Shape} (hshape : view.shape = .ok shape) :
    Follows setting convert view loc none before (byShape setting convert view loc shape)
      fun _ _ => True := by
  have hconversion := conversionShape_of_shape hshape
  cases shape with
  | intersection => exact follows_intersection (hconversion nofun)
  | anyOf => exact follows_placeholder fun hset => .anyOf (hconversion nofun) hset
  | union => exact follows_union (hconversion nofun)
  | typeList => exact follows_placeholder fun hset => .typeList (hconversion nofun) hset
  | enumeration => exact follows_enumeration hshape
  | object => exact follows_object (hconversion nofun)
  | array => exact follows_array (hconversion nofun)
  | reference | primitive => exact follows_primitive

theorem follows_shaped {shape : Shape} (hshape : view.shape = .ok shape) :
    Follows setting convert view loc none before (do
      match view.reference? with
      | some reference => follow setting convert view reference loc
      | none =>
          let type ← byShape setting convert view loc shape
          return ⟨type, view.paragraphs.getD []⟩) fun _ _ => True := by
  split
  next reference hreference => exact follows_follow hreference
  next => exact .bind (follows_byShape hshape) fun _ _ _ => .pure trivial

end Steps

section Whole

variable (setting : Setting) (convert : Converter) (view : View) (loc : Option LocationCode)

/-- A definition may be visited: it is wanted and has not been visited. -/
def Visitable (context : Context) (entry : Schema.Entry) : Prop :=
  entry ∈ definitionEntries view ∧ entry.key.name ∉ setting.options.ignoreDefinitions ∧
    entry.view.pointer ∉ context.visited

/-- The whole conversion of a schema: visits to its definitions and, with its pointer
on the chain, the course of its own conversion. -/
inductive Conversion : Context → Context → Prop
  | done {context : Context} : Conversion context context
  | andThen {before middle after : Context} (hfirst : Conversion before middle)
      (hsecond : Conversion middle after) : Conversion before after
  | definition {before after : Context} {entry : Schema.Entry}
      (hentry : Visitable setting view before entry)
      (hcalled : (convert entry.view (some entry.code)).Leads false
        (before.visit entry.view.pointer) after) : Conversion before after
  | within {before after : Context} {shape : Shape} (hshape : view.shape = .ok shape)
      (hcourse : Course setting convert view loc false none
        ((before.enter view.pointer).note (.parsing view.pointer shape)) after) :
      Conversion before after.leave

/-- Some call in the whole conversion of a schema fails because its descent is too
deep. -/
inductive ConversionExhausts : Context → Prop
  | definition {context : Context} {entry : Schema.Entry}
      (hentry : Visitable setting view context entry)
      (hdeep : ((convert entry.view (some entry.code)).run.run
        (context.visit entry.view.pointer)).1 = .error .tooDeep) : ConversionExhausts context
  | within {context : Context} {shape : Shape} (hshape : view.shape = .ok shape)
      (hcourse : Exhausts setting convert view loc none
        ((context.enter view.pointer).note (.parsing view.pointer shape))) :
      ConversionExhausts context
  | later {before middle : Context}
      (hfirst : Conversion setting convert view loc before middle)
      (hrest : ConversionExhausts middle) : ConversionExhausts before

/-- From `before`, an action ends after a part of a conversion, and is too deep only
if a call is. -/
def Converts {α : Type} (before : Context) (action : Action α) : Prop :=
  action.Ensures before (fun _ after => Conversion setting convert view loc before after)
    fun failure after => Conversion setting convert view loc before after ∧
      (failure = .tooDeep → ConversionExhausts setting convert view loc before)

variable {setting convert view loc}

theorem Converts.bind {α β : Type} {before : Context} {action : Action β}
    {next : β → Action α} (haction : Converts setting convert view loc before action)
    (hnext : ∀ value middle, Converts setting convert view loc middle (next value)) :
    Converts setting convert view loc before (action >>= next) := by
  rw [Converts, Action.ensures_bind]
  refine haction.imp (fun value middle hmiddle => ?_) fun _ _ h => h
  refine (hnext value middle).imp (fun _ _ hafter => hmiddle.andThen hafter) ?_
  exact fun _ _ hafter => ⟨hmiddle.andThen hafter.1, fun hdeep => .later hmiddle (hafter.2 hdeep)⟩

theorem converts_visitDefinitions {before : Context} {entries : List Schema.Entry}
    (hentries : ∀ entry ∈ entries, entry ∈ definitionEntries view) :
    Converts setting convert view loc before (visitDefinitions setting convert entries) := by
  induction entries generalizing before with
  | nil => exact .done
  | cons entry rest ih =>
      have hentry := hentries entry List.mem_cons_self
      have hrest := fun other hother => hentries other (List.mem_cons_of_mem entry hother)
      rw [visitDefinitions, Converts, Action.ensures_bind, Action.ensures_get]
      split
      · exact ih hrest
      next hnew =>
        simp only [Bool.or_eq_true, decide_eq_true_eq, not_or] at hnew
        have hvisitable : Visitable setting view before entry := ⟨hentry, hnew.1, hnew.2⟩
        rw [Action.ensures_bind, Action.ensures_modify, Action.ensures_bind]
        -- The definition is converted, then the others are visited.
        refine (Action.ensures_leads (.definition hvisitable)).imp
          (fun _ middle hreturns => ?_)
          fun _ _ hfailed => ⟨.definition hvisitable hfailed.1, hfailed.2⟩
        have hmiddle : Conversion setting convert view loc before middle :=
          .definition hvisitable (hreturns.leads false)
        refine (ih hrest).imp (fun _ _ hafter => hmiddle.andThen hafter) ?_
        exact fun _ _ hafter =>
          ⟨hmiddle.andThen hafter.1, fun hdeep => .later hmiddle (hafter.2 hdeep)⟩

theorem converts_dispatch {before : Context} :
    Converts setting convert view loc before
      (Action.within view.pointer (dispatch setting convert view loc)) := by
  rw [Converts, Action.ensures_within, dispatch, Action.ensures_bind, Action.ensures_lift]
  constructor
  · intro shape hshape
    rw [Action.ensures_bind, Action.ensures_note]
    refine Action.Ensures.imp (follows_shaped hshape) ?_ ?_
    · exact fun _ _ hafter => .within hshape hafter.1.any
    · exact fun _ _ hafter =>
        ⟨.within hshape hafter.1, fun hdeep => .within hshape (hafter.2 hdeep)⟩
  · intro failure hfailure
    refine ⟨.done, ?_⟩
    rintro rfl
    exact absurd hfailure (View.shallow_shape view)

theorem converts_step {before : Context} :
    Converts setting convert view loc before (step setting convert view loc) :=
  .bind (converts_visitDefinitions fun _ h => h) fun _ _ => converts_dispatch

/-- What a step does to the state is a part of a conversion, whatever its outcome. -/
theorem conversion_step (setting : Setting) (convert : Converter) (view : View)
    (loc : Option LocationCode) (before : Context) :
    Conversion setting convert view loc before
      ((step setting convert view loc).run.run before).2 :=
  (Action.Ensures.imp converts_step (fun _ _ h => h) fun _ _ h => h.1).ended

/-- A step is too deep only if a call in it is. -/
theorem conversionExhausts_step {before : Context}
    (h : ((step setting convert view loc).run.run before).1 = .error .tooDeep) :
    ConversionExhausts setting convert view loc before := by
  have hstep : Converts setting convert view loc before (step setting convert view loc) :=
    converts_step
  unfold Converts Action.Ensures at hstep
  split at hstep
  next hrun => simp [hrun] at h
  next hrun => exact hstep.2 (by simpa [hrun] using h)

end Whole

end Schemata.Analysis
