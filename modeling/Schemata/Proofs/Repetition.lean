import Schemata.Proofs.Exploration
import Schemata.Proofs.Frame
import Schemata.Proofs.Parallel

/-!
# Conversions made again

A schema that was converted may be converted again at any later time. The second
conversion returns what the first one did and leaves no trace but in the log: the
definitions were visited, names lead to the entries that the first conversion found or
made, and what would be reported has been recorded.
-/

namespace Schemata.Analysis

open Schema Source

namespace Context

/-- Where the schema comes from that has a name. -/
def source? (context : Context) (name : Str) : Option Pointer :=
  (context.lookup name).map Entry.source

theorem source?_eq (context : Context) (name : Str) :
    context.source? name = ((context.typeRegistry.get? name).map ObjectType.source).or
      (((context.enumRegistry.get? name).map EnumType.source).or
        ((context.unionRegistry.get? name).map UnionType.source)) := by
  simp only [source?, lookup, Option.map_or, Option.map_map]
  rfl

/-- The context with another log. -/
def relog (context : Context) (log : List Event) : Context :=
  { context with log := log }

/-- The state `after` is no earlier than `before`: a name leads to the same schema, and what
was recorded or visited still is. What an entry holds and what was logged may differ. -/
structure Precedes (before after : Context) : Prop where
  sources : ∀ name source, before.source? name = some source → after.source? name = some source
  violations : before.violations ⊆ after.violations
  visited : before.visited ⊆ after.visited
  chain : after.chain = before.chain

variable {before middle after : Context}

theorem Keeps.precedes (h : before.Keeps after) : before.Precedes after where
  sources name source hsource := by
    obtain ⟨owner, howner, rfl⟩ := Option.map_eq_some_iff.mp hsource
    exact Option.map_eq_some_iff.mpr ⟨owner, h.owners name owner howner, rfl⟩
  violations := h.violations.subset
  visited := h.visited.subset
  chain := h.chain

namespace Precedes

theorem refl (context : Context) : context.Precedes context :=
  (Keeps.refl context).precedes

theorem trans (hfirst : before.Precedes middle) (hsecond : middle.Precedes after) :
    before.Precedes after where
  sources name source hsource := hsecond.sources name source (hfirst.sources name source hsource)
  violations := List.Subset.trans hfirst.violations hsecond.violations
  visited := List.Subset.trans hfirst.visited hsecond.visited
  chain := hsecond.chain.trans hfirst.chain

theorem relog (h : before.Precedes after) (log : List Event) :
    before.Precedes (after.relog log) :=
  ⟨h.sources, h.violations, h.visited, h.chain⟩

theorem enter (h : before.Precedes after) (pointer : Pointer) :
    (before.enter pointer).Precedes (after.enter pointer) :=
  ⟨h.sources, h.violations, h.visited, by rw [Context.enter, h.chain]; rfl⟩

theorem leave {pointer : Pointer} (h : (before.enter pointer).Precedes after) :
    before.Precedes after.leave :=
  ⟨h.sources, h.violations, h.visited, by rw [Context.leave, h.chain]; rfl⟩

end Precedes

/-- An entry has its source before its body is read, and keeps it. -/
theorem source?_completeType (context : Context) (name key : Str)
    (properties : List Property) (rules : List Rule) :
    (context.completeType key properties rules).source? name = context.source? name := by
  rw [source?_eq, source?_eq]
  exact congrArg (Option.or · _) (Registry.map_get?_modify fun _ => rfl)

theorem source?_completeUnion (context : Context) (name key : Str) (kind : UnionKind)
    (members : List ValueType) (discriminator : Option Label) :
    (context.completeUnion key kind members discriminator).source? name =
      context.source? name := by
  rw [source?_eq, source?_eq]
  exact congrArg (fun last => Option.or _ (Option.or _ last))
    (Registry.map_get?_modify fun _ => rfl)

theorem source?_addType {context : Context} {type : ObjectType}
    (hnew : context.lookup type.name.value = none) :
    (context.addType type).source? type.name.value = some type.source := by
  rw [source?_eq, addType, Registry.get?_insert_self (lookup_eq_none_iff.mp hnew).1]
  rfl

theorem source?_addEnum {context : Context} {type : EnumType}
    (hnew : context.lookup type.name.value = none) :
    (context.addEnum type).source? type.name.value = some type.source := by
  obtain ⟨htypes, henums, -⟩ := lookup_eq_none_iff.mp hnew
  rw [source?_eq, addEnum, Registry.get?_insert_self henums,
    Registry.get?_eq_none_iff.mpr htypes]
  rfl

theorem source?_addUnion {context : Context} {type : UnionType}
    (hnew : context.lookup type.name.value = none) :
    (context.addUnion type).source? type.name.value = some type.source := by
  obtain ⟨htypes, henums, hunions⟩ := lookup_eq_none_iff.mp hnew
  rw [source?_eq, addUnion, Registry.get?_insert_self hunions,
    Registry.get?_eq_none_iff.mpr htypes, Registry.get?_eq_none_iff.mpr henums]
  rfl

theorem precedes_completeType (context : Context) (key : Str) (properties : List Property)
    (rules : List Rule) : context.Precedes (context.completeType key properties rules) :=
  { Precedes.refl context with
    sources := fun name _ hsource => (source?_completeType context name key _ _).trans hsource }

theorem precedes_completeUnion (context : Context) (key : Str) (kind : UnionKind)
    (members : List ValueType) (discriminator : Option Label) :
    context.Precedes (context.completeUnion key kind members discriminator) :=
  { Precedes.refl context with
    sources := fun name _ hsource => (source?_completeUnion context name key _ _ _).trans hsource }

/-- A pointer that was taken off the chain may be put back. -/
theorem enter_leave {context : Context} {pointer : Pointer} {chain : List Pointer}
    (h : context.chain = pointer :: chain) : context.leave.enter pointer = context := by
  cases context
  cases h
  rfl

theorem record_of_mem {context : Context} {violation : Violation}
    (h : violation ∈ context.violations) : context.record violation = context :=
  if_pos h

end Context

namespace Action

variable {α β : Type}

/-- From any state that the given one precedes, the action returns the value and leaves no
trace but in the log. -/
def Repeats (action : Action α) (value : α) (context : Context) : Prop :=
  ∀ later, context.Precedes later → ∃ log, action.Returns later value (later.relog log)

namespace Repeats

variable {context : Context} {value : α}

theorem later {action : Action α} {after : Context} (h : action.Repeats value context)
    (hafter : context.Precedes after) : action.Repeats value after :=
  fun later hlater => h later (hafter.trans hlater)

theorem pure (value : α) : (Pure.pure value : Action α).Repeats value context :=
  fun later _ => ⟨later.log, rfl⟩

theorem bind {action : Action β} {next : β → Action α} {found : β}
    (haction : action.Repeats found context) (hnext : (next found).Repeats value context) :
    (action >>= next).Repeats value context := by
  intro later hlater
  obtain ⟨log, hfirst⟩ := haction later hlater
  obtain ⟨stop, hsecond⟩ := hnext _ (hlater.relog log)
  exact ⟨stop, hfirst.bind hsecond⟩

theorem note (event : Event) : (Action.note event).Repeats () context :=
  fun later _ => ⟨event :: later.log, rfl⟩

/-- A violation is not recorded twice. -/
theorem report {setting : Setting} {problem : Problem} {range : Option LocationCode}
    (h : problem.violation range setting.sourcePath ∈ context.violations) :
    (Action.report setting problem range).Repeats () context := by
  intro later hlater
  refine ⟨later.log, ?_⟩
  rw [Action.report, Returns]
  show (_, later.record _) = _
  rw [Context.record_of_mem (hlater.violations h)]
  rfl

/-- What is asked of the state has to be answered as before. -/
theorem ask {next : Context → Action α} (before : Context) (hbefore : before.Precedes context)
    (hnext : (next before).Repeats value context)
    (hsame : ∀ later, before.Precedes later → next later = next before) :
    (get >>= next).Repeats value context := by
  intro later hlater
  obtain ⟨log, hreturns⟩ := hnext later hlater
  refine ⟨log, ?_⟩
  rw [← hsame later (hbefore.trans hlater)] at hreturns
  exact hreturns

/-- What was visited is not visited again. -/
theorem unlessVisited {skipped : Bool} {pointer : Pointer} {visit : Action β} {rest : Action α}
    (hskipped : skipped = true ∨ pointer ∈ context.visited) (hrest : rest.Repeats value context) :
    (Action.unlessVisited skipped pointer visit rest).Repeats value context := by
  intro later hlater
  have hskips : (skipped || decide (pointer ∈ later.visited)) = true := by
    simpa using hskipped.imp_right fun hmem => hlater.visited hmem
  simp only [Action.unlessVisited, returns_get, hskips, if_true]
  exact hrest later hlater

theorem within {pointer : Pointer} {action : Action α}
    (h : action.Repeats value (context.enter pointer)) :
    (Action.within pointer action).Repeats value context := by
  intro later hlater
  obtain ⟨log, hreturns⟩ := h _ (hlater.enter pointer)
  refine ⟨log, ?_⟩
  rw [Returns, run_within, hreturns]
  rfl

end Repeats

/-- If the action returns, it repeats itself from then on. -/
def Recurs (action : Action α) (before : Context) : Prop :=
  action.Ensures before
    (fun value after => before.Precedes after ∧ action.Repeats value after) fun _ _ => True

namespace Recurs

variable {before : Context}

theorem pure (value : α) : (Pure.pure value : Action α).Recurs before :=
  ⟨.refl before, .pure value⟩

theorem throw (failure : Failure) : (MonadExcept.throw failure : Action α).Recurs before :=
  trivial

theorem bind {action : Action β} {next : β → Action α} (haction : action.Recurs before)
    (hnext : ∀ value, action.MayReturn value → ∀ middle, (next value).Recurs middle) :
    (action >>= next).Recurs before := by
  rw [Recurs, ensures_bind]
  refine Ensures.imp (Ensures.and haction (action.ensures_returns before)) ?_ fun _ _ h => h.1
  rintro value middle ⟨⟨hprecedes, hrepeats⟩, hreturns⟩
  refine Ensures.imp (hnext value ⟨before, middle, hreturns⟩ middle) ?_ fun _ _ h => h
  exact fun result after hafter =>
    ⟨hprecedes.trans hafter.1, (hrepeats.later hafter.1).bind hafter.2⟩

theorem lift (result : Except Failure α) : (liftM result : Action α).Recurs before := by
  cases result with
  | ok value => exact .pure value
  | error => exact trivial

theorem note (event : Event) : (Action.note event).Recurs before :=
  ⟨(Context.Keeps.note before event).precedes, .note event⟩

theorem report (setting : Setting) (problem : Problem) (range : Option LocationCode) :
    (Action.report setting problem range).Recurs before :=
  ⟨(Context.Keeps.record before _).precedes, .report (Context.mem_violations_record before _)⟩

theorem ask {next : Context → Action α} (hnext : (next before).Recurs before)
    (hsame : ∀ later, before.Precedes later → next later = next before) :
    (get >>= next).Recurs before := by
  rw [Recurs, ensures_bind, ensures_get]
  refine Ensures.imp hnext (fun value after hafter => ?_) fun _ _ h => h
  exact ⟨hafter.1, .ask before hafter.1 hafter.2 hsame⟩

theorem unlessVisited {skipped : Bool} {pointer : Pointer} {visit : Action β} {rest : Action α}
    (hvisit : skipped = false → ∀ start, visit.Recurs start)
    (hrest : ∀ start, rest.Recurs start) :
    (Action.unlessVisited skipped pointer visit rest).Recurs before := by
  rw [Recurs, Action.unlessVisited, ensures_bind, ensures_get]
  split
  next hskips =>
    refine Ensures.imp (hrest before) (fun value after hafter => ?_) fun _ _ h => h
    rw [Bool.or_eq_true, decide_eq_true_eq] at hskips
    exact ⟨hafter.1, .unlessVisited (hskips.imp_right (hafter.1.visited ·)) hafter.2⟩
  next hnew =>
    have hwanted : skipped = false := by simp_all
    rw [ensures_bind, ensures_modify, ensures_bind]
    refine Ensures.imp (hvisit hwanted _) (fun _ middle hmiddle => ?_) fun _ _ h => h
    refine Ensures.imp (hrest middle) (fun value after hafter => ?_) fun _ _ h => h
    have hmark : before.Precedes (before.visit pointer) :=
      (Context.Keeps.visit before pointer).precedes
    have hdone := hmiddle.1.trans hafter.1
    have hvisited : pointer ∈ after.visited := hdone.visited List.mem_cons_self
    exact ⟨hmark.trans hdone, .unlessVisited (.inr hvisited) hafter.2⟩

theorem within {pointer : Pointer} {action : Action α}
    (h : action.Recurs (before.enter pointer)) : (Action.within pointer action).Recurs before := by
  rw [Recurs, ensures_within]
  refine Ensures.imp h (fun value after hafter => ?_) fun _ _ h => h
  refine ⟨hafter.1.leave, .within ?_⟩
  rw [Context.enter_leave hafter.1.chain]
  exact hafter.2

end Recurs

end Action

section Steps

variable {setting : Setting} {convert : Converter} {view : View} {loc : Option LocationCode}
  {before context : Context}

/-! ### Names -/

/-- A name that is taken stays so, and what there is to be said about that has been said. -/
theorem repeats_claim {name : Label} {source : Pointer}
    (hsource : context.source? name.value = some source)
    (hsaid : source ≠ view.pointer → setting.options.reportDuplicateNames = true →
      (Problem.duplicateName name.value view.pointer source).violation
        (name.loc.or ((view.memberCode? "title").or view.code)) setting.sourcePath ∈
          context.violations) :
    (Action.claim setting name view).Repeats false context := by
  -- Whenever it is asked, the name has an owner, and one made from the same schema.
  suffices hagain : ∀ owner : Entry, owner.source = source → Action.Repeats (do
      if owner.source ≠ view.pointer && setting.options.reportDuplicateNames then
        Action.report setting (.duplicateName name.value view.pointer owner.source)
          (name.loc.or ((view.memberCode? "title").or view.code))
      return false) false context by
    intro later hlater
    obtain ⟨owner, howner, hown⟩ := Option.map_eq_some_iff.mp (hlater.sources _ _ hsource)
    rw [Action.claim]
    simp only [Action.returns_get, howner]
    exact hagain owner hown later hlater
  rintro owner rfl
  split
  next hother =>
    simp only [Bool.and_eq_true, decide_eq_true_eq] at hother
    exact .bind (.report (hsaid hother.1 hother.2)) (.pure false)
  next => exact .pure false

theorem ensures_claim (name : Label) :
    (Action.claim setting name view).Ensures before
      (fun claimed after => before.Precedes after ∧
        (claimed = true → before.lookup name.value = none ∧ after = before) ∧
        (claimed = false → (Action.claim setting name view).Repeats false after))
      fun _ _ => True := by
  rw [Action.claim, Action.ensures_bind, Action.ensures_get]
  cases howner : before.lookup name.value with
  | none => exact ⟨.refl before, fun _ => ⟨rfl, rfl⟩, nofun⟩
  | some owner =>
      have hsource : before.source? name.value = some owner.source := by
        rw [Context.source?, howner]
        rfl
      dsimp only
      split
      next hother =>
        have hafter := (Context.Keeps.record before
          ((Problem.duplicateName name.value view.pointer owner.source).violation
            (name.loc.or ((view.memberCode? "title").or view.code)) setting.sourcePath)).precedes
        refine ⟨hafter, nofun, fun _ => ?_⟩
        refine repeats_claim (hafter.sources _ _ hsource) fun _ _ => ?_
        exact Context.mem_violations_record before _
      next hown =>
        refine ⟨.refl before, nofun, fun _ => repeats_claim hsource fun hother hset => ?_⟩
        simp [hother, hset] at hown

/-- Whoever declares a name is found under it from then on. -/
theorem recurs_named {declare : Label → Action Unit}
    (hdeclare : ∀ name middle, Declares setting view middle name →
      (declare name).Ensures middle (fun _ after => middle.Precedes after ∧
        after.source? name.value = some view.pointer) fun _ _ => True) :
    (Action.named setting view declare).Recurs before := by
  refine .bind (.lift _) fun found hfound start => ?_
  cases found with
  | none => exact .pure _
  | some name =>
      have hagain : ∀ context, (Action.claim setting name view).Repeats false context →
          (do
            if ← Action.claim setting name view then declare name
            return .named name : Action ValueType).Repeats (.named name) context :=
        fun context hclaim => .bind hclaim (.pure _)
      dsimp only
      rw [Action.Recurs, Action.ensures_bind]
      refine (ensures_claim name).imp (fun claimed middle hmiddle => ?_) fun _ _ h => h
      obtain ⟨hprecedes, hfree, htaken⟩ := hmiddle
      cases claimed with
      | false => exact ⟨hprecedes, hagain _ (htaken rfl)⟩
      | true =>
          obtain ⟨hnew, rfl⟩ := hfree rfl
          rw [if_pos rfl, Action.ensures_bind]
          refine (hdeclare name _ ⟨hfound.lift, hnew⟩).imp (fun _ after hafter => ?_) fun _ _ h => h
          exact ⟨hafter.1, hagain _ (repeats_claim hafter.2 fun hother => absurd rfl hother)⟩

/-! ### Entries -/

theorem recurs_typeEntry {origin : Origin} {body : Action TypeBody}
    (hbody : ∀ start, body.Recurs start) :
    (typeEntry setting origin body view loc).Recurs before := by
  refine recurs_named fun name middle hname => ?_
  rw [Action.ensures_bind, Action.ensures_modify, Action.ensures_bind, Action.ensures_note,
    Action.ensures_bind]
  refine Action.Ensures.imp (hbody _) (fun body after hafter => ?_) fun _ _ _ => trivial
  -- The entry is found from the time it is added, whatever its body does.
  have hadded : middle.Keeps (middle.addType (newType view name loc)) := .addType hname.2
  have hdone := ((Context.Keeps.note _ _).precedes.trans hafter.1).trans
    (after.precedes_completeType name.value body.1 body.2)
  exact ⟨hadded.precedes.trans hdone, hdone.sources _ _ (Context.source?_addType hname.2)⟩

theorem recurs_stringEnum (members : List View) :
    (stringEnum setting view members loc).Recurs before := by
  refine recurs_named fun name middle hname => ?_
  rw [Action.ensures_bind, Action.ensures_modify, Action.ensures_note]
  have hadded : middle.Keeps (middle.addEnum (newEnum view members name loc)) := .addEnum hname.2
  have hdone := Context.Keeps.note (middle.addEnum (newEnum view members name loc))
    (.registered .enumeration name.value view.pointer)
  exact ⟨(hadded.trans hdone).precedes,
    hdone.precedes.sources _ _ (Context.source?_addEnum hname.2)⟩

theorem recurs_union (hbody : ∀ start, (unionBody setting convert view).Recurs start) :
    (union setting convert view loc).Recurs before := by
  refine recurs_named fun name middle hname => ?_
  rw [Action.ensures_bind, Action.ensures_modify, Action.ensures_bind, Action.ensures_note,
    Action.ensures_bind]
  refine Action.Ensures.imp (hbody _) (fun body after hafter => ?_) fun _ _ _ => trivial
  have hadded : middle.Keeps (middle.addUnion (newUnion view name loc)) := .addUnion hname.2
  have hdone := ((Context.Keeps.note _ _).precedes.trans hafter.1).trans
    (after.precedes_completeUnion name.value body.kind body.members body.discriminator)
  exact ⟨hadded.precedes.trans hdone, hdone.sources _ _ (Context.source?_addUnion hname.2)⟩

end Steps

/-! ### Runs -/

/-- If conversions recur, so does whatever is made of them. -/
theorem Parallel.recurs {setting : Setting} {flags : Flags} {convert other : Converter}
    {met : View → Prop}
    (hconvert : ∀ view loc, met view → ∀ before, (convert view loc).Recurs before)
    {α : Type} {action twin : Action α}
    (h : Parallel setting flags convert other met action twin) :
    ∀ before, action.Recurs before := by
  induction h with
  | pure value => exact fun _ => .pure value
  | lift result => exact fun _ => .lift result
  | bind _ _ ihAction ihNext =>
      exact fun before => .bind (ihAction before) ihNext
  | ask _ hsame ih =>
      exact fun before => .ask (ih before before) fun later hlater =>
        (hsame before later hlater.chain).1
  | note event => exact fun _ => .note event
  | unlessVisited hview _ ih =>
      exact fun _ => .unlessVisited (fun hwanted => hconvert _ _ (hview hwanted)) ih
  | within pointer _ ih => exact fun _ => .within (ih _)
  | call hview => exact hconvert _ _ hview
  | report _ => exact fun _ => .report _ _ _
  | offer _ _ ih =>
      intro before
      split
      · exact .bind (.report _ _ _) fun _ _ => ih
      · exact ih before
  | refuse refusal _ value =>
      intro before
      unfold Refusal.act
      split
      · exact .bind (.note _) fun _ _ _ => .throw _
      · exact .bind (.report _ _ _) fun _ _ _ => .pure _
  | typeEntry _ _ _ _ ih => exact fun _ => recurs_typeEntry ih
  | enumEntry _ => exact fun _ => recurs_stringEnum _
  | unionEntry _ _ _ ih => exact fun _ => recurs_union ih

theorem convertWithin_recurs (setting : Setting) (depth : Nat) (view : View)
    (loc : Option LocationCode) (before : Context) :
    (convertWithin setting depth view loc).Recurs before := by
  induction depth generalizing view loc before with
  | zero => exact .throw .tooDeep
  | succ depth ih =>
      have hstep : Parallel setting setting.flags (convertWithin setting depth)
          (convertWithin setting depth) (fun _ => True)
          (convertWithin setting (depth + 1) view loc) _ :=
        parallel_step (fun _ _ _ _ => trivial) trivial
      exact hstep.recurs (fun view loc _ => ih view loc) before

theorem convertProperty_recurs (setting : Setting) (entry : Schema.Entry) (before : Context) :
    (convertProperty setting entry).Recurs before := by
  have hproperty : Parallel setting setting.flags (Analysis.convert setting)
      (Analysis.convert setting) (fun _ => True) (convertProperty setting entry) _ :=
    parallel_property trivial
  exact hproperty.recurs (fun view loc _ => convertWithin_recurs setting _ view loc) before

/-- What is converted twice in a row, a schema or a property, yields the same both times,
whatever the state is. The second time leaves the entries, the violations, the chain and
the visited definitions as they are. -/
theorem convert_repeats (setting : Setting) (before : Context) :
    (∀ view loc converted after, (convert setting view loc).Returns before converted after →
      ∃ log, (convert setting view loc).Returns after converted { after with log := log }) ∧
    ∀ entry property after, (convertProperty setting entry).Returns before property after →
      ∃ log, (convertProperty setting entry).Returns after property { after with log := log } := by
  constructor
  · intro view loc converted after hreturns
    have hconvert := convertWithin_recurs setting setting.depth view loc before
    exact (hconvert.of_returns hreturns).2 after (.refl after)
  · intro entry property after hreturns
    have hproperty := convertProperty_recurs setting entry before
    exact (hproperty.of_returns hreturns).2 after (.refl after)

namespace DanglingLink

def link : View :=
  ⟨bareObject [("$ref", bareString "#/definitions/Missing")], "#/definitions/Node/properties/next"⟩

def next : Schema.Entry :=
  ⟨⟨"next", "next", .start⟩, link⟩

def element : View :=
  ⟨bareObject [("type", bareString "object"), ("properties", bareObject [("next", link.node)])],
    "#/definitions/Node"⟩

/-- A definition of objects that refer to a schema that is not there. -/
def sample : Setting :=
  ⟨bareObject [("definitions", bareObject [("Node", element.node)])], "", {}⟩

/-- The reference is reported when the object is converted, or its property, and not a second
time. -/
theorem convert_element_twice :
    (∃ converted after log, (convert sample element none).Returns {} converted after ∧
      after.violations.length = 1 ∧
      (convert sample element none).Returns after converted { after with log := log }) ∧
    ∃ property after log, (convertProperty sample next).Returns {} property after ∧
      after.violations.length = 1 ∧
      (convertProperty sample next).Returns after property { after with log := log } := by
  have helement : ((convert sample element none).run.run {}).1 =
      .ok ⟨.named ⟨"Node", some Range.start.code⟩, []⟩ := by decide +kernel
  have hnext : ((convertProperty sample next).run.run {}).1 =
      .ok ⟨next.key.label, none, { ValueType.untyped with isOptional := true },
        some next.code⟩ := by
    decide +kernel
  obtain ⟨hschema, hproperty⟩ := convert_repeats sample {}
  constructor
  · obtain ⟨log, hagain⟩ := hschema element none _ _ (Prod.ext helement rfl)
    exact ⟨_, _, log, Prod.ext helement rfl, by decide +kernel, hagain⟩
  · obtain ⟨log, hagain⟩ := hproperty next _ _ (Prod.ext hnext rfl)
    exact ⟨_, _, log, Prod.ext hnext rfl, by decide +kernel, hagain⟩

end DanglingLink

end Schemata.Analysis
