import Schemata.Proofs.CallSites
import Schemata.Proofs.Repetition

/-!
# Schemas that are met again

A schema that becomes an entry may be met again while it is being converted. Whatever could be
done for it then has been done before its first part was converted, so that the second conversion
ends at the entry.
-/

namespace Schemata.Analysis

open Schema Source

/-- The conversion of a schema has got to its parts: its definitions have been visited, and there
is an entry of it under its name. -/
structure InProgress (setting : Setting) (view : View) (context : Context) : Prop where
  visited : Visited setting view context
  told : Told setting view context
  owned : ∃ name, setting.naming.infer view = .ok (some name) ∧
    context.source? name.value = some view.pointer

/-- The chain holds pointers of schemas that are met, and those among them that become entries
have got to their parts. -/
def Guarded (setting : Setting) (context : Context) : Prop :=
  ∀ pointer ∈ context.chain, ∃ outer, Met setting outer ∧ outer.pointer = pointer ∧
    (Named outer → InProgress setting outer context)

variable {setting : Setting} {view called : View} {loc calledLoc : Option LocationCode}
  {before after context : Context}

/-! ### What is kept -/

theorem Visited.precedes (h : Visited setting view before) (hafter : before.Precedes after) :
    Visited setting view after :=
  fun entry hentry => (h entry hentry).imp_right fun hmem => hafter.visited hmem

theorem Told.precedes (h : Told setting view before) (hafter : before.Precedes after) :
    Told setting view after :=
  fun hshape hstring hset => hafter.violations (h hshape hstring hset)

theorem InProgress.precedes (h : InProgress setting view before) (hafter : before.Precedes after) :
    InProgress setting view after where
  visited := h.visited.precedes hafter
  told := h.told.precedes hafter
  owned := by
    obtain ⟨name, hname, hsource⟩ := h.owned
    exact ⟨name, hname, hafter.sources _ _ hsource⟩

/-- What is on the chain does not matter to it. -/
theorem InProgress.enter (h : InProgress setting view context) (pointer : Pointer) :
    InProgress setting view (context.enter pointer) :=
  ⟨h.visited, h.told, h.owned⟩

theorem InProgress.note (h : InProgress setting view context) (event : Event) :
    InProgress setting view (context.note event) :=
  ⟨h.visited, h.told, h.owned⟩

theorem Guarded.precedes (h : Guarded setting before) (hafter : before.Precedes after) :
    Guarded setting after := by
  intro pointer hpointer
  obtain ⟨outer, hmet, heq, hprogress⟩ := h pointer (hafter.chain ▸ hpointer)
  exact ⟨outer, hmet, heq, fun hnamed => (hprogress hnamed).precedes hafter⟩

/-! ### Revisits -/

theorem repeats_visitDefinitions {convert : Converter} {entries : List Schema.Entry}
    (h : ∀ entry ∈ entries, entry.key.name ∈ setting.options.ignoreDefinitions ∨
      entry.view.pointer ∈ context.visited) :
    (visitDefinitions setting convert entries).Repeats () context := by
  induction entries with
  | nil => exact .pure ()
  | cons entry rest ih =>
      obtain ⟨hentry, hrest⟩ := List.forall_mem_cons.mp h
      exact .unlessVisited (hentry.imp_left decide_eq_true) (ih hrest)

theorem Action.Repeats.lift {α : Type} {result : Except Failure α} {value : α}
    (h : result = .ok value) : (liftM result : Action α).Repeats value context := by
  subst h
  exact .pure value

/-- A schema that has an entry does not become one again. -/
theorem InProgress.repeats_named (h : InProgress setting view context) {name : Label}
    (hname : setting.naming.infer view = .ok (some name)) (declare : Label → Action Unit) :
    (Action.named setting view declare).Repeats (.named name) context := by
  obtain ⟨other, hother, hsource⟩ := h.owned
  obtain rfl := Option.some.inj (Except.ok.inj (hname.symm.trans hother))
  refine .bind (.lift hname) (.bind (repeats_claim hsource fun hne => absurd rfl hne) ?_)
  exact .pure _

theorem InProgress.repeats_enumeration (h : InProgress setting view context) {name : Label}
    (hname : setting.naming.infer view = .ok (some name)) {convert : Converter}
    (hshape : view.shape = .ok .enumeration) (hnamed : Named view) :
    (enumeration setting convert view loc).Repeats (.named name) context := by
  obtain ⟨conversion, hconversion, hconverted⟩ := hnamed
  cases hstring : view.isStringEnum with
  | error failure => simp [View.conversionShape, hshape, hstring, bind, Except.bind] at hconversion
  | ok isString =>
      refine .bind (.lift hstring) ?_
      cases isString with
      | true => exact h.repeats_named hname _
      | false =>
          rw [conversionShape_of_otherEnum hshape hstring] at hconversion
          obtain rfl : conversion = .object := by
            rcases shapeOfType_cases hconversion with rfl | rfl | rfl
            · rfl
            all_goals exact absurd hconverted Bool.false_ne_true
          have htype : (byDeclaredType setting convert view loc).Repeats (.named name) context :=
            .bind (.lift hconversion) (h.repeats_named hname _)
          dsimp only
          split
          · contradiction
          · split
            next hset => exact .bind (.report (h.told hshape hstring hset)) htype
            next => exact htype

theorem InProgress.repeats_byShape (h : InProgress setting view context) {name : Label}
    (hname : setting.naming.infer view = .ok (some name)) {convert : Converter} {shape : Shape}
    (hshape : view.shape = .ok shape) (hnamed : Named view) :
    (byShape setting convert view loc shape).Repeats (.named name) context := by
  by_cases henum : shape = .enumeration
  · subst henum
    exact h.repeats_enumeration hname hshape hnamed
  · obtain ⟨conversion, hconversion, hconverted⟩ := hnamed
    obtain rfl := Except.ok.inj
      ((conversionShape_of_shape hshape henum).symm.trans hconversion)
    cases shape with
    | intersection | union | object => exact h.repeats_named hname _
    | enumeration => exact absurd rfl henum
    | reference | anyOf | typeList | array | primitive => exact absurd hconverted nofun

theorem Named.reference?_eq_none (h : Named view) : view.reference? = none := by
  obtain ⟨shape, hshape, hnamed⟩ := h
  cases hreference : view.reference? with
  | none => rfl
  | some reference =>
      obtain rfl := Except.ok.inj ((conversionShape_of_reference hreference).symm.trans hshape)
      exact absurd hnamed nofun

/-- A schema that is in progress is converted to its entry, whatever its parts may be converted
to. -/
theorem InProgress.repeats_step (h : InProgress setting view context) {name : Label}
    (hname : setting.naming.infer view = .ok (some name)) (hnamed : Named view)
    (convert : Converter) :
    (step setting convert view loc).Repeats ⟨.named name, view.paragraphs.getD []⟩ context := by
  obtain ⟨shape, hshape⟩ : ∃ shape, view.shape = .ok shape := by
    obtain ⟨_, hconversion, -⟩ := hnamed
    obtain ⟨shape, hshape, -⟩ := bind_eq_ok.mp hconversion
    exact ⟨shape, hshape⟩
  refine .bind (repeats_visitDefinitions h.visited) (.within (.bind (.lift hshape) ?_))
  rw [hnamed.reference?_eq_none]
  exact .bind (.note _) (.bind ((h.enter _).repeats_byShape hname hshape hnamed) (.pure _))

/-! ### Schemas on the chain -/

/-- A schema is on the chain, under its name if its entry is open, and all others that are there
are guarded. -/
structure Converting (setting : Setting) (view : View) (opened : Option Label) (context : Context) :
    Prop where
  visited : Visited setting view context
  told : Told setting view context
  owned : ∀ name, opened = some name → setting.naming.infer view = .ok (some name) ∧
    context.source? name.value = some view.pointer
  others : ∀ pointer ∈ context.chain, pointer = view.pointer ∨
    ∃ outer, Met setting outer ∧ outer.pointer = pointer ∧
      (Named outer → InProgress setting outer context)

namespace Converting

variable {opened : Option Label}

theorem precedes (h : Converting setting view opened before) (hafter : before.Precedes after) :
    Converting setting view opened after where
  visited := h.visited.precedes hafter
  told := h.told.precedes hafter
  owned name hname := (h.owned name hname).imp_right fun hsource => hafter.sources _ _ hsource
  others pointer hpointer := by
    refine (h.others pointer (hafter.chain ▸ hpointer)).imp_right ?_
    rintro ⟨outer, hmet, heq, hprogress⟩
    exact ⟨outer, hmet, heq, fun hnamed => (hprogress hnamed).precedes hafter⟩

/-- While the entry of a schema is open, it has its name. -/
theorem opens (h : Converting setting view none before) (hafter : before.Precedes after)
    {name : Label} (hname : setting.naming.infer view = .ok (some name))
    (hsource : after.source? name.value = some view.pointer) :
    Converting setting view (some name) after :=
  { h.precedes hafter with
    owned := by
      rintro _ ⟨⟩
      exact ⟨hname, hsource⟩ }

/-- At each call, the chain is guarded: only parts of named schemas are called for while these are
on it. -/
theorem guarded (h : Converting setting view opened context) (hview : Met setting view)
    (hcall : Calls setting view loc opened context called calledLoc) : Guarded setting context := by
  intro pointer hpointer
  rcases h.others pointer hpointer with rfl | houter
  · refine ⟨view, hview, rfl, fun hnamed => ?_⟩
    cases hcall with
    | target htarget =>
        exact absurd hnamed (Unnamed.not_named ⟨_, htarget.conversionShape, rfl⟩)
    | item hitem => exact absurd hnamed (Unnamed.not_named ⟨_, hitem.1, rfl⟩)
    | part hpart => exact ⟨h.visited, h.told, _, h.owned _ rfl⟩
  · exact houter

end Converting

theorem Exhausts.guarded {opened : Option Label} {start : Context} (hview : Met setting view)
    (h : Exhausts setting ((convert setting).without called calledLoc context) view loc opened
      start)
    (hstart : Converting setting view opened start) :
    Met setting called ∧ Guarded setting context := by
  have hkeeps : KeepsAll ((convert setting).without called calledLoc context) :=
    keepsAll_without (convertWithin_keeps setting _)
  induction h with
  | call hcall hdeep =>
      have hcalled : Met setting _ := hview.tail (.own hcall.dependsOn)
      obtain ⟨rfl, rfl, rfl⟩ := eq_of_tooDeep hcalled.reachable hdeep
      exact ⟨hcalled, hstart.guarded hview hcall⟩
  | later hcourse _ ih => exact ih (hstart.precedes (hcourse.keeps hkeeps).precedes)
  | typePart hname _ ih =>
      exact ih (hstart.opens (Context.Keeps.addType hname.2).precedes hname.1
        (Context.source?_addType hname.2))
  | unionPart hname _ ih =>
      exact ih (hstart.opens (Context.Keeps.addUnion hname.2).precedes hname.1
        (Context.source?_addUnion hname.2))

/-- Wherever a conversion comes to, the chain is guarded. -/
theorem Comes.guarded (h : Comes setting view loc context) :
    Met setting view ∧ Guarded setting context := by
  have hkeeps := convertWithin_keeps setting setting.depth
  induction h with
  | root => exact ⟨.refl, fun _ hpointer => absurd hpointer List.not_mem_nil⟩
  | call _ hcall ih =>
      obtain ⟨hmet, hguarded⟩ := ih
      rcases hcall.cases hkeeps with ⟨entry, hentry, hwanted, current, hcurrent, hdeep⟩ |
        ⟨middle, hmiddle, hvisited, start, hstart, htold, hexhausts⟩
      · have hcalled : Met setting entry.view :=
          hmet.tail (.definition ⟨entry, hentry, hwanted, rfl⟩)
        obtain ⟨rfl, rfl, rfl⟩ := eq_of_tooDeep hcalled.reachable hdeep
        exact ⟨hcalled, hguarded.precedes (hcurrent.trans (.visit current _)).precedes⟩
      · have hothers := hguarded.precedes hmiddle.precedes
        refine hexhausts.guarded hmet ⟨?_, htold, nofun, fun pointer hpointer => ?_⟩
        · exact fun entry hentry => (hvisited entry hentry).imp_right (hstart.precedes.visited ·)
        · rw [hstart.chain] at hpointer
          refine (List.mem_cons.mp hpointer).imp_right fun hlater => ?_
          obtain ⟨outer, houter, heq, hprogress⟩ := hothers pointer hlater
          exact ⟨outer, houter, heq, fun hnamed =>
            ((hprogress hnamed).enter _).precedes hstart.precedes⟩

/-! ### References -/

/-- A conversion of the document comes to follow the reference of a schema, in the state in which
the schema it refers to would be converted. -/
inductive Meets (setting : Setting) :
    View → Option LocationCode → Context → View → Prop
  | intro {view target : View} {loc : Option LocationCode} {before middle : Context}
      (hview : Comes setting view loc before)
      (hvisited : (visitDefinitions setting (convert setting) (definitionEntries view)).Returns
        before () middle)
      (htarget : RefersTo setting view target) :
      Meets setting view loc ((middle.enter view.pointer).note (.parsing view.pointer .reference))
        target

theorem returns_dereference {reference target : View} {pointer : Pointer}
    (hpointer : reference.string? = some pointer)
    (hresolve : resolve setting.document pointer = .ok (some target)) :
    (dereference setting reference).Returns context (some target) context := by
  rw [dereference, hpointer]
  dsimp only
  rw [hresolve]
  rfl

/-- The conversion of a schema with a reference is as deep as that of what it refers to. -/
theorem tooDeep_step_of_target {convert : Converter} {target : View} {middle : Context}
    (hvisited : (visitDefinitions setting convert (definitionEntries view)).Returns before ()
      middle)
    (hcontext : context = (middle.enter view.pointer).note (.parsing view.pointer .reference))
    (htarget : RefersTo setting view target)
    (hfree : target.pointer ∈ context.chain → Named target)
    (hdeep : ((convert target loc).run.run context).1 = .error .tooDeep) :
    ((step setting convert view loc).run.run before).1 = .error .tooDeep := by
  obtain ⟨reference, pointer, hreference, hpointer, hresolve⟩ := htarget
  have hcall : ((convertTarget convert view loc target).run.run context).1 = .error .tooDeep :=
    Action.fst_run_bind_of_error hdeep
  rw [fst_run_step hvisited, dispatch,
    Action.run_bind_of_returns (.lift (shape_of_reference hreference)),
    Action.run_bind_of_returns (.note _), ← hcontext, hreference]
  dsimp only
  rw [follow_eq, Action.run_bind_of_returns (returns_dereference hpointer hresolve)]
  dsimp only
  rw [Action.run_bind_of_returns .get]
  by_cases hchain : target.pointer ∈ context.chain
  · obtain ⟨shape, hshape, hnamed⟩ := hfree hchain
    rw [if_pos hchain, Action.run_bind_of_returns (.lift hshape), hnamed]
    exact hcall
  · rw [if_neg hchain]
    exact hcall

/-- A call that a reference makes is one that the conversion comes to. -/
theorem Meets.comes {target : View} (h : Meets setting view loc context target)
    (hfree : target.pointer ∈ context.chain → Named target) : Comes setting target loc context := by
  obtain @⟨_, _, before, middle, hview, hvisited, htarget⟩ := h
  refine hview.call ?_
  rw [Asks]
  generalize hcontext : (middle.enter view.pointer).note (.parsing view.pointer .reference) =
    context at hfree
  have hagrees : ((convert setting).without target loc context).Agrees (convert setting) :=
    agrees_without
  -- Visiting the definitions is too deep already, or as it is with the call.
  by_cases hdeep : ((visitDefinitions setting ((convert setting).without target loc context)
      (definitionEntries view)).run.run before).1 = .error .tooDeep
  · exact Action.fst_run_bind_of_error hdeep
  · have hsame := agrees_visitDefinitions setting hagrees (definitionEntries view) before hdeep
    exact tooDeep_step_of_target (hsame.symm.trans hvisited) hcontext.symm htarget hfree
      (congrArg Prod.fst run_without_self)

theorem Meets.inProgress {target : View} (hdistinct : DistinctKeys setting.document)
    (h : Meets setting view loc context target) (hchain : target.pointer ∈ context.chain)
    (hnamed : Named target) : InProgress setting target context := by
  obtain ⟨hview, hvisited, htarget⟩ := h
  obtain ⟨hmet, hguarded⟩ := hview.guarded
  have htargetMet : Met setting target := hmet.tail (.own (.target htarget))
  have hroot := Placed.root setting.document
  have hkept := (ensures_visitDefinitions (convertWithin_keeps setting setting.depth)
    (definitionEntries view)).of_returns hvisited
  rcases List.mem_cons.mp hchain with hown | hlater
  -- A schema that refers to itself is no entry.
  · obtain rfl := htargetMet.eq_of_pointer hdistinct hroot hmet hown
    exact absurd hnamed (Unnamed.not_named ⟨_, htarget.conversionShape, rfl⟩)
  · obtain ⟨outer, houter, heq, hprogress⟩ := hguarded.precedes hkept.1.precedes _ hlater
    obtain rfl := houter.eq_of_pointer hdistinct hroot htargetMet heq
    exact ((hprogress hnamed).enter _).note _

/-- In a document without repeated keys, a reference to a schema that is being converted and
becomes an entry ends at this entry: the schema has its name already, and is converted to it
whatever its parts would be converted to. Nothing but the log is changed. -/
theorem revisit_ends_at_entry {target : View} (hdistinct : DistinctKeys setting.document)
    (h : Meets setting view loc context target) (hchain : target.pointer ∈ context.chain)
    (hnamed : Named target) :
    Comes setting target loc context ∧
    ∃ name owner, setting.naming.infer target = .ok (some name) ∧
      context.lookup name.value = some owner ∧ owner.source = target.pointer ∧
      (∀ other : Converter, ∃ log, (step setting other target loc).Returns context
        ⟨.named name, target.paragraphs.getD []⟩ { context with log := log }) ∧
      ∃ log, (convert setting target loc).Returns context
        ⟨.named name, target.paragraphs.getD []⟩ { context with log := log } := by
  have hprogress := h.inProgress hdistinct hchain hnamed
  obtain ⟨name, hname, hsource⟩ := hprogress.owned
  obtain ⟨owner, howner, heq⟩ := Option.map_eq_some_iff.mp hsource
  have hsteps : ∀ other : Converter, ∃ log, (step setting other target loc).Returns context
      ⟨.named name, target.paragraphs.getD []⟩ { context with log := log } :=
    fun other => hprogress.repeats_step hname hnamed other context (.refl context)
  refine ⟨h.comes fun _ => hnamed, name, owner, hname, howner, heq, hsteps, ?_⟩
  obtain ⟨depth, hdepth⟩ : ∃ depth, setting.depth = depth + 1 :=
    Nat.exists_eq_succ_of_ne_zero (by simp [Setting.depth])
  rw [convert, hdepth]
  exact hsteps (convertWithin setting depth)

namespace RecursiveRoot

def link : View :=
  ⟨bareObject [("$ref", bareString "#")], "#/properties/next"⟩

/-- An object schema with a property that refers to it. -/
def sample : Setting :=
  ⟨bareObject [("title", bareString "List"), ("type", bareString "object"),
    ("properties", bareObject [("next", link.node)])], "", {}⟩

def root : View :=
  View.root sample.document

def name : Label :=
  ⟨"List", some Range.start.code⟩

/-- The state in which the property is converted. -/
def opened : Context :=
  (((({} : Context).enter root.pointer).note (.parsing root.pointer .object)).addType
    (newType root name (some root.code))).note (.registered .object name.value root.pointer)

/-- The conversion of the root is as deep as that of its property. -/
theorem tooDeep_step_root {convert : Converter}
    (hdeep : ((convert link (some Range.start.code)).run.run opened).1 = .error .tooDeep) :
    ((step sample convert root (some root.code)).run.run {}).1 = .error .tooDeep := by
  have hname : sample.naming.infer root = .ok (some name) := by decide +kernel
  have hbody : ((objectBody sample convert root).run.run opened).1 = .error .tooDeep :=
    Action.fst_run_bind_of_error (Action.fst_run_bind_of_error (Action.fst_run_bind_of_error hdeep))
  have hclaim : ∀ before : Context, before.lookup name.value = none →
      (Action.claim sample name root).Returns before true before := by
    intro before hfree
    rw [Action.claim, Action.returns_get, hfree]
    rfl
  have hvisited : (visitDefinitions sample convert (definitionEntries root)).Returns {} () {} := rfl
  have hshape : root.shape = .ok .object := rfl
  have hreference : root.reference? = none := rfl
  rw [fst_run_step hvisited, dispatch, Action.run_bind_of_returns (.lift hshape),
    Action.run_bind_of_returns (.note _), hreference]
  refine Action.fst_run_bind_of_error ?_
  rw [byShape, object, typeEntry, Action.named, Action.run_bind_of_returns (.lift hname)]
  dsimp only
  rw [Action.run_bind_of_returns (hclaim _ rfl)]
  refine Action.fst_run_bind_of_error ?_
  change ((objectBody sample convert root >>= _).run.run opened).1 = _
  exact Action.fst_run_bind_of_error hbody

theorem meets_root :
    Meets sample link (some Range.start.code)
      ((opened.enter link.pointer).note (.parsing link.pointer .reference)) root := by
  refine .intro (.call .root (tooDeep_step_root (congrArg Prod.fst run_without_self))) rfl ?_
  exact ⟨⟨bareString "#", "#/properties/next/$ref"⟩, "#", rfl, rfl, rfl⟩

/-- The root is converted to its own type when it is met again. -/
theorem revisit_recursiveRoot :
    Meets sample link (some Range.start.code)
      ((opened.enter link.pointer).note (.parsing link.pointer .reference)) root ∧
    ∃ log, (convert sample root (some Range.start.code)).Returns
      ((opened.enter link.pointer).note (.parsing link.pointer .reference)) ⟨.named name, []⟩
      { opened.enter link.pointer with log := log } := by
  have hdistinct : DistinctKeys sample.document := by decide +kernel
  have hnamed : Named root := ⟨.object, rfl, rfl⟩
  obtain ⟨-, found, _, hfound, -, -, -, hreturns⟩ :=
    revisit_ends_at_entry hdistinct meets_root (by decide +kernel) hnamed
  obtain rfl : found = name := (Option.some.inj (Except.ok.inj hfound)).symm
  exact ⟨meets_root, hreturns⟩

end RecursiveRoot

end Schemata.Analysis
