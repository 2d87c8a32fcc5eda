import Schemata.Proofs.Exploration

/-!
# Circular references

A reference is recorded as circular when its target is being converted and can have no
entry. Such a target encloses the reference: some descent leads from what the target
depends on back to it. The descent need not keep to references and arrays. It may also go
through parts of named schemas and through definitions.
-/

namespace Schemata.Analysis

open Schema Source

/-- A schema refers to one that encloses it and can have no entry. -/
structure LoopsBack (setting : Setting) (view target : View) : Prop where
  refers : RefersTo setting view target
  unnamed : Unnamed target
  encloses : Encloses setting target view

/-- Every record of a circular reference in a state is one of a schema on the descents from
`entry` for which the given property holds. -/
def CircularOnly (setting : Setting) (entry : View) (holds : View → Prop) (context : Context) :
    Prop :=
  ∀ violation ∈ context.violations, violation.code = .circularReference →
    ∃ view reference, Descends setting entry view ∧ view.reference? = some reference ∧
      violation = circularViolation setting reference ∧ holds view

variable {setting : Setting} {entry view other : View} {before after : Context}

theorem CircularOnly.imp {holds holdsToo : View → Prop}
    (h : CircularOnly setting entry holds before)
    (himp : ∀ view, Descends setting entry view → holds view → holdsToo view) :
    CircularOnly setting entry holdsToo before := by
  intro violation hviolation hcode
  obtain ⟨view, reference, hview, hreference, heq, hholds⟩ := h violation hviolation hcode
  exact ⟨view, reference, hview, hreference, heq, himp view hview hholds⟩

/-! ### Records are made of stopped references -/

/-- A conversion may come to a reference while its target is being converted and can have no
entry. -/
def Stopped (setting : Setting) (entry view : View) : Prop :=
  ∃ chain target, Arrives setting entry view chain ∧ RefersTo setting view target ∧
    target.pointer ∈ view.pointer :: chain ∧ Unnamed target

/-- Wherever conversions lead, they record stopped references only. -/
def RecordsStopped (setting : Setting) (entry : View) (convert : Converter) : Prop :=
  ∀ view loc before after, (convert view loc).Leads false before after →
    Arrives setting entry view before.chain →
    CircularOnly setting entry (Stopped setting entry) before →
    CircularOnly setting entry (Stopped setting entry) after

theorem CircularOnly.record {holds : View → Prop} {violation : Violation}
    (h : CircularOnly setting entry holds before)
    (hnew : violation.code = .circularReference →
      ∃ view reference, Descends setting entry view ∧ view.reference? = some reference ∧
        violation = circularViolation setting reference ∧ holds view) :
    CircularOnly setting entry holds (before.record violation) := by
  intro other hother hcode
  rcases Context.mem_violations_of_record hother with hbefore | rfl
  · exact h other hbefore hcode
  · exact hnew hcode

section Runs

variable {convert : Converter} {loc : Option LocationCode} (hcontinues : Continues convert)
  (hrecords : RecordsStopped setting entry convert)

include hcontinues hrecords

theorem Course.circularOnly {returning : Bool} {opened : Option Label} {chain : List Pointer}
    (hview : Arrives setting entry view chain)
    (hcourse : Course setting convert view loc returning opened before after)
    (hchain : before.chain = view.pointer :: chain)
    (h : CircularOnly setting entry (Stopped setting entry) before) :
    CircularOnly setting entry (Stopped setting entry) after := by
  induction hcourse with
  | done => exact h
  | andThen hfirst _ ihFirst ihSecond =>
      exact ihSecond ((hfirst.extends hcontinues).chain.trans hchain) (ihFirst hchain h)
  | note _ => exact h
  | report hreport =>
      refine h.record fun hcode => ?_
      cases hreport with
      | @circular reference target shape hreference htarget hmem hshape hunnamed _ =>
          refine ⟨view, reference, hview.descends, hreference, rfl, chain, target, hview, htarget,
            hchain ▸ hmem, shape, hshape, hunnamed⟩
      | excluded _ _ hproblem => rcases hproblem with rfl | rfl <;> exact absurd hcode nofun
      | _ => exact absurd hcode nofun
  | convert hcall hcalled =>
      exact hrecords _ _ _ _ ⟨hcalled.1, nofun⟩ (hview.call hchain hcall) h
  | enumEntry _ _ => exact h
  | typeOpened _ _ _ _ ih => exact ih hchain h
  | typeEntry _ _ _ hstart _ _ ihStart ih =>
      exact ih ((hstart.extends hcontinues).chain.trans hchain) (ihStart hchain h)
  | unionOpened _ _ _ ih => exact ih hchain h
  | unionEntry _ _ hstart _ _ ihStart ih =>
      exact ih ((hstart.extends hcontinues).chain.trans hchain) (ihStart hchain h)

theorem Conversion.circularOnly (hconversion : Conversion setting convert view loc before after)
    (hview : Arrives setting entry view before.chain)
    (h : CircularOnly setting entry (Stopped setting entry) before) :
    CircularOnly setting entry (Stopped setting entry) after := by
  induction hconversion with
  | done => exact h
  | andThen hfirst _ ihFirst ihSecond =>
      refine ihSecond ?_ (ihFirst hview h)
      rw [(hfirst.extends hcontinues).chain]
      exact hview
  | definition hvisitable hcalled =>
      have hdefinition : Defines setting view _ := ⟨_, hvisitable.1, hvisitable.2.1, rfl⟩
      exact hrecords _ _ _ _ hcalled (hview.definition hdefinition) h
  | within _ hcourse =>
      have hstop := hcourse.circularOnly hcontinues hrecords hview rfl h
      exact hstop

end Runs

theorem convertWithin_recordsStopped (setting : Setting) (entry : View) (depth : Nat) :
    RecordsStopped setting entry (convertWithin setting depth) := by
  induction depth with
  | zero =>
      rintro _ _ _ _ ⟨rfl, -⟩ _ h
      exact h
  | succ depth ih =>
      rintro _ _ _ _ ⟨rfl, -⟩ hview h
      exact (conversion_step _ _ _ _ _).circularOnly (convertWithin_continues setting depth) ih
        hview h

/-- Whatever comes of the conversion of a document, it records stopped references only. -/
theorem analyze_circularOnly (setting : Setting) :
    CircularOnly setting (View.root setting.document)
      (Stopped setting (View.root setting.document)) (analyze setting).2 :=
  convertWithin_recordsStopped setting _ setting.depth _ _ _ _ ⟨rfl, nofun⟩ .start
    fun _ hmem => absurd hmem List.not_mem_nil

/-- What stops a reference encloses it. -/
theorem Stopped.loopsBack (hdistinct : DistinctKeys setting.document)
    (hentry : Placed setting.document entry) (h : Stopped setting entry view) :
    ∃ target, LoopsBack setting view target := by
  obtain ⟨chain, target, hview, hrefers, hmem, hunnamed⟩ := h
  refine ⟨target, hrefers, hunnamed, ?_⟩
  have hbelow : Descends setting entry target := hview.descends.tail (.own (.target hrefers))
  -- On the chain are the schema itself and what encloses it.
  rcases List.mem_cons.mp hmem with heq | houter
  · obtain rfl := hbelow.eq_of_pointer hdistinct hentry hview.descends heq
    exact (DependsOn.target hrefers).encloses
  · obtain ⟨outer, houter, heq, hencloses⟩ := hview.encloses houter
    obtain rfl := houter.eq_of_pointer hdistinct hentry hbelow heq
    exact hencloses

/-! ### Enclosed references are recorded -/

theorem ensures_visitDefinitions_of_unwanted {convert : Converter} {entries : List Schema.Entry}
    (hunwanted : ∀ entry ∈ entries, entry.key.name ∈ setting.options.ignoreDefinitions) :
    (visitDefinitions setting convert entries).Ensures before (fun _ after => after = before)
      fun _ _ => True := by
  induction entries with
  | nil => exact rfl
  | cons found rest ih =>
      have hskip : (decide (found.key.name ∈ setting.options.ignoreDefinitions) ||
          decide (found.view.pointer ∈ before.visited)) = true := by
        simp [hunwanted found List.mem_cons_self]
      rw [visitDefinitions, Action.ensures_bind, Action.ensures_get, if_pos hskip]
      exact ih fun other hother => hunwanted other (List.mem_cons_of_mem found hother)

/-- When a schema without entry and definitions is converted first, every reference to it on
the descents from it is recorded. -/
theorem convert_records_enclosed {loc : Option LocationCode} {converted : Converted}
    (hdistinct : DistinctKeys setting.document) (hentry : Placed setting.document entry)
    (hapart : NamesApart setting entry) (hunnamed : Unnamed entry)
    (hdefinitions : ∀ definition, ¬ Defines setting entry definition)
    (hreturns : (convert setting entry loc).Returns {} converted after)
    (hview : Descends setting entry view) (hrefers : RefersTo setting view entry) :
    Recorded setting after view := by
  have hbegun := convertWithin_begins setting _ _ _ _ _ _ hreturns
  have hchain : after.chain = [] :=
    (convertWithin_continues setting _ _ _ _ _ (hreturns.leads false)).chain
  unfold convert at hreturns
  cases hdepth : setting.depth with
  | zero =>
      rw [hdepth] at hreturns
      exact absurd hreturns nofun
  | succ depth =>
      rw [hdepth] at hreturns
      have hunwanted : ∀ found ∈ definitionEntries entry,
          found.key.name ∈ setting.options.ignoreDefinitions := fun found hmem =>
        Classical.byContradiction fun hwanted => hdefinitions _ ⟨found, hmem, hwanted, rfl⟩
      -- Nothing is visited, so that the schema goes onto the chain first.
      have hexplores : (step setting (convertWithin setting depth) entry loc).Ensures {}
          (fun _ after => Explores setting entry [entry.pointer] {} after) fun _ _ => True := by
        rw [step, Action.ensures_bind]
        refine (ensures_visitDefinitions_of_unwanted hunwanted).imp ?_ fun _ _ _ => trivial
        rintro _ _ rfl
        exact explores_within hdistinct hentry hapart (convertWithin_begins setting depth)
          (convertWithin_recordsCycles setting depth) (convertWithin_goesRound hdistinct depth)
          (convertWithin_continues setting depth)
          (convertWithin_keepsExplored hdistinct hentry hapart depth) .start (List.Subset.refl _)
          (fun definition hdefinition => absurd hdefinition (hdefinitions definition))
          (.empty setting entry _)
      exact ((hexplores.of_returns hreturns).finished hbegun hchain hview).2.recorded
        entry hrefers hunnamed List.mem_cons_self

/-! ### Bare cycles -/

/-- Whenever a schema refers to one that encloses it and can have no entry, references and
arrays alone lead from the one to the other. -/
def LoopsBare (setting : Setting) (entry : View) : Prop :=
  ∀ view target, Descends setting entry view → LoopsBack setting view target →
    Walks setting target view

theorem Stopped.passes (hdistinct : DistinctKeys setting.document)
    (hentry : Placed setting.document entry) (hloops : LoopsBare setting entry)
    (h : Stopped setting entry view) (hrefers : RefersTo setting view other) :
    Walks setting other view := by
  obtain ⟨target, hloop⟩ := h.loopsBack hdistinct hentry
  obtain ⟨_, _, hview, -⟩ := id h
  obtain rfl := hrefers.unique hloop.refers
  exact hloops view other hview.descends hloop

/-- If loops are bare, references are stopped on bare cycles only. -/
theorem Stopped.onBareCycle (hdistinct : DistinctKeys setting.document)
    (hentry : Placed setting.document entry) (hloops : LoopsBare setting entry)
    (h : Stopped setting entry view) : OnBareCycle setting view := by
  obtain ⟨_, target, -, hrefers, -⟩ := id h
  exact ⟨target, .inl hrefers, h.passes hdistinct hentry hloops hrefers⟩

/-- Without definitions on bare cycles, only the end of a round stops a reference. -/
theorem Stopped.closesCycle (hdistinct : DistinctKeys setting.document)
    (hentry : Placed setting.document entry) (hloops : LoopsBare setting entry)
    (hbare : CyclesBare setting entry) (h : Stopped setting entry view) :
    ClosesCycle setting entry view := by
  have hcycle := h.onBareCycle hdistinct hentry hloops
  obtain ⟨chain, target, hview, hrefers, hmem, -⟩ := h
  obtain ⟨base, hentered, hbaseCycle, hround⟩ := hview.round hdistinct hentry hbare hcycle
  exact ⟨base, hentered, hround.closes hbaseCycle hrefers hmem⟩

/-- If loops are bare, circular references are recorded on bare cycles only. A loop that is
not bare is recorded as well, by a conversion that begins with its target. Whatever the
order, every bare cycle is recorded. If no bare cycle holds a definition, what is recorded
are the references that close a round from where a cycle is entered, in any order. -/
theorem circular_references (hdistinct : DistinctKeys setting.document) :
    (LoopsBare setting (View.root setting.document) →
      CircularOnly setting (View.root setting.document) (OnBareCycle setting)
        (analyze setting).2) ∧
    (∀ target, Descends setting (View.root setting.document) target → Unnamed target →
      (∀ definition, ¬ Defines setting target definition) → NamesApart setting target →
      ∀ loc converted after, (convert setting target loc).Returns {} converted after →
        ∀ view, Descends setting target view → RefersTo setting view target →
          Recorded setting after view) ∧
    (NamesApart setting (View.root setting.document) →
      ∀ converted, (analyze setting).1 = .ok converted →
        ∀ view, Descends setting (View.root setting.document) view →
          RecordsCycle setting (analyze setting).2 view) ∧
    (CyclesBare setting (View.root setting.document) →
      (LoopsBare setting (View.root setting.document) →
        CircularOnly setting (View.root setting.document)
          (ClosesCycle setting (View.root setting.document)) (analyze setting).2) ∧
      (NamesApart setting (View.root setting.document) →
        ∀ converted, (analyze setting).1 = .ok converted →
          ∀ view, ClosesCycle setting (View.root setting.document) view →
            Recorded setting (analyze setting).2 view)) := by
  have hroot := Placed.root setting.document
  refine ⟨fun hloops => ?_, ?_, ?_, fun hbare => ⟨fun hloops => ?_, ?_⟩⟩
  · exact (analyze_circularOnly setting).imp fun view _ hstopped =>
      hstopped.onBareCycle hdistinct hroot hloops
  · intro target htarget hunnamed hdefinitions hapart loc converted after hreturns view hview
      hrefers
    exact convert_records_enclosed hdistinct (htarget.placed hdistinct hroot) hapart hunnamed
      hdefinitions hreturns hview hrefers
  · intro hapart converted hreturns view hview
    exact (analyze_finished hdistinct hapart hreturns hview).2.cycle
  · exact (analyze_circularOnly setting).imp fun view _ hstopped =>
      hstopped.closesCycle hdistinct hroot hloops hbare
  · rintro hapart converted hreturns view ⟨base, hentered, hcloses⟩
    exact analyze_rounded hdistinct hapart hreturns hbare hentered view hcloses

namespace NestedList

def item : View :=
  ⟨bareObject [("$ref", bareString "#/definitions/List")], "#/definitions/List/items"⟩

def list : View :=
  ⟨bareObject [("type", bareString "array"), ("items", item.node)], "#/definitions/List"⟩

/-- A definition of lists of themselves. -/
def sample : Setting :=
  ⟨bareObject [("definitions", bareObject [("List", list.node)])], "", {}⟩

def root : View :=
  View.root sample.document

theorem descends_cases {view : View} (h : Descends sample root view) :
    view = root ∨ view = list ∨ view = item := by
  have hcalled : calledFor sample root = [list] ∧ calledFor sample list = [item] ∧
      calledFor sample item = [list] := ⟨rfl, rfl, rfl⟩
  have hmem : view ∈ [root, list, item] := h.mem_of_closed List.mem_cons_self (by simp [hcalled])
  simpa using hmem

theorem listsItem_list : ListsItem list item :=
  ⟨rfl, rfl⟩

theorem refersTo_item : RefersTo sample item list :=
  ⟨_, _, rfl, rfl, rfl⟩

theorem descends_list : Descends sample root list :=
  .single (.definition (mem_wantedDefinitions_iff.mp List.mem_cons_self))

theorem loopsBare : LoopsBare sample root := by
  intro view target hview hloop
  have hreference : view.reference? ≠ none := by
    obtain ⟨_, _, hreference, -⟩ := hloop.refers
    simp [hreference]
  rcases descends_cases hview with rfl | rfl | rfl
  · exact absurd rfl hreference
  · exact absurd rfl hreference
  · obtain rfl := hloop.refers.unique refersTo_item
    exact .single (.inr listsItem_list)

theorem namesApart {entry : View} (hentry : Descends sample root entry) :
    NamesApart sample entry := by
  intro view _ kind _ _ hview _ hregisters _
  have hunnamed : Unnamed root ∧ Unnamed list ∧ Unnamed item :=
    ⟨⟨.primitive, rfl, rfl⟩, ⟨.array, rfl, rfl⟩, ⟨.reference, rfl, rfl⟩⟩
  rcases descends_cases (hentry.trans hview) with rfl | rfl | rfl
  · exact absurd hregisters.named hunnamed.1.not_named
  · exact absurd hregisters.named hunnamed.2.1.not_named
  · exact absurd hregisters.named hunnamed.2.2.not_named

theorem not_defines {view definition : View} (hview : view = list ∨ view = item) :
    ¬ Defines sample view definition := by
  have hnone : wantedDefinitions sample list = [] ∧ wantedDefinitions sample item = [] := ⟨rfl, rfl⟩
  rw [← mem_wantedDefinitions_iff]
  rcases hview with rfl | rfl
  · exact hnone.1 ▸ List.not_mem_nil
  · exact hnone.2 ▸ List.not_mem_nil

theorem cyclesBare : CyclesBare sample root := by
  intro view definition hview hcycle
  rcases descends_cases hview with rfl | hview
  · obtain ⟨_, hpasses, -⟩ := hcycle
    rcases hpasses with ⟨_, _, hreference, -⟩ | hitem
    · exact absurd hreference nofun
    · exact absurd hitem.2 nofun
  · exact not_defines hview

theorem walks_cases {view : View} (h : Walks sample list view) : view = list ∨ view = item := by
  induction h with
  | refl => exact .inl rfl
  | tail _ hstep ih =>
      rcases ih with rfl | rfl
      · exact .inr (hstep.unique (.inr listsItem_list))
      · exact .inl (hstep.unique (.inl refersTo_item))

theorem closesCycle_item : ClosesCycle sample root item := by
  refine ⟨list, .inr ⟨root, .refl, ?_, fun hwalk => ?_⟩, ⟨list, refersTo_item⟩, item, ?_, ?_, .refl⟩
  · exact .definition (mem_wantedDefinitions_iff.mp List.mem_cons_self)
  · have hpointers : root.pointer ≠ list.pointer ∧ root.pointer ≠ item.pointer := by decide
    rcases walks_cases hwalk with heq | heq
    · exact hpointers.1 (congrArg View.pointer heq)
    · exact hpointers.2 (congrArg View.pointer heq)
  · exact .single (.inr listsItem_list)
  · exact .inl refersTo_item

/-- The items of the lists are the one circular reference. -/
theorem circular_nestedList :
    CircularOnly sample root (OnBareCycle sample) (analyze sample).2 ∧
      Recorded sample ((convert sample list none).run.run {}).2 item ∧
      RecordsCycle sample (analyze sample).2 list ∧
      CircularOnly sample root (ClosesCycle sample root) (analyze sample).2 ∧
      ClosesCycle sample root item ∧ Recorded sample (analyze sample).2 item := by
  have hdistinct : DistinctKeys sample.document := by decide +kernel
  obtain ⟨honly, henclosed, hcycle, hrounds⟩ := circular_references hdistinct
  obtain ⟨hcloses, hrecorded⟩ := hrounds cyclesBare
  have hreturns : ((convert sample list none).run.run {}).1 = .ok ⟨.untypedArray, []⟩ := by
    decide +kernel
  have hanalyze : (analyze sample).1 = .ok ⟨.untyped, []⟩ := by decide +kernel
  refine ⟨honly loopsBare, ?_, hcycle (namesApart .refl) _ hanalyze list descends_list,
    hcloses loopsBare, closesCycle_item, hrecorded (namesApart .refl) _ hanalyze _ closesCycle_item⟩
  exact henclosed list descends_list ⟨.array, rfl, rfl⟩ (fun _ => not_defines (.inl rfl))
    (namesApart descends_list) none _ _ (Prod.ext hreturns rfl) item
    (.single (.own (.item listsItem_list))) refersTo_item

end NestedList

namespace Detour

def next : View :=
  ⟨bareObject [("$ref", bareString "#/definitions/List")], "#/definitions/Node/properties/next"⟩

def node : View :=
  ⟨bareObject [("type", bareString "object"), ("properties", bareObject [("next", next.node)])],
    "#/definitions/Node"⟩

def item : View :=
  ⟨bareObject [("$ref", bareString "#/definitions/Node")], "#/definitions/List/items"⟩

def list : View :=
  ⟨bareObject [("type", bareString "array"), ("items", item.node)], "#/definitions/List"⟩

def sample (definitions : List (String × Json.Node)) : Setting :=
  ⟨bareObject [("definitions", bareObject definitions)], "", {}⟩

/-- Lists of objects, each of which has a list of its own. -/
def listFirst : Setting :=
  sample [("List", list.node), ("Node", node.node)]

def nodeFirst : Setting :=
  sample [("Node", node.node), ("List", list.node)]

def root : View :=
  View.root listFirst.document

theorem descends_cases {view : View} (h : Descends listFirst root view) :
    view = root ∨ view = list ∨ view = item ∨ view = node ∨ view = next := by
  have hcalled : calledFor listFirst root = [list, node] ∧ calledFor listFirst list = [item] ∧
      calledFor listFirst item = [node] ∧ calledFor listFirst node = [next] ∧
      calledFor listFirst next = [list] := ⟨rfl, rfl, rfl, rfl, rfl⟩
  have hmem : view ∈ [root, list, item, node, next] :=
    h.mem_of_closed List.mem_cons_self (by simp [hcalled])
  simpa using hmem

theorem not_onBareCycle_node : ¬ OnBareCycle listFirst node := by
  rintro ⟨_, hpasses, -⟩
  have hnamed : Named node := ⟨.object, rfl, rfl⟩
  exact hpasses.unnamed.not_named hnamed

/-- A step on a bare cycle stays on it, but these lead to an object. -/
theorem not_onBareCycle {view : View} (hview : view = item ∨ view = next) :
    ¬ OnBareCycle listFirst view := by
  have hitem : Passes listFirst item node := .inl ⟨_, _, rfl, rfl, rfl⟩
  have hlist : Passes listFirst list item := .inr ⟨rfl, rfl⟩
  have hnext : Passes listFirst next list := .inl ⟨_, _, rfl, rfl, rfl⟩
  rcases hview with rfl | rfl
  · exact fun h => not_onBareCycle_node (h.passes hitem)
  · exact fun h => not_onBareCycle_node (((h.passes hnext).passes hlist).passes hitem)

/-- The object is an entry, and yet the reference through it is recorded, unless the object
is visited before the list. -/
theorem circular_detour :
    DistinctKeys listFirst.document ∧ listFirst.options.strictReferenceCycles = false ∧
      (analyze listFirst).1 = .ok ⟨.untyped, []⟩ ∧
      ¬ CircularOnly listFirst root (OnBareCycle listFirst) (analyze listFirst).2 ∧
      (analyze nodeFirst).1 = .ok ⟨.untyped, []⟩ ∧ (analyze nodeFirst).2.violations = [] := by
  refine ⟨by decide +kernel, rfl, by decide +kernel, fun honly => ?_, by decide +kernel,
    by decide +kernel⟩
  have hrecorded : circularViolation listFirst ⟨bareString "#/definitions/List", ""⟩ ∈
      (analyze listFirst).2.violations := by decide +kernel
  obtain ⟨view, reference, hview, hreference, -, hcycle⟩ := honly _ hrecorded rfl
  rcases descends_cases hview with rfl | rfl | rfl | rfl | rfl
  · exact absurd hreference nofun
  · exact absurd hreference nofun
  · exact not_onBareCycle (.inl rfl) hcycle
  · exact absurd hreference nofun
  · exact not_onBareCycle (.inr rfl) hcycle

end Detour

end Schemata.Analysis
