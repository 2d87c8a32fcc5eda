import Schemata.Proofs.Frame
import Schemata.Proofs.Termination
import Schemata.Proofs.Descent

/-!
# Calls that are made

A step of a conversion makes a call, of a schema in a state, if it fails without that call. So
the calls that a conversion of a document comes to can be told without a second account of what a
step does. They are those that its steps make, starting from the root.
-/

namespace Schemata.Analysis

open Schema Source

open Classical in
/-- The converter without one of its calls, which is too deep instead. -/
noncomputable def Converter.without (convert : Converter) (called : View)
    (calledLoc : Option LocationCode) (context : Context) : Converter := fun view loc =>
  ExceptT.mk fun before =>
    if view = called ∧ loc = calledLoc ∧ before = context then (.error .tooDeep, before)
    else (convert view loc).run.run before

/-- A step makes a call in a state: without that call it is too deep. -/
def Asks (setting : Setting) (convert : Converter) (view : View) (loc : Option LocationCode)
    (before : Context) (called : View) (calledLoc : Option LocationCode) (context : Context) :
    Prop :=
  ((step setting (convert.without called calledLoc context) view loc).run.run before).1 =
    .error .tooDeep

/-- The conversion of a document comes to convert a schema in a state. All calls are taken to be
of the whole conversion, as the bound on its depth is out of reach for each of them. -/
inductive Comes (setting : Setting) : View → Option LocationCode → Context → Prop
  | root : Comes setting (View.root setting.document) (some (View.root setting.document).code) {}
  | call {view called : View} {loc calledLoc : Option LocationCode} {before context : Context}
      (hview : Comes setting view loc before)
      (hcall : Asks setting (convert setting) view loc before called calledLoc context) :
      Comes setting called calledLoc context

namespace Action

variable {α β : Type} {action : Action β} {next : β → Action α} {before middle : Context}

theorem run_bind_of_returns {value : β} (h : action.Returns before value middle) :
    (action >>= next).run.run before = (next value).run.run middle := by
  rw [run_bind, h]

theorem fst_run_bind_of_error {failure : Failure}
    (h : (action.run.run before).1 = .error failure) :
    ((action >>= next).run.run before).1 = .error failure := by
  rw [run_bind]
  rcases hrun : action.run.run before with ⟨found | value, after⟩
  · rw [hrun] at h
    exact congrArg Except.error (Except.error.inj h)
  · exact absurd (hrun ▸ h) nofun

theorem Returns.lift {result : Except Failure β} {value : β} (h : result = .ok value) :
    (liftM result : Action β).Returns before value before := by
  subst h
  rfl

theorem Returns.note (event : Event) :
    (Action.note event).Returns before () (before.note event) :=
  rfl

theorem Returns.get : (MonadState.get : Action Context).Returns before before before :=
  rfl

end Action

/-- Once its definitions have been visited, a step goes on with the schema on the chain. -/
theorem fst_run_step {setting : Setting} {convert : Converter} {view : View}
    {loc : Option LocationCode} {before middle : Context}
    (hvisited : (visitDefinitions setting convert (definitionEntries view)).Returns before ()
      middle) :
    ((step setting convert view loc).run.run before).1 =
      ((dispatch setting convert view loc).run.run (middle.enter view.pointer)).1 := by
  have hstep : step setting convert view loc =
      visitDefinitions setting convert (definitionEntries view) >>= fun _ =>
        Action.within view.pointer (dispatch setting convert view loc) := rfl
  rw [hstep, Action.run_bind_of_returns hvisited, Action.run_within]

theorem Action.Ensures.exists_failed {α : Type} {action : Action α} {before : Context}
    {returned : α → Context → Prop} {failed : Failure → Context → Prop} {failure : Failure}
    (h : action.Ensures before returned failed)
    (hrun : (action.run.run before).1 = .error failure) : ∃ after, failed failure after := by
  unfold Action.Ensures at h
  split at h
  next heq => exact absurd (hrun.symm.trans (congrArg Prod.fst heq)) nofun
  next after heq =>
    obtain rfl := Except.error.inj (hrun.symm.trans (congrArg Prod.fst heq))
    exact ⟨after, h⟩

section Without

variable {convert : Converter} {view called : View} {loc calledLoc : Option LocationCode}
  {before context : Context}

theorem run_without (h : ¬ (view = called ∧ loc = calledLoc ∧ before = context)) :
    (convert.without called calledLoc context view loc).run.run before =
      (convert view loc).run.run before :=
  if_neg h

theorem run_without_self :
    (convert.without called calledLoc context called calledLoc).run.run context =
      (.error .tooDeep, context) :=
  if_pos ⟨rfl, rfl, rfl⟩

theorem agrees_without : (convert.without called calledLoc context).Agrees convert := by
  intro view loc before hshallow
  by_cases h : view = called ∧ loc = calledLoc ∧ before = context
  · obtain ⟨rfl, rfl, rfl⟩ := h
    exact absurd (by rw [run_without_self]) hshallow
  · exact (run_without h).symm

theorem keepsAll_without (hconvert : KeepsAll convert) :
    KeepsAll (convert.without called calledLoc context) := by
  rintro view loc before _ ⟨rfl, -⟩
  by_cases h : view = called ∧ loc = calledLoc ∧ before = context
  · obtain ⟨rfl, rfl, rfl⟩ := h
    rw [run_without_self]
    exact .refl _
  · rw [run_without h]
    exact hconvert _ _ _ _ ⟨rfl, nofun⟩

/-- Of the schemas that may be met, only the one that is left out is too deep. -/
theorem eq_of_tooDeep {setting : Setting} (hview : Reachable setting.document view)
    (h : (((Analysis.convert setting).without called calledLoc context view loc).run.run
      before).1 = .error .tooDeep) : view = called ∧ loc = calledLoc ∧ before = context := by
  refine Classical.byContradiction fun hother => ?_
  rw [run_without hother] at h
  exact (convertWithin_depth_add setting hview loc before 0).1 h

end Without

/-! ### Where calls are made -/

section Calls

variable {setting : Setting} {convert : Converter} {view : View} {loc : Option LocationCode}
  {before : Context}

/-- The definitions that are wanted have been visited. -/
def Visited (setting : Setting) (view : View) (context : Context) : Prop :=
  ∀ entry ∈ definitionEntries view, entry.key.name ∈ setting.options.ignoreDefinitions ∨
    entry.view.pointer ∈ context.visited

/-- It was said of an enumeration that its values are ignored, if that is the case. -/
def Told (setting : Setting) (view : View) (context : Context) : Prop :=
  view.shape = .ok .enumeration → view.isStringEnum = .ok false →
    setting.options.reportUnsupportedFeatures = true →
    Problem.enumValues.violation (view.memberCode? "enum") setting.sourcePath ∈ context.violations

/-- Visits to definitions are too deep only if that of a definition is. -/
theorem ensures_visitDefinitions (hconvert : KeepsAll convert) (entries : List Schema.Entry) :
    (visitDefinitions setting convert entries).Ensures before
      (fun _ after => before.Keeps after ∧ ∀ entry ∈ entries,
        entry.key.name ∈ setting.options.ignoreDefinitions ∨
          entry.view.pointer ∈ after.visited)
      fun failure _ => failure = .tooDeep → ∃ entry ∈ entries,
        entry.key.name ∉ setting.options.ignoreDefinitions ∧ ∃ current, before.Keeps current ∧
          ((convert entry.view (some entry.code)).run.run
            (current.visit entry.view.pointer)).1 = .error .tooDeep := by
  induction entries generalizing before with
  | nil => exact ⟨.refl before, fun _ hentry => absurd hentry List.not_mem_nil⟩
  | cons entry rest ih =>
      rw [visitDefinitions, Action.ensures_bind, Action.ensures_get]
      split
      next hskipped =>
        simp only [Bool.or_eq_true, decide_eq_true_eq] at hskipped
        refine Action.Ensures.imp ih (fun _ after hafter => ?_) fun _ _ hfailed hdeep => ?_
        · refine ⟨hafter.1, List.forall_mem_cons.mpr ⟨?_, hafter.2⟩⟩
          exact hskipped.imp_right fun hmem => hafter.1.visited.subset hmem
        · obtain ⟨other, hother, hcall⟩ := hfailed hdeep
          exact ⟨other, List.mem_cons_of_mem _ hother, hcall⟩
      next hnew =>
        simp only [Bool.or_eq_true, decide_eq_true_eq, not_or] at hnew
        rw [Action.ensures_bind, Action.ensures_modify, Action.ensures_bind]
        refine (Action.ensures_leads id).imp (fun _ middle hreturns => ?_)
          fun _ _ hfailed hdeep => ?_
        · have hmiddle := hconvert _ _ _ _ (hreturns.leads false)
          have hfirst := (Context.Keeps.visit before entry.view.pointer).trans hmiddle
          refine Action.Ensures.imp ih (fun _ after hafter => ?_) fun _ _ hfailed hdeep => ?_
          · refine ⟨hfirst.trans hafter.1, List.forall_mem_cons.mpr ⟨.inr ?_, hafter.2⟩⟩
            exact hafter.1.visited.subset (hmiddle.visited.subset List.mem_cons_self)
          · obtain ⟨other, hother, hwanted, current, hcurrent, hcall⟩ := hfailed hdeep
            exact ⟨other, List.mem_cons_of_mem _ hother, hwanted, current, hfirst.trans hcurrent,
              hcall⟩
        · exact ⟨entry, List.mem_cons_self, hnew.1, before, .refl before, hfailed.2 hdeep⟩

/-- A call is too deep that comes after it was said of an enumeration that its values are
ignored. -/
def ExhaustsTold (setting : Setting) (convert : Converter) (view : View)
    (loc : Option LocationCode) (before : Context) : Prop :=
  ∃ start, before.Keeps start ∧ Told setting view start ∧
    Exhausts setting convert view loc none start

theorem Follows.told {α : Type} {action : Action α} {returned : α → Context → Prop}
    {start : Context} (h : Follows setting convert view loc none start action returned)
    (hstart : before.Keeps start) (htold : Told setting view start) :
    action.Ensures start (fun _ _ => True) fun failure _ =>
      failure = .tooDeep → ExhaustsTold setting convert view loc before :=
  Action.Ensures.imp h (fun _ _ _ => trivial)
    fun _ _ hfailed hdeep => ⟨start, hstart, htold, hfailed.2 hdeep⟩

theorem told_enumeration (hshape : view.shape = .ok .enumeration) :
    (enumeration setting convert view loc).Ensures before (fun _ _ => True)
      fun failure _ => failure = .tooDeep → ExhaustsTold setting convert view loc before := by
  rw [enumeration, Action.ensures_bind, Action.ensures_lift]
  refine ⟨fun isString hstring => ?_, fun failure hfailure hdeep => ?_⟩
  · cases isString with
    | true =>
        refine (follows_stringEnum (conversionShape_of_stringEnum hshape hstring)).told (.refl _) ?_
        exact fun _ hother => absurd (Except.ok.inj (hstring.symm.trans hother)) nofun
    | false =>
        dsimp only
        split
        · contradiction
        · split
          next hset =>
            rw [Action.ensures_bind, Action.report, Action.ensures_modify]
            refine (follows_byDeclaredType hshape hstring).told (.record before _) ?_
            exact fun _ _ _ => Context.mem_violations_record before _
          next hset =>
            refine (follows_byDeclaredType hshape hstring).told (.refl before) ?_
            exact fun _ _ hother => absurd hother hset
  · exact absurd (hdeep ▸ hfailure) (View.shallow_isStringEnum view)

theorem told_dispatch :
    (dispatch setting convert view loc).Ensures before (fun _ _ => True)
      fun failure _ => failure = .tooDeep → ExhaustsTold setting convert view loc before := by
  rw [dispatch, Action.ensures_bind, Action.ensures_lift]
  refine ⟨fun shape hshape => ?_, fun failure hfailure hdeep => ?_⟩
  · rw [Action.ensures_bind, Action.ensures_note]
    have hnoted := Context.Keeps.note before (.parsing view.pointer shape)
    by_cases henum : shape = .enumeration
    · subst henum
      split
      next reference hreference =>
        cases hshape.symm.trans (shape_of_reference hreference)
      · rw [Action.ensures_bind]
        refine Action.Ensures.imp (told_enumeration hshape) (fun _ _ _ => trivial) ?_
        intro _ _ hfailed hdeep
        obtain ⟨start, hstart, hexhausts⟩ := hfailed hdeep
        exact ⟨start, hnoted.trans hstart, hexhausts⟩
    · refine (follows_shaped hshape).told hnoted fun hother => ?_
      exact absurd (Except.ok.inj (hshape.symm.trans hother)) henum
  · exact absurd (hdeep ▸ hfailure) (View.shallow_shape view)

/-- A step makes a call when it visits its definitions, or later, when they have been visited and
the schema is on the chain. -/
theorem Asks.cases {called : View} {calledLoc : Option LocationCode} {context : Context}
    (hconvert : KeepsAll convert)
    (h : Asks setting convert view loc before called calledLoc context) :
    (∃ entry ∈ definitionEntries view,
      entry.key.name ∉ setting.options.ignoreDefinitions ∧ ∃ current, before.Keeps current ∧
        ((convert.without called calledLoc context entry.view (some entry.code)).run.run
          (current.visit entry.view.pointer)).1 = .error .tooDeep) ∨
      ∃ middle, before.Keeps middle ∧ Visited setting view middle ∧
        ExhaustsTold setting (convert.without called calledLoc context) view loc
          (middle.enter view.pointer) := by
  have hkeeps : KeepsAll (convert.without called calledLoc context) := keepsAll_without hconvert
  rw [Asks, step, Action.run_bind] at h
  split at h
  next middle hrun =>
    obtain ⟨hmiddle, hvisited⟩ := (ensures_visitDefinitions hkeeps _).of_returns hrun
    rw [Action.run_within] at h
    obtain ⟨_, hfailed⟩ := told_dispatch.exists_failed h
    exact .inr ⟨middle, hmiddle, hvisited, hfailed rfl⟩
  next failure after hrun =>
    obtain rfl := Except.error.inj h
    obtain ⟨_, hfailed⟩ :=
      (ensures_visitDefinitions hkeeps _).exists_failed (congrArg Prod.fst hrun)
    exact .inl (hfailed rfl)

end Calls

end Schemata.Analysis
