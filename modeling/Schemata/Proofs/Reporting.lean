import Schemata.Analysis.Convert
import Schemata.Proofs.Parallel

/-!
# Reports that are switched off

Two flags decide whether names that are taken and shapes that are not supported are reported.
Nothing else depends on them: a conversion with such reports switched off comes to the same
result as one that makes them, and to the state in which they were never made.
-/

namespace Schemata

/-- The violation is the report of a name that is taken. -/
def Violation.isDuplicateName (violation : Violation) : Bool :=
  violation.code = .duplicateName

/-- Schemas of these shapes are converted without what they say. -/
def Problem.unsupportedShapes : List Problem :=
  [anyOf, typeList, enumValues]

/-- The violation is the report of a shape that is not supported. -/
def Violation.isUnsupportedShape (violation : Violation) : Bool :=
  violation.code = .unsupportedFeature && violation.severity = .info &&
    violation.message ∈ Problem.unsupportedShapes.map Problem.message

/-- The outcome without some of its violations. -/
def Outcome.without (outcome : Outcome) (hidden : Violation → Bool) : Outcome :=
  { outcome with violations := outcome.violations.filter fun violation => !hidden violation }

theorem isDuplicateName_violation (problem : Problem) (range : Option Source.LocationCode)
    (path : String) : (problem.violation range path).isDuplicateName = true ↔
      ∃ name pointer owner, problem = .duplicateName name pointer owner := by
  cases problem <;> simp [Violation.isDuplicateName, Problem.violation, Problem.code]

/-- Of the problems with unsupported features, those with a shape are told by their text. -/
theorem isUnsupportedShape_violation (problem : Problem) (range : Option Source.LocationCode)
    (path : String) : (problem.violation range path).isUnsupportedShape = true ↔
      problem ∈ Problem.unsupportedShapes := by
  have hmapping : Problem.discriminatorMapping.message ∉
      Problem.unsupportedShapes.map Problem.message := by decide
  have hmixed : Problem.mixedUnion.message ∉
      Problem.unsupportedShapes.map Problem.message := by decide
  cases problem with
  | anyOf | typeList | enumValues =>
      simp [Violation.isUnsupportedShape, Problem.violation, Problem.code, Problem.severity,
        Problem.unsupportedShapes]
  | discriminatorMapping =>
      simp only [Violation.isUnsupportedShape, Problem.violation, hmapping]
      simp [Problem.unsupportedShapes]
  | mixedUnion =>
      simp only [Violation.isUnsupportedShape, Problem.violation, hmixed]
      simp [Problem.unsupportedShapes]
  | tupleItems =>
      simp [Violation.isUnsupportedShape, Problem.violation, Problem.severity,
        Problem.unsupportedShapes]
  | _ => simp [Violation.isUnsupportedShape, Problem.violation, Problem.code,
      Problem.unsupportedShapes]

end Schemata

namespace Schemata.Analysis

open Schema Source

/-! ### States without some reports -/

/-- The state in which the hidden violations were never recorded, with another log. -/
def Context.hide (hidden : Violation → Bool) (context : Context) (log : List Event) : Context :=
  { context with
    violations := context.violations.filter fun violation => !hidden violation
    log := log }

namespace Context

variable {hidden : Violation → Bool} {context : Context} {violation : Violation}

theorem hide_record_of_hidden (h : hidden violation = true) (log : List Event) :
    (context.record violation).hide hidden log = context.hide hidden log := by
  unfold record
  split
  · rfl
  · simp [hide, note, h]

/-- What is kept is a repetition exactly if it is one among what is kept. -/
theorem record_hide_of_kept (h : hidden violation = false) (log : List Event) :
    ∃ later, (context.hide hidden log).record violation =
      (context.record violation).hide hidden later := by
  have hmem : violation ∈ (context.hide hidden log).violations ↔
      violation ∈ context.violations := by simp [hide, h]
  by_cases hrecorded : violation ∈ context.violations
  · refine ⟨log, ?_⟩
    rw [record, if_pos (hmem.mpr hrecorded), record, if_pos hrecorded]
  · refine ⟨.recorded violation :: log, ?_⟩
    rw [record, if_neg (mt hmem.mp hrecorded), record, if_neg hrecorded]
    simp [hide, note, h]

end Context

/-! ### Quiet actions -/

/-- The quiet action does what the other one does, but never makes the hidden reports. What it
logs is left open. -/
def Hides {α : Type} (hidden : Violation → Bool) (action quiet : Action α) : Prop :=
  ∀ before log, ∃ later, quiet.run.run (before.hide hidden log) =
    ((action.run.run before).1, (action.run.run before).2.hide hidden later)

namespace Hides

variable {hidden : Violation → Bool} {α β : Type}

theorem pure (value : α) : Hides hidden (Pure.pure value) (Pure.pure value) :=
  fun _ log => ⟨log, rfl⟩

theorem throw (failure : Failure) :
    Hides hidden (MonadExcept.throw failure : Action α) (MonadExcept.throw failure) :=
  fun _ log => ⟨log, rfl⟩

theorem lift (result : Except Failure α) : Hides hidden (liftM result) (liftM result) := by
  intro before log
  cases result <;> exact ⟨log, rfl⟩

theorem bind {action quiet : Action β} {next quietNext : β → Action α}
    (hfirst : Hides hidden action quiet)
    (hnext : ∀ value, action.MayReturn value → Hides hidden (next value) (quietNext value)) :
    Hides hidden (action >>= next) (quiet >>= quietNext) := by
  intro before log
  obtain ⟨middleLog, hmiddle⟩ := hfirst before log
  rw [Action.run_bind, Action.run_bind, hmiddle]
  rcases hrun : action.run.run before with ⟨failure | value, middle⟩
  · exact ⟨middleLog, rfl⟩
  · exact hnext value ⟨before, middle, hrun⟩ middle middleLog

/-- What an action asks of the state has to be answered alike. -/
theorem ask {next quietNext : Context → Action α}
    (hnext : ∀ (state : Context) log,
      Hides hidden (next state) (quietNext (state.hide hidden log))) :
    Hides hidden (get >>= next) (get >>= quietNext) :=
  fun before log => hnext before log before log

theorem update {change : Context → Context}
    (hchange : ∀ (before : Context) log, ∃ later,
      change (before.hide hidden log) = (change before).hide hidden later) :
    Hides hidden (modify change : Action Unit) (modify change) := by
  intro before log
  obtain ⟨later, hlater⟩ := hchange before log
  exact ⟨later, Prod.ext rfl hlater⟩

theorem note (event : Event) : Hides hidden (Action.note event) (Action.note event) :=
  update fun _ log => ⟨event :: log, rfl⟩

theorem within {action quiet : Action α} (pointer : Pointer) (h : Hides hidden action quiet) :
    Hides hidden (Action.within pointer action) (Action.within pointer quiet) := by
  intro before log
  obtain ⟨later, hlater⟩ := h (before.enter pointer) log
  have henter : (before.hide hidden log).enter pointer = (before.enter pointer).hide hidden log :=
    rfl
  refine ⟨later, ?_⟩
  rw [Action.run_within, Action.run_within, henter, hlater]
  rfl

theorem unlessVisited {skipped : Bool} {pointer : Pointer} {visit quietVisit : Action β}
    {rest quietRest : Action α} (hvisit : skipped = false → Hides hidden visit quietVisit)
    (hrest : Hides hidden rest quietRest) :
    Hides hidden (Action.unlessVisited skipped pointer visit rest)
      (Action.unlessVisited skipped pointer quietVisit quietRest) := by
  refine ask fun state log => ?_
  have hvisited : (state.hide hidden log).visited = state.visited := rfl
  rw [hvisited]
  split
  · exact hrest
  next hnew =>
    have hwanted : skipped = false := by simp_all
    exact bind (update fun _ log => ⟨log, rfl⟩) fun _ _ =>
      bind (hvisit hwanted) fun _ _ => hrest

end Hides

/-! ### The flags that report -/

/-- The flags of a setting, with its reports of taken names, or of unsupported shapes, switched
off. -/
def Setting.silencedFlags (setting : Setting) (names shapes : Bool) : Flags :=
  { setting.flags with
    reportDuplicateNames := setting.options.reportDuplicateNames && !names
    reportUnsupportedFeatures := setting.options.reportUnsupportedFeatures && !shapes }

def Setting.silenced (setting : Setting) (names shapes : Bool) : Setting :=
  setting.flagged (setting.silencedFlags names shapes)

/-- The violation is one of the reports that are switched off. -/
def isSilenced (names shapes : Bool) (violation : Violation) : Bool :=
  names && violation.isDuplicateName || shapes && violation.isUnsupportedShape

section Problems

variable {names shapes : Bool} {problem : Problem} {range : Option LocationCode} {path : String}

theorem isSilenced_of_duplicateName (h : flag? problem = some .reportDuplicateNames) :
    isSilenced names shapes (problem.violation range path) = names := by
  cases problem with
  | duplicateName =>
      simp [isSilenced, Violation.isDuplicateName, Violation.isUnsupportedShape,
        Problem.violation, Problem.code]
  | _ => cases h

theorem isSilenced_of_unsupportedShape (h : flag? problem = some .reportUnsupportedFeatures) :
    isSilenced names shapes (problem.violation range path) = shapes := by
  have hname : (problem.violation range path).isDuplicateName = false := by
    cases problem <;> simp [flag?] at h <;> rfl
  have hshape : (problem.violation range path).isUnsupportedShape = true := by
    rw [isUnsupportedShape_violation]
    cases problem <;> simp [flag?] at h <;> simp [Problem.unsupportedShapes]
  simp [isSilenced, hname, hshape]

/-- Problems that neither flag decides about are recorded in any case. -/
theorem isSilenced_of_other (hnames : flag? problem ≠ some .reportDuplicateNames)
    (hshapes : flag? problem ≠ some .reportUnsupportedFeatures) :
    isSilenced names shapes (problem.violation range path) = false := by
  have hname : (problem.violation range path).isDuplicateName = false := by
    refine Bool.eq_false_iff.mpr fun h => hnames ?_
    obtain ⟨_, _, _, rfl⟩ := (isDuplicateName_violation problem range path).mp h
    rfl
  have hshape : (problem.violation range path).isUnsupportedShape = false := by
    refine Bool.eq_false_iff.mpr fun h => hshapes ?_
    have hmem := (isUnsupportedShape_violation problem range path).mp h
    simp only [Problem.unsupportedShapes, List.mem_cons, List.not_mem_nil, or_false] at hmem
    rcases hmem with rfl | rfl | rfl <;> rfl
  simp [isSilenced, hname, hshape]

end Problems

/-! ### Quiet conversions -/

variable {names shapes : Bool} {setting : Setting}

namespace Hides

variable {α : Type} {range : Option LocationCode}

theorem report {problem : Problem}
    (hkept : ∀ path, isSilenced names shapes (problem.violation range path) = false) :
    Hides (isSilenced names shapes) (Action.report setting problem range)
      (Action.report (setting.silenced names shapes) problem range) :=
  update fun _ log => Context.record_hide_of_kept (hkept _) log

theorem report_hidden {problem : Problem}
    (hhidden : ∀ path, isSilenced names shapes (problem.violation range path) = true) :
    Hides (isSilenced names shapes) (Action.report setting problem range) (Pure.pure ()) :=
  fun _ log => ⟨log, Prod.ext rfl (Context.hide_record_of_hidden (hhidden _) log).symm⟩

/-- A report that a flag decides about is made by both actions, hidden, or made by neither. -/
theorem offer {problem : Problem} {action quiet : Action α} {loud silent : Bool}
    (hdecides : ∀ path, isSilenced names shapes (problem.violation range path) = silent)
    (h : Hides (isSilenced names shapes) action quiet) :
    Hides (isSilenced names shapes)
      (if loud then do
        Action.report setting problem range
        action
      else action)
      (if loud && !silent then do
        Action.report (setting.silenced names shapes) problem range
        quiet
      else quiet) := by
  cases loud with
  | false => exact h
  | true =>
      cases silent with
      | false => exact bind (report hdecides) fun _ _ => h
      | true => exact bind (report_hidden hdecides) fun _ _ => h

theorem refuse (refusal : Refusal) (value : α) :
    Hides (isSilenced names shapes) (refusal.act setting value)
      (refusal.act (setting.silenced names shapes) value) := by
  have hstrict : refusal.strict (setting.silenced names shapes).options =
      refusal.strict setting.options := by cases refusal <;> rfl
  have hkept : ∀ path,
      isSilenced names shapes (refusal.problem.violation refusal.range path) = false := by
    intro path
    cases refusal with
    | tupleItems | circularReference =>
        exact isSilenced_of_other (by simp [flag?, Refusal.problem])
          (by simp [flag?, Refusal.problem])
  unfold Refusal.act
  rw [hstrict]
  split
  · exact bind (note _) fun _ _ => throw _
  · exact bind (report hkept) fun _ _ => pure _

/-- Whether a name is taken does not depend on whether that is reported. -/
theorem claim (name : Label) (view : View) :
    Hides (isSilenced names shapes) (Action.claim setting name view)
      (Action.claim (setting.silenced names shapes) name view) := by
  refine ask fun state log => ?_
  have hlookup : (state.hide (isSilenced names shapes) log).lookup name.value =
      state.lookup name.value := rfl
  rw [hlookup]
  split
  · exact pure _
  next owner _ =>
    by_cases hother : owner.source ≠ view.pointer
    · simp only [hother, ne_eq, not_false_eq_true, decide_true, Bool.true_and]
      exact offer (fun _ => isSilenced_of_duplicateName rfl) (pure false)
    · simp only [hother, decide_false, Bool.false_and, Bool.false_eq_true, if_false]
      exact pure _

theorem named {view : View} {declare quietDeclare : Label → Action Unit}
    (h : ∀ name, Hides (isSilenced names shapes) (declare name) (quietDeclare name)) :
    Hides (isSilenced names shapes) (Action.named setting view declare)
      (Action.named (setting.silenced names shapes) view quietDeclare) := by
  refine bind (lift _) fun found _ => ?_
  cases found with
  | none => exact pure _
  | some name =>
      refine bind (claim name view) fun claimed _ => ?_
      cases claimed with
      | true => exact bind (h name) fun _ _ => pure _
      | false => exact pure _

end Hides

/-- If conversions of schemas that are met hide reports, so does whatever is made of them. -/
theorem Parallel.hides {convert other : Converter} {met : View → Prop}
    (hconvert : ∀ view loc, met view →
      Hides (isSilenced names shapes) (convert view loc) (other view loc))
    {α : Type} {action quiet : Action α}
    (h : Parallel setting (setting.silencedFlags names shapes) convert other met action quiet) :
    Hides (isSilenced names shapes) action quiet := by
  -- Adding and completing entries leaves the violations alone.
  have hupdate : ∀ change : Context → Context, (∀ (before : Context) log,
      change (before.hide (isSilenced names shapes) log) =
        (change before).hide (isSilenced names shapes) log) →
      Hides (isSilenced names shapes) (modify change : Action Unit) (modify change) :=
    fun _ hchange => .update fun _ log => ⟨log, hchange _ log⟩
  induction h with
  | pure value => exact .pure value
  | lift result => exact .lift result
  | bind _ _ ihAction ihNext => exact .bind ihAction ihNext
  | ask _ hsame ih =>
      refine .ask fun state log => ?_
      rw [(hsame state (state.hide _ log) rfl).2]
      exact ih state
  | note event => exact .note event
  | unlessVisited hview _ ih =>
      exact .unlessVisited (fun hwanted => hconvert _ _ (hview hwanted)) ih
  | within pointer _ ih => exact .within pointer ih
  | call hview => exact hconvert _ _ hview
  | report hproblem =>
      exact .report fun _ => isSilenced_of_other (by simp [hproblem]) (by simp [hproblem])
  | offer hproblem _ ih =>
      exact .offer (fun _ => isSilenced_of_unsupportedShape hproblem) ih
  | refuse refusal _ value => exact .refuse refusal value
  | typeEntry _ _ _ _ ih =>
      exact .named fun name => .bind (hupdate _ fun _ _ => rfl) fun _ _ =>
        .bind (.note _) fun _ _ => .bind ih fun _ _ => hupdate _ fun _ _ => rfl
  | enumEntry _ =>
      exact .named fun name => .bind (hupdate _ fun _ _ => rfl) fun _ _ => .note _
  | unionEntry _ _ _ ih =>
      exact .named fun name => .bind (hupdate _ fun _ _ => rfl) fun _ _ =>
        .bind (.note _) fun _ _ => .bind ih fun _ _ => hupdate _ fun _ _ => rfl

theorem convertWithin_hides (depth : Nat) :
    ∀ view loc, Hides (isSilenced names shapes) (convertWithin setting depth view loc)
      (convertWithin (setting.silenced names shapes) depth view loc) := by
  induction depth with
  | zero => exact fun _ _ => .throw _
  | succ depth ih =>
      intro view loc
      exact (parallel_step (fun _ _ _ _ => trivial) trivial).hides fun view loc _ =>
        ih view loc

/-- The conversion of a document with reports switched off ends as the other one does, without
these reports. -/
theorem analyze_silenced :
    ∃ log, analyze (setting.silenced names shapes) =
      ((analyze setting).1, (analyze setting).2.hide (isSilenced names shapes) log) :=
  convertWithin_hides setting.depth _ _ {} []

theorem outcome_silenced (setting : Setting) (names shapes : Bool) :
    (outcome (setting.silenced names shapes)).1 =
      (outcome setting).1.map fun found => found.without (isSilenced names shapes) := by
  obtain ⟨log, hanalyze⟩ := analyze_silenced
  have htitle : title (setting.silenced names shapes) = title setting := rfl
  unfold outcome
  rw [hanalyze, htitle]
  rcases analyze setting with ⟨failure | converted, context⟩
  · rfl
  · cases title setting <;> rfl

/-- The flags for reports only filter the violations. Without reports of taken names a document
has the outcome that it has with them, but for the violations that are such reports; without
reports of unsupported shapes likewise. Of all problems, only those with a shape are silenced:
what is wrong with a discriminator, a union or the items of an array is recorded in any
case. -/
theorem outcome_without_reports (document : Json.Node) (sourcePath : String) (options : Options) :
    (outcome ⟨document, sourcePath, { options with reportDuplicateNames := false }⟩).1 =
        (outcome ⟨document, sourcePath, { options with reportDuplicateNames := true }⟩).1.map
          (fun found => found.without Violation.isDuplicateName) ∧
      (outcome ⟨document, sourcePath, { options with reportUnsupportedFeatures := false }⟩).1 =
        (outcome ⟨document, sourcePath, { options with reportUnsupportedFeatures := true }⟩).1.map
          (fun found => found.without Violation.isUnsupportedShape) ∧
      ∀ (problem : Problem) range,
        ((problem.violation range sourcePath).isDuplicateName = true ↔
          ∃ name pointer owner, problem = .duplicateName name pointer owner) ∧
        ((problem.violation range sourcePath).isUnsupportedShape = true ↔
          problem = .anyOf ∨ problem = .typeList ∨ problem = .enumValues) := by
  refine ⟨?_, ?_, fun problem range => ⟨isDuplicateName_violation problem range _, ?_⟩⟩
  · have hsilenced : isSilenced true false = Violation.isDuplicateName :=
      funext fun _ => by simp [isSilenced]
    simpa [Setting.silenced, Setting.silencedFlags, Setting.flagged, Setting.flags, hsilenced]
      using outcome_silenced
        ⟨document, sourcePath, { options with reportDuplicateNames := true }⟩ true false
  · have hsilenced : isSilenced false true = Violation.isUnsupportedShape :=
      funext fun _ => by simp [isSilenced]
    simpa [Setting.silenced, Setting.silencedFlags, Setting.flagged, Setting.flags, hsilenced]
      using outcome_silenced
        ⟨document, sourcePath, { options with reportUnsupportedFeatures := true }⟩ false true
  · rw [isUnsupportedShape_violation]
    simp [Problem.unsupportedShapes]

end Schemata.Analysis
