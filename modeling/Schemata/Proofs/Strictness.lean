import Schemata.Proofs.Exploration
import Schemata.Proofs.Parallel

/-!
# Strict and lenient conversions

A strict conversion refuses what a lenient one records. Up to the first such record the two
do the same, and there the strict one fails. So what the lenient conversion records tells
whether the strict one returns, and if not, why.
-/

namespace Schemata

/-- The violation is the error that items are schemas for one item each. -/
def Violation.isTupleItems (violation : Violation) : Bool :=
  violation.code = Problem.tupleItems.code && violation.severity = Problem.tupleItems.severity &&
    violation.message = Problem.tupleItems.message

def Violation.isCircularReference (violation : Violation) : Bool :=
  violation.code = .circularReference

end Schemata

namespace Schemata.Analysis

open Schema Source

/-- The setting with other flags for what stops a conversion. -/
def Setting.strict (setting : Setting) (tuples cycles : Bool) : Setting :=
  setting.flagged { setting.flags with
    strictTupleItems := tuples
    strictReferenceCycles := cycles }

/-- The setting lets nothing stop a conversion that may be recorded instead. -/
structure Setting.Lenient (setting : Setting) : Prop where
  tupleItems : setting.options.strictTupleItems = false
  referenceCycles : setting.options.strictReferenceCycles = false

/-- Whether a conversion stops at what is recorded by a violation. -/
def stops (tuples cycles : Bool) (violation : Violation) : Bool :=
  tuples && violation.isTupleItems || cycles && violation.isCircularReference

variable {tuples cycles : Bool} {setting : Setting} {met : View → Prop}

theorem stops_violation {problem : Problem} (hitems : flag? problem ≠ some .strictTupleItems)
    (hcycles : flag? problem ≠ some .strictReferenceCycles) (range : Option LocationCode)
    (path : String) : stops tuples cycles (problem.violation range path) = false := by
  cases problem with
  | tupleItems => exact absurd rfl hitems
  | circularReference => exact absurd rfl hcycles
  | _ => simp [stops, Violation.isTupleItems, Violation.isCircularReference, Problem.violation,
      Problem.code, Problem.severity]

/-- A conversion stops at the record of a refusal if it refuses the schema. -/
theorem stops_refusal (refusal : Refusal) :
    stops tuples cycles (refusal.violation setting) =
      refusal.strict (setting.strict tuples cycles).options := by
  cases refusal with
  | tupleItems | circularReference =>
      simp [stops, Violation.isTupleItems, Violation.isCircularReference, Refusal.violation,
        Refusal.problem, Refusal.strict, Setting.strict, Setting.flagged, Problem.violation,
        Problem.code, Problem.severity]

theorem Setting.Lenient.strict_eq_false (hlenient : setting.Lenient) (refusal : Refusal) :
    refusal.strict setting.options = false := by
  cases refusal with
  | tupleItems => exact hlenient.tupleItems
  | circularReference => exact hlenient.referenceCycles

/-! ### Lockstep -/

variable (tuples cycles setting met)

/-- Nothing that stops a conversion is recorded. -/
def Clear (context : Context) : Prop :=
  ∀ violation ∈ context.violations, stops tuples cycles violation = false

/-- The failure and the violation come from the same schema. -/
def Belongs (failure : Failure) (violation : Violation) : Prop :=
  ∃ refusal : Refusal, refusal.Arises met ∧ failure = refusal.failure ∧
    violation = refusal.violation setting

/-- The strict action does what the lenient one does, or fails where the lenient one records
the first violation that stops it. -/
structure Lockstep {α : Type} (lenient strict : Action α) : Prop where
  grows : ∀ before, before.violations <+: (lenient.run.run before).2.violations
  agrees : ∀ before, Clear tuples cycles before →
    strict.run.run before = lenient.run.run before ∧
        Clear tuples cycles (lenient.run.run before).2 ∨
      ∃ failure violation, (strict.run.run before).1 = .error failure ∧
        (lenient.run.run before).2.violations.find? (stops tuples cycles) = some violation ∧
        Belongs setting met failure violation

namespace Lockstep

variable {tuples cycles setting met} {α β : Type}

/-- What records nothing that stops is the same in both. -/
theorem same {action : Action α} (hgrows : ∀ before : Context,
      before.violations <+: (action.run.run before).2.violations)
    (hclear : ∀ before, Clear tuples cycles before →
      Clear tuples cycles (action.run.run before).2) :
    Lockstep tuples cycles setting met action action :=
  ⟨hgrows, fun before hbefore => .inl ⟨rfl, hclear before hbefore⟩⟩

theorem pure (value : α) :
    Lockstep tuples cycles setting met (Pure.pure value) (Pure.pure value) :=
  same (fun _ => List.prefix_rfl) fun _ h => h

theorem lift (result : Except Failure α) :
    Lockstep tuples cycles setting met (liftM result) (liftM result) := by
  cases result with
  | ok | error => exact same (fun _ => List.prefix_rfl) fun _ h => h

theorem get : Lockstep tuples cycles setting met (MonadState.get : Action Context)
    MonadState.get :=
  same (fun _ => List.prefix_rfl) fun _ h => h

theorem update {change : Context → Context}
    (hchange : ∀ before, (change before).violations = before.violations) :
    Lockstep tuples cycles setting met (modify change : Action Unit) (modify change) := by
  apply same
  · intro before
    exact (hchange before).symm ▸ List.prefix_rfl
  · intro before hbefore violation hviolation
    exact hbefore violation (hchange before ▸ hviolation)

theorem clear_record {before : Context} {violation : Violation}
    (hbefore : Clear tuples cycles before)
    (hnew : stops tuples cycles violation = false) :
    Clear tuples cycles (before.record violation) := by
  intro other hother
  rcases Context.mem_violations_of_record hother with hold | rfl
  · exact hbefore other hold
  · exact hnew

theorem report {problem : Problem} (hitems : flag? problem ≠ some .strictTupleItems)
    (hcycles : flag? problem ≠ some .strictReferenceCycles) (range : Option LocationCode) :
    Lockstep tuples cycles setting met (Action.report setting problem range)
      (Action.report setting problem range) :=
  same (fun before => (Context.Extends.record before _).violations) fun _ hbefore =>
    clear_record hbefore (stops_violation hitems hcycles _ _)

theorem bind {lenient strict : Action β} {next strictNext : β → Action α}
    (hfirst : Lockstep tuples cycles setting met lenient strict)
    (hnext : ∀ value, lenient.MayReturn value →
      Lockstep tuples cycles setting met (next value) (strictNext value)) :
    Lockstep tuples cycles setting met (lenient >>= next) (strict >>= strictNext) := by
  have hgrows : ∀ before, (lenient.run.run before).2.violations <+:
      ((lenient >>= next).run.run before).2.violations := by
    intro before
    rw [Action.run_bind]
    split
    next value middle hrun =>
      rw [hrun]
      exact (hnext value ⟨before, middle, hrun⟩).grows middle
    next failure after hrun =>
      have hend : (lenient.run.run before).2.violations = after.violations := by rw [hrun]
      exact hend ▸ List.prefix_rfl
  refine ⟨fun before => (hfirst.grows before).trans (hgrows before), fun before hbefore => ?_⟩
  rcases hfirst.agrees before hbefore with
    ⟨hsame, hclear⟩ | ⟨failure, violation, hfails, hfound, hbelongs⟩
  · rw [Action.run_bind, Action.run_bind, hsame]
    rcases hrun : lenient.run.run before with ⟨failure | value, middle⟩
    · rw [hrun] at hclear
      exact .inl ⟨rfl, hclear⟩
    · rw [hrun] at hclear
      exact (hnext value ⟨before, middle, hrun⟩).agrees middle hclear
  · -- What comes after the first record does not change which one it is.
    refine .inr ⟨failure, violation, ?_, (hgrows before).find?_eq_some hfound, hbelongs⟩
    rw [Action.run_bind]
    split
    next value middle hrun => simp [hrun] at hfails
    next other after hrun =>
      rw [hrun] at hfails
      exact congrArg Except.error (Except.error.inj hfails)

theorem within {lenient strict : Action α} (pointer : Pointer)
    (h : Lockstep tuples cycles setting met lenient strict) :
    Lockstep tuples cycles setting met (Action.within pointer lenient)
      (Action.within pointer strict) := by
  refine ⟨fun before => h.grows (before.enter pointer), fun before hbefore => ?_⟩
  rw [Action.run_within, Action.run_within]
  rcases h.agrees (before.enter pointer) hbefore with ⟨hsame, hclear⟩ | hstopped
  · rw [hsame]
    exact .inl ⟨rfl, hclear⟩
  · exact .inr hstopped

theorem unlessVisited {skipped : Bool} {pointer : Pointer} {visit strictVisit : Action β}
    {rest strictRest : Action α}
    (hvisit : skipped = false → Lockstep tuples cycles setting met visit strictVisit)
    (hrest : Lockstep tuples cycles setting met rest strictRest) :
    Lockstep tuples cycles setting met (Action.unlessVisited skipped pointer visit rest)
      (Action.unlessVisited skipped pointer strictVisit strictRest) := by
  refine bind get fun state _ => ?_
  split
  · exact hrest
  next hnew =>
    have hwanted : skipped = false := by simp_all
    exact bind (update fun _ => rfl) fun _ _ => bind (hvisit hwanted) fun _ _ => hrest

theorem offer {problem : Problem} {range : Option LocationCode} {lenient strict : Action α}
    (hproblem : flag? problem = some .reportUnsupportedFeatures)
    (h : Lockstep tuples cycles setting met lenient strict) (reported : Bool) :
    Lockstep tuples cycles setting met
      (if reported then do
        Action.report setting problem range
        lenient
      else lenient)
      (if reported then do
        Action.report setting problem range
        strict
      else strict) := by
  split
  · exact bind (report (by simp [hproblem]) (by simp [hproblem]) _) fun _ _ => h
  · exact h

/-- The record of a refusal is the first that stops a conversion that was not stopped before. -/
theorem refuse {refusal : Refusal} (hlenient : setting.Lenient) (hrefusal : refusal.Arises met)
    (value : α) : Lockstep tuples cycles setting met (refusal.act setting value)
      (refusal.act (setting.strict tuples cycles) value) := by
  have hrecords : refusal.act setting value = (do
      Action.report setting refusal.problem refusal.range
      return value) := by rw [Refusal.act, hlenient.strict_eq_false refusal]; rfl
  have hstops := @stops_refusal tuples cycles setting refusal
  rw [hrecords]
  refine ⟨fun before => (Context.Extends.record before _).violations, fun before hbefore => ?_⟩
  unfold Refusal.act
  split
  next hstrict =>
    rw [hstrict] at hstops
    refine .inr ⟨refusal.failure, refusal.violation setting, rfl, ?_, refusal, hrefusal, rfl, rfl⟩
    have hnew : refusal.violation setting ∉ before.violations := fun hmem =>
      absurd ((hbefore _ hmem).symm.trans hstops) nofun
    have hafter : ((do
        Action.report setting refusal.problem refusal.range
        return value : Action α).run.run before).2.violations =
          before.violations ++ [refusal.violation setting] :=
      congrArg Context.violations (if_neg hnew)
    rw [hafter, List.find?_append, List.find?_eq_none.mpr (by simpa [Clear] using hbefore),
      List.find?_cons_of_pos hstops]
    rfl
  next hlax =>
    have hclear : stops tuples cycles (refusal.violation setting) = false := by
      rw [hstops]
      simpa using hlax
    exact .inl ⟨rfl, clear_record hbefore hclear⟩

theorem claim (name : Label) (view : View) :
    Lockstep tuples cycles setting met (Action.claim setting name view)
      (Action.claim setting name view) := by
  refine bind get fun state _ => ?_
  split
  · exact pure _
  · split
    · exact bind (report (by simp [flag?]) (by simp [flag?]) _) fun _ _ => pure _
    · exact pure _

theorem named {view : View} {declare strictDeclare : Label → Action Unit}
    (h : ∀ name, Lockstep tuples cycles setting met (declare name) (strictDeclare name)) :
    Lockstep tuples cycles setting met (Action.named setting view declare)
      (Action.named setting view strictDeclare) := by
  refine bind (lift _) fun found _ => ?_
  cases found with
  | none => exact pure _
  | some name =>
      refine bind (claim name view) fun claimed _ => ?_
      cases claimed with
      | true => exact bind (h name) fun _ _ => pure _
      | false => exact pure _

end Lockstep

variable {tuples cycles setting met}

/-- If conversions of schemas that are met are in lockstep, so is whatever is made of them. -/
theorem Parallel.lockstep {convert other : Converter} (hlenient : setting.Lenient)
    (hconvert : ∀ view loc, met view →
      Lockstep tuples cycles setting met (convert view loc) (other view loc))
    {α : Type} {action twin : Action α}
    (h : Parallel setting { setting.flags with
      strictTupleItems := tuples
      strictReferenceCycles := cycles } convert other met action twin) :
    Lockstep tuples cycles setting met action twin := by
  induction h with
  | pure value => exact .pure value
  | lift result => exact .lift result
  | bind _ _ ihAction ihNext => exact .bind ihAction ihNext
  | ask _ _ ih => exact .bind .get fun state _ => ih state
  | note event => exact .update fun _ => rfl
  | unlessVisited hview _ ih =>
      exact .unlessVisited (fun hwanted => hconvert _ _ (hview hwanted)) ih
  | within pointer _ ih => exact .within pointer ih
  | call hview => exact hconvert _ _ hview
  | report hproblem => exact .report (by simp [hproblem]) (by simp [hproblem]) _
  | offer hproblem _ ih => exact .offer hproblem ih _
  | refuse refusal hrefusal value => exact .refuse hlenient hrefusal value
  | typeEntry _ _ _ _ ih =>
      exact .named fun name => .bind (.update fun _ => rfl) fun _ _ =>
        .bind (.update fun _ => rfl) fun _ _ => .bind ih fun _ _ => .update fun _ => rfl
  | enumEntry _ =>
      exact .named fun name => .bind (.update fun _ => rfl) fun _ _ => .update fun _ => rfl
  | unionEntry _ _ _ ih =>
      exact .named fun name => .bind (.update fun _ => rfl) fun _ _ =>
        .bind (.update fun _ => rfl) fun _ _ => .bind ih fun _ _ => .update fun _ => rfl

/-- However deep a descent may go, a strict and a lenient one are in lockstep. -/
theorem convertWithin_lockstep (hlenient : setting.Lenient)
    (hclosed : ∀ view called, met view → CallsFor setting view called → met called) (depth : Nat) :
    ∀ view loc, met view → Lockstep tuples cycles setting met (convertWithin setting depth view loc)
      (convertWithin (setting.strict tuples cycles) depth view loc) := by
  induction depth with
  | zero => exact fun _ _ _ => .same (fun _ => List.prefix_rfl) fun _ h => h
  | succ depth ih =>
      intro view loc hview
      exact (parallel_step hclosed hview).lockstep hlenient ih

/-- A failure of the strict conversion of a document belongs to the first violation of the
lenient one that stops it. If there is none, the two are the same. -/
theorem analyze_lockstep (hlenient : setting.Lenient) :
    (analyze (setting.strict tuples cycles) = analyze setting ∧
      Clear tuples cycles (analyze setting).2) ∨
    ∃ failure violation, (analyze (setting.strict tuples cycles)).1 = .error failure ∧
      (analyze setting).2.violations.find? (stops tuples cycles) = some violation ∧
      Belongs setting (Descends setting (View.root setting.document)) failure violation :=
  (convertWithin_lockstep hlenient (fun _ _ hview hcall => hview.tail hcall) setting.depth _ _
    .refl).agrees {} fun _ hviolation => absurd hviolation List.not_mem_nil

section Document

variable {converted : Converted} {result : Context} (hlenient : setting.Lenient)
  (hreturns : analyze setting = (.ok converted, result))

include hlenient hreturns

theorem analyze_strict_cases (tuples cycles : Bool) :
    (∀ violation ∈ result.violations, stops tuples cycles violation = false) ∧
        analyze (setting.strict tuples cycles) = (.ok converted, result) ∨
      ∃ refusal : Refusal, refusal.Arises (Descends setting (View.root setting.document)) ∧
        refusal.strict (setting.strict tuples cycles).options = true ∧
        (analyze (setting.strict tuples cycles)).1 = .error refusal.failure ∧
        result.violations.find? (stops tuples cycles) = some (refusal.violation setting) := by
  have hlockstep := @analyze_lockstep tuples cycles setting hlenient
  rw [hreturns] at hlockstep
  rcases hlockstep with
    ⟨hsame, hclear⟩ | ⟨failure, violation, hfails, hfound, refusal, harises, rfl, rfl⟩
  · exact .inl ⟨hclear, hsame⟩
  · refine .inr ⟨refusal, harises, ?_, hfails, hfound⟩
    rw [← stops_refusal]
    exact List.find?_some hfound

/-- A conversion fails for what it refuses, and only if that is recorded otherwise. -/
theorem analyze_strict_iff (tuples cycles : Bool) (expected : Failure → Prop)
    (hexpected : ∀ refusal : Refusal,
      refusal.strict (setting.strict tuples cycles).options = true → expected refusal.failure) :
    ((∃ failure, expected failure ∧
        (analyze (setting.strict tuples cycles)).1 = .error failure) ↔
      ∃ violation ∈ result.violations, stops tuples cycles violation = true) ∧
    ((∀ violation ∈ result.violations, stops tuples cycles violation = false) →
      analyze (setting.strict tuples cycles) = (.ok converted, result)) := by
  rcases analyze_strict_cases hlenient hreturns tuples cycles with
    ⟨hclear, hsame⟩ | ⟨refusal, -, hstrict, hfails, hfound⟩
  · refine ⟨⟨?_, ?_⟩, fun _ => hsame⟩
    · rintro ⟨failure, -, hfails⟩
      simp [hsame] at hfails
    · rintro ⟨violation, hviolation, hstops⟩
      exact absurd ((hclear violation hviolation).symm.trans hstops) nofun
  · have hmem := List.mem_of_find?_eq_some hfound
    have hstops := List.find?_some hfound
    refine ⟨⟨fun _ => ⟨_, hmem, hstops⟩, fun _ => ⟨_, hexpected refusal hstrict, hfails⟩⟩, ?_⟩
    exact fun hnone => absurd ((hnone _ hmem).symm.trans hstops) nofun

/-- What the conversion of a document records when nothing stops it tells what becomes of it
otherwise. It fails for items that are schemas one by one exactly if those are recorded and
to stop it, and for a circular reference likewise. If both are to stop it, the first record
of either kind is the one it fails for. Where there is none, nothing changes. -/
theorem analyze_strict :
    (((∃ pointer, (analyze (setting.strict true false)).1 = .error (.tupleItems pointer)) ↔
          ∃ violation ∈ result.violations, violation.isTupleItems = true) ∧
        ((∀ violation ∈ result.violations, violation.isTupleItems = false) →
          analyze (setting.strict true false) = (.ok converted, result))) ∧
      (((∃ reference pointer, (analyze (setting.strict false true)).1 =
            .error (.circularReference reference pointer)) ↔
          ∃ violation ∈ result.violations, violation.isCircularReference = true) ∧
        ((∀ violation ∈ result.violations, violation.isCircularReference = false) →
          analyze (setting.strict false true) = (.ok converted, result))) ∧
      match result.violations.find? fun violation =>
        violation.isTupleItems || violation.isCircularReference with
      | none => analyze (setting.strict true true) = (.ok converted, result)
      | some violation => ∃ refusal : Refusal,
          refusal.Arises (Descends setting (View.root setting.document)) ∧
          refusal.violation setting = violation ∧
          (analyze (setting.strict true true)).1 = .error refusal.failure := by
  have hitems : stops true false = Violation.isTupleItems := by
    funext violation
    simp [stops]
  have hcircular : stops false true = Violation.isCircularReference := by
    funext violation
    simp [stops]
  have hboth : stops true true = fun violation =>
      violation.isTupleItems || violation.isCircularReference := by
    funext violation
    simp [stops]
  refine ⟨?_, ?_, ?_⟩
  · have hexpected : ∀ refusal : Refusal,
        refusal.strict (setting.strict true false).options = true →
        ∃ pointer, refusal.failure = .tupleItems pointer
      | .tupleItems view, _ => ⟨view.pointer, rfl⟩
      | .circularReference _ _, hstrict => absurd hstrict nofun
    simpa [hitems] using analyze_strict_iff hlenient hreturns true false
      (fun failure => ∃ pointer, failure = .tupleItems pointer) hexpected
  · have hexpected : ∀ refusal : Refusal,
        refusal.strict (setting.strict false true).options = true →
        ∃ reference pointer, refusal.failure = .circularReference reference pointer
      | .circularReference view reference, _ => ⟨referenceText reference, view.pointer, rfl⟩
      | .tupleItems _, hstrict => absurd hstrict nofun
    simpa [hcircular] using analyze_strict_iff hlenient hreturns false true
      (fun failure => ∃ reference pointer, failure = .circularReference reference pointer) hexpected
  · rw [← hboth]
    rcases analyze_strict_cases hlenient hreturns true true with
      ⟨hclear, hsame⟩ | ⟨refusal, harises, -, hfails, hfound⟩
    · rw [List.find?_eq_none.mpr (by simpa using hclear)]
      exact hsame
    · rw [hfound]
      exact ⟨refusal, harises, rfl, hfails⟩

end Document

namespace LoopAndPair

def loop : Json.Node :=
  bareObject [("type", bareString "array"),
    ("items", bareObject [("$ref", bareString "#/definitions/Loop")])]

def pair : Json.Node :=
  bareObject [("type", bareString "array"), ("items", .array .start [bareObject [], bareObject []])]

/-- A definition of lists of lists without end, and one of pairs. -/
def sample : Setting :=
  ⟨bareObject [("definitions", bareObject [("Loop", loop), ("Pair", pair)])], "",
    { strictTupleItems := false }⟩

/-- Both definitions are recorded, and either may be refused. If both may be, the first one
is. -/
theorem analyze_loopAndPair :
    (analyze sample).1 = .ok ⟨.untyped, []⟩ ∧
      (∃ pointer, (analyze (sample.strict true false)).1 = .error (.tupleItems pointer)) ∧
      ∃ reference pointer, (analyze (sample.strict true true)).1 =
        .error (.circularReference reference pointer) := by
  have hreturns : (analyze sample).1 = .ok ⟨.untyped, []⟩ := by decide +kernel
  have hitems : ∃ violation ∈ (analyze sample).2.violations,
      violation.isTupleItems = true := by decide +kernel
  have hfirst : ((analyze sample).2.violations.find? fun violation =>
      violation.isTupleItems || violation.isCircularReference).map Violation.isTupleItems =
        some false := by decide +kernel
  have hrun : analyze sample = (.ok ⟨.untyped, []⟩, (analyze sample).2) := Prod.ext hreturns rfl
  obtain ⟨⟨htuples, -⟩, -, hboth⟩ := analyze_strict ⟨rfl, rfl⟩ hrun
  refine ⟨hreturns, htuples.mpr hitems, ?_⟩
  obtain ⟨violation, hfound, hother⟩ := Option.map_eq_some_iff.mp hfirst
  rw [hfound] at hboth
  obtain ⟨refusal, -, rfl, hfails⟩ := hboth
  cases refusal with
  | tupleItems view => exact absurd hother (by simp [Violation.isTupleItems, Refusal.violation,
      Refusal.problem, Problem.violation])
  | circularReference view reference => exact ⟨_, _, hfails⟩

end LoopAndPair

end Schemata.Analysis
