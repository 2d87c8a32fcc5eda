import Schemata.Proofs.Descent
import Schemata.Proofs.Results

/-!
# Cycles without entries

References and arrays have no entries. From one schema they lead to at most one other, so
that a cycle of them is left by nothing but the test for circular references: a conversion
that returns from a schema on such a cycle has recorded one of its references.
-/

namespace Schemata.Analysis

open Schema Source

/-- A step through a schema without an entry: from a reference to its target, or from an
array to its items. -/
def Passes (setting : Setting) (view other : View) : Prop :=
  RefersTo setting view other ∨ ListsItem view other

/-- References and arrays alone lead from the first schema to the second one. -/
abbrev Walks (setting : Setting) : View → View → Prop :=
  Relation.ReflTransGen (Passes setting)

/-- References and arrays alone lead from a schema back to it. -/
def OnBareCycle (setting : Setting) (view : View) : Prop :=
  ∃ next, Passes setting view next ∧ Walks setting next view

/-- The record of a reference as circular. -/
def Recorded (setting : Setting) (context : Context) (view : View) : Prop :=
  ∃ reference, view.reference? = some reference ∧
    circularViolation setting reference ∈ context.violations

/-- If a schema lies on a bare cycle, some reference on that cycle is recorded. -/
def RecordsCycle (setting : Setting) (context : Context) (view : View) : Prop :=
  OnBareCycle setting view →
    ∃ other, Walks setting view other ∧ Recorded setting context other

variable {setting : Setting} {view next other : View} {before after : Context}

namespace Passes

theorem unnamed (h : Passes setting view next) : Unnamed view := by
  rcases h with htarget | hitem
  · exact ⟨_, htarget.conversionShape, rfl⟩
  · exact ⟨_, hitem.1, rfl⟩

theorem unique (h : Passes setting view next) (hother : Passes setting view other) :
    next = other := by
  rcases h with htarget | hitem <;> rcases hother with hother | hother
  · exact htarget.unique hother
  · exact absurd (htarget.conversionShape.symm.trans hother.1) nofun
  · exact absurd (hitem.1.symm.trans hother.conversionShape) nofun
  · exact hitem.unique hother

end Passes

theorem OnBareCycle.unnamed (h : OnBareCycle setting view) : Unnamed view :=
  h.choose_spec.1.unnamed

/-- A bare cycle goes on through the next schema. -/
theorem OnBareCycle.passes (h : OnBareCycle setting view) (hnext : Passes setting view next) :
    OnBareCycle setting next := by
  obtain ⟨first, hfirst, hback⟩ := h
  obtain rfl := hfirst.unique hnext
  rcases hback.cases_head with rfl | ⟨second, hsecond, hrest⟩
  · exact ⟨first, hfirst, hback⟩
  · exact ⟨second, hsecond, hrest.tail hfirst⟩

theorem OnBareCycle.walks (h : OnBareCycle setting view) (hother : Walks setting view other) :
    OnBareCycle setting other := by
  induction hother with
  | refl => exact h
  | tail _ hstep ih => exact ih.passes hstep

/-- Everything on a bare cycle leads to everything else on it. -/
theorem OnBareCycle.back (h : OnBareCycle setting view) (hother : Walks setting view other) :
    Walks setting other view := by
  induction hother with
  | refl => exact .refl
  | tail _ hstep ih =>
      rcases ih.cases_head with rfl | ⟨middle, hmiddle, hrest⟩
      · obtain ⟨first, hfirst, hback⟩ := h
        obtain rfl := hstep.unique hfirst
        exact hback
      · obtain rfl := hstep.unique hmiddle
        exact hrest

theorem Passes.dependsOn (h : Passes setting view next) : DependsOn setting view next :=
  h.elim .target .item

theorem Walks.placed (hdistinct : DistinctKeys setting.document)
    (hview : Placed setting.document view) (h : Walks setting view other) :
    Placed setting.document other := by
  induction h with
  | refl => exact hview
  | tail _ hstep ih => exact hstep.dependsOn.placed hdistinct ih

theorem Recorded.grows (h : Recorded setting before view) (hgrows : before.Grows after) :
    Recorded setting after view := by
  obtain ⟨reference, hreference, hmem⟩ := h
  exact ⟨reference, hreference, hgrows.violations.subset hmem⟩

theorem RecordsCycle.grows (h : RecordsCycle setting before view) (hgrows : before.Grows after) :
    RecordsCycle setting after view := by
  intro hcycle
  obtain ⟨other, hother, hrecorded⟩ := h hcycle
  exact ⟨other, hother, hrecorded.grows hgrows⟩

/-- What is recorded for the next schema is recorded for the one before. -/
theorem RecordsCycle.of_next (h : RecordsCycle setting after next)
    (hnext : Passes setting view next) : RecordsCycle setting after view := by
  intro hcycle
  obtain ⟨other, hother, hrecorded⟩ := h (hcycle.passes hnext)
  exact ⟨other, hother.head hnext, hrecorded⟩

/-- Conversions that return have recorded the cycle they were on. -/
def RecordsCycles (setting : Setting) (convert : Converter) : Prop :=
  ∀ view loc before converted after, (convert view loc).Returns before converted after →
    RecordsCycle setting after view

theorem Made.recordsCycle {convert : Converter} {loc : Option LocationCode}
    {converted : Converted} (hrecords : RecordsCycles setting convert)
    (h : Made convert before after view loc converted) : RecordsCycle setting after view := by
  obtain ⟨_, _, -, hreturns, hafter⟩ := h
  exact (hrecords _ _ _ _ _ hreturns).grows hafter

/-- The conversion of a reference or an array goes on to the next schema, unless that is the
target of the reference and is being converted. -/
theorem Yields.passes {convert : Converter} {type : ValueType}
    (h : Yields setting convert view before after type) (hnext : Passes setting view next) :
    (∃ loc converted, Made convert before after next loc converted ∧
      (RefersTo setting view next → next.pointer ∈ before.chain → Named next)) ∨
    RefersTo setting view next ∧ next.pointer ∈ before.chain ∧ Recorded setting after view := by
  have hunnamed := hnext.unnamed
  cases h with
  | target htarget hfree hmade =>
      obtain rfl := hnext.unique (.inl htarget)
      exact .inl ⟨_, _, hmade, fun _ => hfree⟩
  | circular hreference htarget hchain hrecorded =>
      obtain rfl := hnext.unique (.inl htarget)
      exact .inr ⟨htarget, hchain, _, hreference, hrecorded⟩
  | nowhere hdangles _ =>
      rcases hnext with htarget | hitem
      · exact absurd htarget (hdangles.2 next)
      · exact absurd (hdangles.conversionShape.symm.trans hitem.1) nofun
  | items hitem hmade =>
      obtain rfl := hnext.unique (.inr hitem)
      refine .inl ⟨_, _, hmade, fun htarget => ?_⟩
      exact absurd (hitem.1.symm.trans htarget.conversionShape) nofun
  | plain hshape _ hreference hnone _ =>
      rcases hnext with htarget | hitem
      · exact absurd (Except.ok.inj (hshape.symm.trans htarget.conversionShape)) hreference
      · exact absurd hitem (hnone next)
  | unnamed hshape hnamed _ => exact absurd ⟨_, hshape, hnamed⟩ hunnamed.not_named
  | taken hshape hnamed _ _ => exact absurd ⟨_, hshape, hnamed⟩ hunnamed.not_named
  | entry hshape hkind _ _ _ _ =>
      exact absurd ⟨_, hshape, isNamed_iff.mpr ⟨_, hkind⟩⟩ hunnamed.not_named

theorem Yields.recordsCycle {convert : Converter} {type : ValueType}
    (hrecords : RecordsCycles setting convert)
    (h : Yields setting convert view before after type) : RecordsCycle setting after view := by
  intro hcycle
  obtain ⟨next, hnext, -⟩ := id hcycle
  -- The next schema was converted and recorded the cycle, or the reference to it was.
  rcases h.passes hnext with ⟨_, _, hmade, -⟩ | ⟨-, -, hrecorded⟩
  · exact (hmade.recordsCycle hrecords).of_next hnext hcycle
  · exact ⟨view, .refl, hrecorded⟩

theorem convertWithin_recordsCycles (setting : Setting) (depth : Nat) :
    RecordsCycles setting (convertWithin setting depth) := by
  induction depth with
  | zero => exact fun _ _ _ _ _ hreturns => absurd hreturns nofun
  | succ depth ih =>
      intro view loc before converted after hreturns
      obtain ⟨_, stop, -, -, rfl, hyields⟩ :=
        (gives_step (convertWithin_continues setting depth)).of_returns hreturns
      have hrecords := hyields.recordsCycle ih
      exact hrecords

end Schemata.Analysis
