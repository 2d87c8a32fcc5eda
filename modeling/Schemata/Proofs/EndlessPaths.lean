import Schemata.Proofs.Cycles
import Schemata.Proofs.ForcedPaths
import Schemata.Proofs.Termination

/-!
# Endless paths

A path through references and arrays that never ends is cut off by nothing but the test for
circular references. If that is strict, no conversion returns from such a path. Otherwise
some reference on the path is recorded, and what stands in for its target is the type of every
schema on the path, save that arrays make lists of it.
-/

namespace Schemata.Analysis

open Schema Source

/-- References and arrays lead on from a schema for ever. -/
def Endless (setting : Setting) (view : View) : Prop :=
  ∀ other, Walks setting view other → ∃ next, Passes setting other next

variable {setting : Setting} {view next : View} {before after : Context} {type : ValueType}

theorem Endless.goesOn (h : Endless setting view) :
    ∃ next, Passes setting view next ∧ Endless setting next := by
  obtain ⟨next, hnext⟩ := h view .refl
  exact ⟨next, hnext, fun other hother => h other (hother.head hnext)⟩

theorem OnBareCycle.endless (h : OnBareCycle setting view) : Endless setting view := by
  intro other hother
  obtain ⟨next, hnext, -⟩ := h.walks hother
  exact ⟨next, hnext⟩

/-- What a conversion leaves behind that was cut off on the path from a schema. -/
structure CutOff (setting : Setting) (view : View) (after : Context) (type : ValueType) : Prop where
  untyped : type = .untyped ∨ type = .untypedArray
  lax : setting.options.strictReferenceCycles = false
  recorded : ∃ other, Walks setting view other ∧ Recorded setting after other

namespace CutOff

theorem of_next (h : CutOff setting next after type) (hnext : Passes setting view next) :
    CutOff setting view after type := by
  obtain ⟨other, hother, hrecorded⟩ := h.recorded
  exact ⟨h.untyped, h.lax, other, hother.head hnext, hrecorded⟩

/-- The range and the count of what stands in are lost on the way, but not that it has no type. -/
theorem array (h : CutOff setting view after type) :
    CutOff setting view after { type with isArray := true } := by
  refine ⟨.inr ?_, h.lax, h.recorded⟩
  rcases h.untyped with rfl | rfl
  · rfl
  · rfl

theorem grows (h : CutOff setting view before type) (hgrows : before.Grows after) :
    CutOff setting view after type := by
  obtain ⟨other, hother, hrecorded⟩ := h.recorded
  exact ⟨h.untyped, h.lax, other, hother, hrecorded.grows hgrows⟩

end CutOff

/-- Conversions return from an endless path only if they are cut off. -/
def CutsOff (setting : Setting) (convert : Converter) : Prop :=
  ∀ view loc before converted after, Endless setting view →
    (convert view loc).Returns before converted after →
      CutOff setting view after converted.type

theorem Made.cutOff {convert : Converter} {loc : Option LocationCode} {converted : Converted}
    (hcuts : CutsOff setting convert) (hendless : Endless setting view)
    (h : Made convert before after view loc converted) :
    CutOff setting view after converted.type := by
  obtain ⟨_, _, -, hreturns, hafter⟩ := h
  exact (hcuts _ _ _ _ _ hendless hreturns).grows hafter

theorem Yields.cutOff {convert : Converter} (hcuts : CutsOff setting convert)
    (hendless : Endless setting view) (h : Yields setting convert view before after type) :
    CutOff setting view after type := by
  obtain ⟨next, hnext, hrest⟩ := hendless.goesOn
  have hunnamed := hnext.unnamed
  cases h with
  | target htarget _ hmade =>
      obtain rfl := hnext.unique (.inl htarget)
      exact (hmade.cutOff hcuts hrest).of_next hnext
  | items hitem hmade =>
      obtain rfl := hnext.unique (.inr hitem)
      exact (hmade.cutOff hcuts hrest).array.of_next hnext
  | circular hreference _ _ hrecorded hlax =>
      exact ⟨.inl rfl, hlax, view, .refl, _, hreference, hrecorded⟩
  | nowhere hdangles _ =>
      rcases hnext with htarget | hitem
      · exact absurd htarget (hdangles.2 next)
      · exact absurd (hdangles.conversionShape.symm.trans hitem.1) nofun
  | plain hshape _ hreference hnone _ =>
      exact absurd hnext (not_passes hshape hreference hnone next)
  | unnamed hshape hnamed _ => exact absurd ⟨_, hshape, hnamed⟩ hunnamed.not_named
  | taken hshape hnamed _ _ => exact absurd ⟨_, hshape, hnamed⟩ hunnamed.not_named
  | entry hshape hkind _ _ _ _ =>
      exact absurd ⟨_, hshape, isNamed_iff.mpr ⟨_, hkind⟩⟩ hunnamed.not_named

theorem convertWithin_cutsOff (setting : Setting) (depth : Nat) :
    CutsOff setting (convertWithin setting depth) := by
  induction depth with
  | zero => exact fun _ _ _ _ _ _ hreturns => absurd hreturns nofun
  | succ depth ih =>
      intro view loc before converted after hendless hreturns
      obtain ⟨_, stop, -, -, rfl, hyields⟩ :=
        (gives_step (convertWithin_continues setting depth)).of_returns hreturns
      have hcut := hyields.cutOff ih hendless
      exact ⟨hcut.untyped, hcut.lax, hcut.recorded⟩

/-- From whatever state a schema on an endless path is converted: if cycles are not strict, a
conversion that returns gives no type, or lists of none, and some reference on the path is
recorded as circular. If they are strict, the conversion fails, and not for its depth. -/
theorem convert_endless (hendless : Endless setting view) (loc : Option LocationCode)
    (before : Context) :
    (setting.options.strictReferenceCycles = false →
      ∀ converted after, (convert setting view loc).Returns before converted after →
        (converted.type = .untyped ∨ converted.type = .untypedArray) ∧
        ∃ other reference violation, Walks setting view other ∧
          other.reference? = some reference ∧ violation ∈ after.violations ∧
          violation.code = .circularReference ∧ violation.severity = .error ∧
          violation.range = some reference.code) ∧
    (setting.options.strictReferenceCycles = true →
      ∃ failure, ((convert setting view loc).run.run before).1 = .error failure ∧
        (Reachable setting.document view → failure ≠ .tooDeep)) := by
  refine ⟨fun _ converted after hreturns => ?_, fun hstrict => ?_⟩
  · have hcut := convertWithin_cutsOff setting _ _ _ _ _ _ hendless hreturns
    obtain ⟨other, hother, reference, hreference, hmem⟩ := hcut.recorded
    exact ⟨hcut.untyped, other, reference, _, hother, hreference, hmem, rfl, rfl, rfl⟩
  · cases hresult : ((convert setting view loc).run.run before).1 with
    | ok converted =>
        have hcut := convertWithin_cutsOff setting _ view loc before converted _ hendless
          (Prod.ext hresult rfl)
        exact absurd (hcut.lax.symm.trans hstrict) nofun
    | error failure =>
        refine ⟨failure, rfl, ?_⟩
        rintro hview rfl
        exact (convertWithin_depth_add setting hview loc before 0).1 hresult

namespace NestedList

def strict : Setting :=
  { sample with options := { strictReferenceCycles := true } }

/-- The items of the lists are lists of the same kind, so that their path has no end. It is cut
off where it comes back to the lists, or stops the conversion there. -/
theorem convert_endless_items :
    (Endless sample item ∧ sample.options.strictReferenceCycles = false ∧
      ∃ converted after, (convert sample item none).Returns {} converted after ∧
        (converted.type = .untyped ∨ converted.type = .untypedArray) ∧
        ∃ other reference violation, Walks sample item other ∧
          other.reference? = some reference ∧ violation ∈ after.violations ∧
          violation.code = .circularReference ∧ violation.severity = .error ∧
          violation.range = some reference.code) ∧
      Endless strict item ∧ strict.options.strictReferenceCycles = true ∧
      ∃ failure, ((convert strict item none).run.run {}).1 = .error failure ∧
        (Reachable strict.document item → failure ≠ .tooDeep) := by
  have hendless : Endless sample item :=
    OnBareCycle.endless ⟨list, .inl refersTo_item, .single (.inr listsItem_list)⟩
  have hstrict : Endless strict item :=
    OnBareCycle.endless ⟨list, .inl ⟨_, _, rfl, rfl, rfl⟩, .single (.inr listsItem_list)⟩
  have hreturns : ((convert sample item none).run.run {}).1 = .ok ⟨.untypedArray, []⟩ := by
    decide +kernel
  refine ⟨⟨hendless, rfl, _, _, Prod.ext hreturns rfl, ?_⟩, hstrict, rfl, ?_⟩
  · exact (convert_endless hendless none {}).1 rfl _ _ (Prod.ext hreturns rfl)
  · exact (convert_endless hstrict none {}).2 rfl

end NestedList

end Schemata.Analysis
