import Schemata.Proofs.Descent

/-!
# Reasons for violations

Nothing is recorded without a reason. Each violation that a conversion adds tells of a
problem with a schema that its descents meet.
-/

namespace Schemata.Analysis

open Schema Source

/-- The violation tells of a problem with a schema on the descents from `entry`. -/
def Reported (setting : Setting) (entry : View) (violation : Violation) : Prop :=
  ∃ view opened context problem range, Descends setting entry view ∧
    Reports setting view opened context problem range ∧
    violation = problem.violation range setting.sourcePath

/-- The state adds nothing but violations with a reason. -/
def AddsReported (setting : Setting) (entry : View) (before after : Context) : Prop :=
  ∀ violation ∈ after.violations, violation ∈ before.violations ∨ Reported setting entry violation

variable {setting : Setting} {entry view : View} {before middle after : Context}

namespace AddsReported

theorem refl (context : Context) : AddsReported setting entry context context :=
  fun _ => .inl

theorem trans (hfirst : AddsReported setting entry before middle)
    (hsecond : AddsReported setting entry middle after) :
    AddsReported setting entry before after := by
  intro violation hviolation
  rcases hsecond violation hviolation with hmiddle | hreported
  · exact hfirst violation hmiddle
  · exact .inr hreported

theorem record {violation : Violation} (h : Reported setting entry violation) :
    AddsReported setting entry before (before.record violation) := by
  intro other hother
  rcases Context.mem_violations_of_record hother with hbefore | rfl
  · exact .inl hbefore
  · exact .inr h

end AddsReported

section Runs

variable {convert : Converter} {loc : Option LocationCode}
  (hconvert : ∀ view loc before after, (convert view loc).Leads false before after →
    Descends setting entry view → AddsReported setting entry before after)
  (hview : Descends setting entry view)

include hconvert hview

theorem Course.addsReported {returning : Bool} {opened : Option Label}
    (hcourse : Course setting convert view loc returning opened before after) :
    AddsReported setting entry before after := by
  induction hcourse with
  | done => exact .refl _
  | andThen _ _ ihFirst ihSecond => exact ihFirst.trans ihSecond
  | note _ => exact .refl _
  | report hreport => exact .record ⟨view, _, _, _, _, hview, hreport, rfl⟩
  | convert hcall hcalled =>
      exact hconvert _ _ _ _ ⟨hcalled.1, nofun⟩ (hview.tail (.own hcall.dependsOn))
  | enumEntry _ _ => exact .refl _
  | typeOpened _ _ _ _ ih => exact ih
  | typeEntry _ _ _ _ _ _ ihStart ih => exact ihStart.trans ih
  | unionOpened _ _ _ ih => exact ih
  | unionEntry _ _ _ _ _ ihStart ih => exact ihStart.trans ih

theorem Conversion.addsReported (hconversion : Conversion setting convert view loc before after) :
    AddsReported setting entry before after := by
  induction hconversion with
  | done => exact .refl _
  | andThen _ _ ihFirst ihSecond => exact ihFirst.trans ihSecond
  | definition hvisitable hcalled =>
      have hdefinition : Defines setting view _ := ⟨_, hvisitable.1, hvisitable.2.1, rfl⟩
      have hadds := hconvert _ _ _ _ hcalled (hview.tail (.definition hdefinition))
      exact hadds
  | within _ hcourse =>
      have hadds := hcourse.addsReported hconvert hview
      exact hadds

end Runs

theorem convertWithin_addsReported (setting : Setting) (entry : View) (depth : Nat) :
    ∀ view loc before after, (convertWithin setting depth view loc).Leads false before after →
      Descends setting entry view → AddsReported setting entry before after := by
  induction depth with
  | zero =>
      rintro _ _ _ _ ⟨rfl, -⟩ _
      exact .refl _
  | succ depth ih =>
      rintro _ _ _ _ ⟨rfl, -⟩ hview
      exact (conversion_step _ _ _ _ _).addsReported ih hview

/-- Whatever comes of the conversion of a document, all violations have a reason. -/
theorem analyze_reported (setting : Setting) :
    ∀ violation ∈ (analyze setting).2.violations,
      Reported setting (View.root setting.document) violation := by
  intro violation hviolation
  rcases convertWithin_addsReported setting (View.root setting.document) setting.depth _ _ _ _
    ⟨rfl, nofun⟩ .refl violation hviolation with hbefore | hreported
  · exact absurd hbefore List.not_mem_nil
  · exact hreported

end Schemata.Analysis
