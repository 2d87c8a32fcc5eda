import Schemata.Proofs.Marks
import Schemata.Proofs.Turns

/-!
# References that lead nowhere

A reference is looked up when its schema is converted, and when it stands for a member of an
intersection that becomes an entry. One that leads nowhere is recorded then, and once only,
however often it is looked up. No other reference is recorded as such.
-/

namespace Schemata.Analysis

open Schema Source

/-- In a state, a schema was looked up: it was converted itself, or is a member of an
intersection that has an entry. -/
inductive LookedThrough (setting : Setting) (context : Context) (holder : View) : Prop
  | converted (hplaced : Placed setting.document holder) (hbegun : context.Begun holder.pointer)
  | member {view : View} {name : Str} (hplaced : Placed setting.document view)
      (hshape : view.conversionShape = .ok .intersection)
      (hregisters : Registers setting view .type name)
      (hentry : context.HasEntry .type name view.pointer)
      (hmember : holder ∈ view.allOf?.getD [])

/-- The records of unresolved references with the range of a value. -/
def unresolvedAt (violations : List Violation) (reference : View) : List Violation :=
  violations.filter fun violation =>
    violation.code = .unresolvedReference && violation.range = some reference.code

variable {setting : Setting} {view holder reference : View} {context : Context}

theorem LookedThrough.occurs (h : LookedThrough setting context holder) :
    Occurs setting.document holder.node := by
  have hoccurs : ∀ {view : View}, Placed setting.document view →
      Occurs setting.document view.node := fun ⟨_, _, hpath⟩ => hpath.occurs (.root _)
  cases h with
  | converted hplaced _ => exact hoccurs hplaced
  | member hplaced _ _ _ hmember =>
      exact (hoccurs hplaced).below (View.below_of_mem_getD_children? hmember)

theorem Dangles.unique {other : View} (h : Dangles setting holder reference)
    (hother : holder.reference? = some other) : reference = other :=
  Option.some.inj (h.1.symm.trans hother)

/-- A conversion that returns from a reference that leads nowhere has recorded that. -/
theorem Yields.told {convert : Converter} {before after : Context} {type : ValueType}
    (h : Yields setting convert view before after type)
    (hdangles : Dangles setting view reference) :
    unresolvedViolation setting reference ∈ after.violations := by
  have hunnamed : ¬ Named view := Unnamed.not_named ⟨_, hdangles.conversionShape, rfl⟩
  cases h with
  | target htarget => exact absurd htarget (hdangles.2 _)
  | circular _ htarget => exact absurd htarget (hdangles.2 _)
  | nowhere hother hrecorded =>
      obtain rfl := hdangles.unique hother.1
      exact hrecorded
  | items hitem => exact absurd (hitem.1.symm.trans hdangles.conversionShape) nofun
  | plain hshape _ hreference =>
      exact absurd (Except.ok.inj (hshape.symm.trans hdangles.conversionShape)) hreference
  | unnamed hshape hnamed => exact absurd ⟨_, hshape, hnamed⟩ hunnamed
  | taken hshape hnamed => exact absurd ⟨_, hshape, hnamed⟩ hunnamed
  | entry hshape hkind => exact absurd ⟨_, hshape, isNamed_iff.mpr ⟨_, hkind⟩⟩ hunnamed

/-- What is recorded of a reference depends on its value and its range alone, if the value is a
scalar. -/
theorem unresolvedViolation_congr {other : View} (hscalar : reference.scalar?.isSome)
    (hnode : other.node = reference.node) :
    unresolvedViolation setting other = unresolvedViolation setting reference := by
  obtain ⟨value, hvalue⟩ := Option.isSome_iff_exists.mp hscalar
  have hother : other.scalar? = some value := by rw [View.scalar?, hnode]; exact hvalue
  simp only [unresolvedViolation, referenceText, View.code, hnode, hvalue, hother]
  rfl

section Whole

variable {converted : Converted} (hanalyze : analyze setting = (.ok converted, context))
  (hdistinct : DistinctKeys setting.document)

include hanalyze hdistinct

/-- Whatever was looked up in vain is recorded in the end. -/
theorem LookedThrough.told (h : LookedThrough setting context holder)
    (hdangles : Dangles setting holder reference) :
    unresolvedViolation setting reference ∈ context.violations := by
  cases h with
  | converted hplaced hbegun =>
      obtain ⟨_, _, hturn, hclosed⟩ := exists_firstTurn hanalyze hdistinct hplaced hbegun
      obtain ⟨_, _, hyields⟩ := hturn.yields
      exact hclosed.violations (hyields.told hdangles)
  | @member view name hplaced hshape hregisters hentry hmember =>
      -- The entry was made in the first turn of the intersection, and no other schema owns it.
      have hbegun := ((analyze_unfolds hanalyze).grounded _ _ _ hentry).1
      have hconsistent := analyze_consistent hanalyze
      obtain ⟨_, _, hturn, hclosed⟩ := exists_firstTurn hanalyze hdistinct hplaced hbegun
      obtain ⟨label, owner, hname, howner, hsettled⟩ :=
        hturn.settled hclosed hconsistent hplaced hregisters.named
      obtain ⟨_, _, -, -, hother, rfl⟩ := hregisters
      obtain rfl := Option.some.inj (Except.ok.inj (hname.symm.trans hother))
      obtain ⟨found, hfound, hown⟩ := hconsistent.lookup_eq hentry
      obtain rfl := Option.some.inj (howner.symm.trans hfound)
      cases hsettled with
      | own _ htold => exact htold hshape holder hmember reference hdangles
      | other hdifferent => exact absurd hown hdifferent

/-- Nothing is recorded as unresolved but what was looked up in vain. -/
theorem exists_lookedThrough {violation : Violation} (h : violation ∈ context.violations)
    (hcode : violation.code = .unresolvedReference) :
    ∃ holder reference, LookedThrough setting context holder ∧
      Dangles setting holder reference ∧ violation = unresolvedViolation setting reference := by
  obtain ⟨hview, hreports, hbegun, howns, hlater⟩ := recordedBy_of_mem hanalyze h
  have hplaced := hview.placed hdistinct (.root _)
  cases hreports with
  | @unresolved holder reference hholder hreference hnowhere =>
      refine ⟨holder, reference, ?_, ⟨hreference, hnowhere⟩, rfl⟩
      rcases hholder with rfl | ⟨hopened, hshape, hmember⟩
      · exact .converted hplaced (hlater.begun hbegun)
      · obtain ⟨name, rfl⟩ := Option.ne_none_iff_exists'.mp hopened
        obtain ⟨kind, hregisters, hentry⟩ := howns name rfl
        obtain rfl : kind = .type := by
          obtain ⟨shape, _, hother, hkind, -⟩ := hregisters
          obtain rfl := Except.ok.inj (hshape.symm.trans hother)
          exact (Option.some.inj hkind).symm
        exact .member hplaced hshape hregisters (hlater.entries _ _ _ hentry) hmember
  | circular | taken | tupleItems | anyOf | typeList | enumValues | mapping => cases hcode
  | excluded _ _ hproblem => rcases hproblem with rfl | rfl <;> cases hcode

/-- The range of a reference tells its value, and so whether it leads anywhere. -/
theorem LookedThrough.of_mem_unresolvedAt {text : String}
    (hread : Json.read text = .ok setting.document)
    (h : LookedThrough setting context holder) (hreference : holder.reference? = some reference)
    (hscalar : reference.scalar?.isSome) {violation : Violation}
    (hviolation : violation ∈ unresolvedAt context.violations reference) :
    (∀ target, ¬ RefersTo setting holder target) ∧
      violation = unresolvedViolation setting reference := by
  obtain ⟨hmem, hat⟩ := List.mem_filter.mp hviolation
  simp only [Bool.and_eq_true, decide_eq_true_eq] at hat
  obtain ⟨other, otherReference, hother, hdangles, rfl⟩ :=
    exists_lookedThrough hanalyze hdistinct hmem hat.1
  have hnode : otherReference.node = reference.node := by
    refine eq_of_code hread ?_ ?_ (Option.some.inj hat.2)
    · exact hother.occurs.holds (View.holds_of_child? hdangles.1)
    · exact h.occurs.holds (View.holds_of_child? hreference)
  refine ⟨?_, unresolvedViolation_congr hscalar hnode⟩
  rintro target ⟨found, pointer, hfound, hpointer, hresolve⟩
  obtain rfl := Option.some.inj (hreference.symm.trans hfound)
  refine hdangles.2 target ⟨otherReference, pointer, hdangles.1, ?_, hresolve⟩
  rw [View.string?, View.scalar?, hnode]
  exact hpointer

end Whole

/-- Suppose that a text without repeated keys is converted. Take any schema that was looked up
by a reference with a scalar value. If the reference leads somewhere, nothing with its range is
recorded as an unresolved reference; otherwise there is one such record, as an error. All
records of unresolved references are those of references that were looked up and lead
nowhere. -/
theorem dangling_references_recorded {text : String} {outcome : Outcome}
    (hread : Json.read text = .ok setting.document) (hdistinct : DistinctKeys setting.document)
    (houtcome : convertText text setting.sourcePath setting.options = .ok outcome) :
    (∀ holder reference, LookedThrough setting (analyze setting).2 holder →
      holder.reference? = some reference → reference.scalar?.isSome →
        ((∃ target, RefersTo setting holder target) →
          unresolvedAt outcome.violations reference = []) ∧
        ((∀ target, ¬ RefersTo setting holder target) →
          unresolvedAt outcome.violations reference = [unresolvedViolation setting reference])) ∧
    ∀ violation ∈ outcome.violations, violation.code = .unresolvedReference →
      violation.severity = .error ∧
        ∃ holder reference, LookedThrough setting (analyze setting).2 holder ∧
          Dangles setting holder reference ∧ violation = unresolvedViolation setting reference := by
  obtain ⟨document, converted, context, label, hdocument, hanalyze, rfl⟩ :=
    convertText_eq_ok houtcome
  obtain rfl := Except.ok.inj (hdocument.symm.trans hread)
  change analyze setting = _ at hanalyze
  rw [hanalyze]
  refine ⟨fun holder reference hlooked hreference hscalar => ⟨?_, ?_⟩, ?_⟩
  · rintro ⟨target, htarget⟩
    refine List.eq_nil_iff_forall_not_mem.mpr fun violation hviolation => ?_
    exact (hlooked.of_mem_unresolvedAt hanalyze hdistinct hread hreference hscalar
      hviolation).1 target htarget
  · intro hnowhere
    have htold := hlooked.told hanalyze hdistinct ⟨hreference, hnowhere⟩
    have hnodup := (analyze_nodup hanalyze).filter fun violation =>
      violation.code = .unresolvedReference && violation.range = some reference.code
    -- No violation is recorded twice, so that it is enough to know which there are.
    refine List.perm_singleton.mp
      ((List.perm_ext_iff_of_nodup hnodup (List.nodup_singleton _)).mpr fun violation => ?_)
    rw [List.mem_singleton]
    constructor
    · exact fun hviolation =>
        (hlooked.of_mem_unresolvedAt hanalyze hdistinct hread hreference hscalar hviolation).2
    · rintro rfl
      refine List.mem_filter.mpr ⟨htold, ?_⟩
      simp [unresolvedViolation, Problem.violation, Problem.code]
  · intro violation hmem hcode
    obtain ⟨holder, reference, hlooked, hdangles, rfl⟩ :=
      exists_lookedThrough hanalyze hdistinct hmem hcode
    exact ⟨rfl, holder, reference, hlooked, hdangles, rfl⟩

namespace DanglingTwice

/-- A definition that refers to nothing, and an intersection of nothing and that definition. -/
def text : String :=
  "\x7b\"$defs\":\x7b\"A\":\x7b\"$ref\":\"#/x\"\x7d,\"B\":\x7b\"allOf\":[" ++
    "\x7b\"$ref\":\"#/x\"\x7d,\x7b\"$ref\":\"#/$defs/A\"\x7d]\x7d\x7d\x7d"

/-- The value of a reference that begins at an offset. -/
def target (first : Int) (pointer : String) : Json.Node :=
  .scalar (.inFirstLine first (first + pointer.length + 2)) (.string pointer)
    ("\"" ++ pointer ++ "\"")

/-- A schema that begins at an offset, with a reference. -/
def link (first : Int) (pointer : String) : Json.Node :=
  .object (.inFirstLine first (first + pointer.length + 11))
    [⟨⟨"$ref", "\"$ref\"", .inFirstLine (first + 1) (first + 7)⟩, target (first + 8) pointer⟩]

def definition : View :=
  ⟨link 14 "#/x", "#/$defs/A"⟩

def first : View :=
  ⟨link 43 "#/x", "#/$defs/B/allOf/0"⟩

def second : View :=
  ⟨link 58 "#/$defs/A", "#/$defs/B/allOf/1"⟩

def whole : View :=
  ⟨.object (.inFirstLine 33 80) [⟨⟨"allOf", "\"allOf\"", .inFirstLine 34 41⟩,
    .array (.inFirstLine 42 79) [first.node, second.node]⟩], "#/$defs/B"⟩

def sample : Setting where
  document :=
    .object (.inFirstLine 0 82) [⟨⟨"$defs", "\"$defs\"", .inFirstLine 1 8⟩,
      .object (.inFirstLine 9 81)
        [⟨⟨"A", "\"A\"", .inFirstLine 10 13⟩, definition.node⟩,
          ⟨⟨"B", "\"B\"", .inFirstLine 29 32⟩, whole.node⟩]⟩]
  sourcePath := ""
  options := {}

theorem read_text : Json.read text = .ok sample.document := by
  cbv

theorem exists_outcome : ∃ outcome, convertText text "" = .ok outcome := by
  have hsome : ((outcome sample).1.map fun _ => ()) = .ok () := by decide +kernel
  obtain ⟨found, hfound, -⟩ := exists_convertText read_text hsome
  exact ⟨found, hfound⟩

theorem lookedThrough_definition : LookedThrough sample (analyze sample).2 definition := by
  have hplaced : resolve sample.document "#/$defs/A" = .ok (some definition) := rfl
  exact .converted (.of_resolve hplaced) ⟨.reference, by decide +kernel⟩

theorem lookedThrough_member {member : View} (hmember : member ∈ [first, second]) :
    LookedThrough sample (analyze sample).2 member := by
  have hplaced : resolve sample.document "#/$defs/B" = .ok (some whole) := rfl
  have hregisters : Registers sample whole .type "B" :=
    ⟨.intersection, ⟨"B", some (Range.inFirstLine 29 32).code⟩, rfl, rfl, rfl, rfl⟩
  have hentry : (analyze sample).2.HasEntry .type "B" "#/$defs/B" :=
    Registry.has_iff.mpr (by decide +kernel)
  exact .member (.of_resolve hplaced) rfl hregisters hentry hmember

theorem dangles_link (first : Int) (pointer : Pointer) :
    Dangles sample ⟨link first "#/x", pointer⟩
      ⟨target (first + 8) "#/x", pointer.child "$ref"⟩ := by
  refine ⟨rfl, fun found hfound => ?_⟩
  have hnone : targets sample ⟨link first "#/x", pointer⟩ = [] := rfl
  exact absurd (mem_targets_iff.mpr hfound) (hnone ▸ List.not_mem_nil)

/-- The first two references are recorded once each, though the one of the definition was met
twice, and the third one is not recorded. -/
theorem dangling_references_recorded_once :
    ∃ outcome, convertText text "" = .ok outcome ∧ Json.read text = .ok sample.document ∧
      DistinctKeys sample.document ∧
      (∀ holder ∈ [definition, first], ∃ reference, LookedThrough sample (analyze sample).2 holder ∧
        Dangles sample holder reference ∧ reference.scalar?.isSome ∧
        unresolvedAt outcome.violations reference = [unresolvedViolation sample reference]) ∧
      (∃ reference, LookedThrough sample (analyze sample).2 second ∧
        second.reference? = some reference ∧ RefersTo sample second definition ∧
        unresolvedAt outcome.violations reference = []) ∧
      ∀ violation ∈ outcome.violations, violation.code = .unresolvedReference →
        violation.severity = .error := by
  obtain ⟨outcome, houtcome⟩ := exists_outcome
  have hdistinct : DistinctKeys sample.document := by decide +kernel
  obtain ⟨hrecorded, honly⟩ := dangling_references_recorded read_text hdistinct houtcome
  have honce : ∀ {holder reference : View}, LookedThrough sample (analyze sample).2 holder →
      Dangles sample holder reference → reference.scalar?.isSome →
      ∃ reference, LookedThrough sample (analyze sample).2 holder ∧
        Dangles sample holder reference ∧ reference.scalar?.isSome ∧
        unresolvedAt outcome.violations reference = [unresolvedViolation sample reference] :=
    fun hlooked hdangles hscalar => ⟨_, hlooked, hdangles, hscalar,
      (hrecorded _ _ hlooked hdangles.1 hscalar).2 hdangles.2⟩
  refine ⟨outcome, houtcome, read_text, hdistinct, fun holder hholder => ?_, ?_, ?_⟩
  · rcases List.mem_cons.mp hholder with rfl | hfirst
    · exact honce lookedThrough_definition (dangles_link _ _) rfl
    · obtain rfl := List.mem_singleton.mp hfirst
      exact honce (lookedThrough_member List.mem_cons_self) (dangles_link _ _) rfl
  · have hlooked : LookedThrough sample (analyze sample).2 second :=
      lookedThrough_member (List.mem_cons_of_mem _ List.mem_cons_self)
    have htarget : RefersTo sample second definition := ⟨_, _, rfl, rfl, rfl⟩
    exact ⟨_, hlooked, rfl, htarget,
      (hrecorded second _ hlooked rfl rfl).1 ⟨definition, htarget⟩⟩
  · exact fun violation hmem hcode => (honly violation hmem hcode).1

end DanglingTwice

end Schemata.Analysis
