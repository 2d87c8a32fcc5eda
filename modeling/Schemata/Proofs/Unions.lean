import Schemata.Proofs.Changes
import Schemata.Proofs.Classification
import Schemata.Proofs.Exploration
import Schemata.Proofs.Frame
import Schemata.Proofs.Marks
import Schemata.Proofs.Reasons

/-!
# Unions

A union is added without members. Its members are converted while it is there, and then
it is completed. A conversion that returns has completed every union that it added, and
nothing is lost of the members: each of them is kept, or there is one violation for it. A
conversion that fails leaves those unions without members that it did not complete.
-/

namespace Schemata.Analysis

open Schema Source

/-- The union is as it was added. -/
def AsAdded (union : UnionType) : Prop :=
  union.kind = .simple ∧ union.members = [] ∧ union.discriminator = none

/-- Between two states, a union was made of a schema that is met, and of the given members. -/
structure Completed (setting : Setting) (met : View → Prop) (before after : Context)
    (union : UnionType) (view : View) (found : List Alternative) : Prop where
  met : met view
  shape : view.conversionShape = .ok .union
  source : union.source = view.pointer
  kind : union.kind = unionKind view found
  members : union.members = (found.map Alternative.type).filter (fits view found)
  discriminator : union.discriminator = discriminatorOf? view
  made : ∃ start stop last, before.Earlier start ∧
    (alternatives (convert setting) (view.oneOf?.getD [])).Returns start found stop ∧
    Classifies setting view found stop last ∧ last.Earlier after

theorem Completed.widen {setting : Setting} {met : View → Prop} {before first last after : Context}
    {union : UnionType} {view : View} {found : List Alternative}
    (h : Completed setting met first last union view found) (hbefore : before.Earlier first)
    (hafter : last.Earlier after) : Completed setting met before after union view found := by
  obtain ⟨start, stop, done, hstart, hreturns, hclassifies, hdone⟩ := h.made
  exact { h with
    made := ⟨start, stop, done, hbefore.trans hstart, hreturns, hclassifies, hdone.trans hafter⟩ }

/-- Every union that is new in the second state was completed. If nothing was returned, it may
also be as it was added. -/
structure AddsUnions (setting : Setting) (met : View → Prop) (returned : Bool)
    (before after : Context) : Prop where
  grows : before.Grows after
  unions : ∀ entry ∈ after.unionRegistry.entries, entry ∈ before.unionRegistry.entries ∨
    (∃ view found, Completed setting met before after entry.2 view found) ∨
    returned = false ∧ AsAdded entry.2

variable {setting : Setting} {met : View → Prop}

namespace AddsUnions

variable {returned : Bool} {before middle after : Context}

/-- What does not touch the unions adds none. -/
theorem of_same (hgrows : before.Grows after)
    (hsame : after.unionRegistry = before.unionRegistry) :
    AddsUnions setting met returned before after :=
  ⟨hgrows, fun _ hentry => .inl (hsame ▸ hentry)⟩

theorem trans (hfirst : AddsUnions setting met true before middle)
    (hsecond : AddsUnions setting met returned middle after) :
    AddsUnions setting met returned before after := by
  refine ⟨hfirst.grows.trans hsecond.grows, fun entry hentry => ?_⟩
  rcases hsecond.unions entry hentry with hmiddle | ⟨view, found, hcompleted⟩ | hopen
  · rcases hfirst.unions entry hmiddle with hbefore | ⟨view, found, hcompleted⟩ | ⟨hfailed, -⟩
    · exact .inl hbefore
    · have hwide := hcompleted.widen (Context.Grows.refl before).earlier hsecond.grows.earlier
      exact .inr (.inl ⟨view, found, hwide⟩)
    · exact absurd hfailed nofun
  · have hwide := hcompleted.widen hfirst.grows.earlier (Context.Grows.refl after).earlier
    exact .inr (.inl ⟨view, found, hwide⟩)
  · exact .inr (.inr hopen)

theorem leave {pointer : Pointer}
    (h : AddsUnions setting met returned (before.enter pointer) after) :
    AddsUnions setting met returned before after.leave := by
  refine ⟨h.grows.leave, fun entry hentry => ?_⟩
  rcases h.unions entry hentry with hbefore | ⟨view, found, hcompleted⟩ | hopen
  · exact .inl hbefore
  · exact .inr (.inl ⟨view, found,
      hcompleted.widen (before.earlier_enter pointer) after.earlier_leave⟩)
  · exact .inr (.inr hopen)

end AddsUnions

theorem gradual_addsUnions : Change.Gradual (AddsUnions setting met) where
  still hgrows hsame := .of_same hgrows hsame.unions
  trans := .trans
  leave := .leave

theorem addsUnions_typeEntry {origin : Origin} {body : Action TypeBody} {view : View}
    {loc : Option LocationCode} (hbody : body.Makes (AddsUnions setting met)) :
    (typeEntry setting origin body view loc).Makes (AddsUnions setting met) := by
  refine .named gradual_addsUnions fun name before hnew => ?_
  have hadded : AddsUnions setting met true before (before.addType (newType view name loc)) :=
    .of_same (Context.Extends.addType hnew).grows rfl
  have hnote : Action.Makes (AddsUnions setting met) _ :=
    .note gradual_addsUnions (.registered origin name.value view.pointer)
  have hstart := hadded.trans (hnote _)
  rw [Action.ensures_bind, Action.ensures_modify, Action.ensures_bind, Action.ensures_note,
    Action.ensures_bind]
  refine (hbody _).imp (fun body after hafter => ?_) fun _ _ hafter => hstart.trans hafter
  exact (hstart.trans hafter).trans (.of_same (.completeType after _ _ _) rfl)

theorem addsUnions_stringEnum {members : List View} {view : View} {loc : Option LocationCode} :
    (stringEnum setting view members loc).Makes (AddsUnions setting met) := by
  refine .named gradual_addsUnions fun name before hnew => ?_
  have hadded : AddsUnions setting met true before
      (before.addEnum (newEnum view members name loc)) :=
    .of_same (Context.Extends.addEnum hnew).grows rfl
  have hnote : Action.Makes (AddsUnions setting met) _ :=
    .note gradual_addsUnions (.registered .enumeration name.value view.pointer)
  exact hadded.trans (hnote _)

section Entry

variable {before start after : Context} {view : View} {name : Label} {loc : Option LocationCode}

/-- The state in which the members of a union are converted. -/
structure Opens (view : View) (name : Label) (loc : Option LocationCode)
    (before start : Context) : Prop where
  grows : before.Grows start
  entries : start.unionRegistry.entries =
    before.unionRegistry.entries ++ [(name.value, newUnion view name loc)]

theorem opens_addUnion (hnew : before.lookup name.value = none) (event : Event) :
    Opens view name loc before ((before.addUnion (newUnion view name loc)).note event) where
  grows := ((Context.Extends.addUnion hnew).trans (.note _ _)).grows
  entries := Registry.entries_insert _ (Context.lookup_eq_none_iff.mp hnew).2.2

/-- If the members of a union are not converted, it stays as it was added. -/
theorem Opens.failed (h : Opens view name loc before start)
    (hbody : AddsUnions setting met false start after) :
    AddsUnions setting met false before after := by
  refine ⟨h.grows.trans hbody.grows, fun entry hentry => ?_⟩
  rcases hbody.unions entry hentry with hstart | ⟨other, found, hcompleted⟩ | hopen
  · rw [h.entries, List.mem_append, List.mem_singleton] at hstart
    rcases hstart with hbefore | rfl
    · exact .inl hbefore
    · exact .inr (.inr ⟨rfl, rfl, rfl, rfl⟩)
  · have hwide := hcompleted.widen h.grows.earlier (Context.Grows.refl after).earlier
    exact .inr (.inl ⟨other, found, hwide⟩)
  · exact .inr (.inr hopen)

/-- Once its members are converted and classified, a union is completed. -/
theorem Opens.completed {middle : Context} {found : List Alternative}
    (h : Opens view name loc before start) (hview : met view)
    (hshape : view.conversionShape = .ok .union) (hextends : start.Extends after)
    (hbody : AddsUnions setting met true start after)
    (hreturns : (alternatives (convert setting) (view.oneOf?.getD [])).Returns start found middle)
    (hclassifies : Classifies setting view found middle after) :
    AddsUnions setting met true before (after.completeUnion name.value (unionKind view found)
      ((found.map Alternative.type).filter (fits view found)) (discriminatorOf? view)) := by
  have hdone := Context.Grows.completeUnion after name.value (unionKind view found)
    ((found.map Alternative.type).filter (fits view found)) (discriminatorOf? view)
  refine ⟨(h.grows.trans hbody.grows).trans hdone, fun entry hentry => ?_⟩
  obtain ⟨key, union⟩ := entry
  obtain ⟨old, hold, hunion⟩ := Registry.mem_entries_modify.mp hentry
  dsimp only at hold hunion
  by_cases hkey : key = name.value
  · -- The entry of this name is the one that was added.
    subst hkey
    have hopen : (name.value, newUnion view name loc) ∈ after.unionRegistry.entries := by
      refine hextends.unions.subset ?_
      rw [h.entries]
      exact List.mem_append_right _ List.mem_cons_self
    rw [← Registry.get?_eq_some_iff] at hold hopen
    obtain rfl : newUnion view name loc = old := Option.some.inj (hopen.symm.trans hold)
    rw [if_pos rfl] at hunion
    subst hunion
    refine .inr (.inl ⟨view, found, hview, hshape, rfl, rfl, rfl, rfl, ?_⟩)
    exact ⟨start, middle, after, h.grows.earlier, hreturns, hclassifies, hdone.earlier⟩
  · rw [if_neg hkey] at hunion
    subst hunion
    rcases hbody.unions _ hold with hstart | ⟨other, members, hcompleted⟩ | ⟨hfailed, -⟩
    · rw [h.entries, List.mem_append, List.mem_singleton] at hstart
      rcases hstart with hbefore | hadded
      · exact .inl hbefore
      · exact absurd (Prod.mk.inj hadded).1 hkey
    · exact .inr (.inl ⟨other, members, hcompleted.widen h.grows.earlier hdone.earlier⟩)
    · exact absurd hfailed nofun

end Entry

section Runs

variable {convert : Converter} (hcontinues : Continues convert)
  (hagrees : convert.Agrees (Analysis.convert setting))

include hcontinues hagrees

theorem addsUnions_union {view : View} {loc : Option LocationCode} (hview : met view)
    (hshape : view.conversionShape = .ok .union)
    (hbody : (unionBody setting convert view).Makes (AddsUnions setting met)) :
    (union setting convert view loc).Makes (AddsUnions setting met) := by
  refine .named gradual_addsUnions fun name before hnew => ?_
  have hopens : Opens view name loc before _ := opens_addUnion hnew
    (.registered .union name.value view.pointer)
  have hfollows : Follows setting convert view loc (some name)
      ((before.addUnion (newUnion view name loc)).note
        (.registered .union name.value view.pointer)) (unionBody setting convert view) _ :=
    follows_unionBody hshape
  rw [Action.ensures_bind, Action.ensures_modify, Action.ensures_bind, Action.ensures_note,
    Action.ensures_bind]
  refine (((hbody _).and ensures_unionBody).and hfollows).imp ?_ ?_
  · rintro _ after ⟨⟨hadds, found, middle, hreturns, rfl, hclassifies⟩, hcourse, -⟩
    rw [Action.ensures_modify]
    have hwhole : (alternatives (Analysis.convert setting) (view.oneOf?.getD [])).Returns _ found
        middle := (agrees_alternatives hagrees _ _ (by rw [hreturns]; nofun)).trans hreturns
    exact hopens.completed hview hshape (hcourse.extends hcontinues) hadds hwhole hclassifies
  · exact fun _ _ hafter => hopens.failed hafter.1.1

theorem entries_addsUnions : Change.Entries setting met (AddsUnions setting met) convert where
  type _ _ _ := addsUnions_typeEntry
  enumeration _ := addsUnions_stringEnum
  union := addsUnions_union hcontinues hagrees

end Runs

theorem convert_addsUnions (setting : Setting)
    (hclosed : ∀ view called, met view → CallsFor setting view called → met called) :
    ∀ view loc, met view → (convert setting view loc).Makes (AddsUnions setting met) :=
  convertWithin_makes gradual_addsUnions hclosed
    (fun _ hcontinues hagrees => entries_addsUnions hcontinues hagrees) le_rfl

/-! ### Documents -/

theorem ensures_alternatives {convert : Converter} {before : Context} (members : List View) :
    (alternatives convert members).Ensures before
      (fun found _ => found.map Alternative.view = members) fun _ _ => True := by
  induction members generalizing before with
  | nil => exact rfl
  | cons member rest ih =>
      rw [alternatives, Action.ensures_bind]
      refine (Action.ensures_returns _ before).imp (fun converted middle _ => ?_) fun _ _ h => h
      rw [Action.ensures_bind]
      refine ih.imp ?_ fun _ _ h => h
      rintro others after rfl
      exact rfl

/-- The violation tells that a member of a union does not fit. -/
def TellsOf (view : View) (member : Alternative) (violation : Violation) : Prop :=
  violation.range = some member.view.code ∧ violation.code = (exclusion view).code ∧
    violation.severity = (exclusion view).severity

instance (view : View) (member : Alternative) (violation : Violation) :
    Decidable (TellsOf view member violation) :=
  inferInstanceAs (Decidable (_ ∧ _ ∧ _))

/-- A union of a document was completed, and nothing was lost of the members. Of each one
that does not fit there is one violation, and their classification records none at the
range of one that does. -/
structure Accounted (setting : Setting) (context : Context) (union : UnionType) (view : View)
    (found : List Alternative) : Prop
    extends Completed setting (Descends setting (View.root setting.document)) {} context union
      view found where
  all : found.map Alternative.view = view.oneOf?.getD []
  told : ∀ member ∈ found, fits view found member.type = false →
    context.violations.countP (TellsOf view member) = 1
  kept : ∀ stop last, Classifies setting view found stop last →
    ∀ violation ∈ last.violations, violation ∉ stop.violations →
      ∀ member ∈ found, fits view found member.type = true →
        violation.range ≠ some member.view.code

section Apart

variable {context : Context} {union : UnionType} {view : View} {found : List Alternative}
  (hapart : setting.document.Apart)
  (hview : Descends setting (View.root setting.document) view)
  (hall : found.map Alternative.view = view.oneOf?.getD [])

include hapart hview hall

/-- What tells that a member does not fit is the record of that. -/
theorem eq_violation_of_tellsOf {member : Alternative} {violation : Violation}
    (hmember : member ∈ found)
    (hreported : Reported setting (View.root setting.document) violation)
    (h : TellsOf view member violation) :
    violation = member.violation setting (exclusion view) := by
  obtain ⟨other, opened, state, problem, range, hother, hreports, rfl⟩ := hreported
  obtain ⟨hrange, hcode, hseverity⟩ := h
  change range = some member.view.code at hrange
  change problem.code = _ at hcode
  change problem.severity = _ at hseverity
  suffices hproblem : problem = exclusion view by rw [hproblem, hrange]; rfl
  by_cases hdiscriminated : (discriminatorOf? view).isSome
  · rw [exclusion, if_pos hdiscriminated] at hcode ⊢
    cases problem with
    | primitiveDiscriminated => rfl
    | _ => cases hcode
  · rw [exclusion, if_neg hdiscriminated] at hcode hseverity ⊢
    -- The other problems of this code are those of a member, or of the value of one.
    have hitem : member.view ∈ view.oneOf?.getD [] := hall ▸ List.mem_map_of_mem hmember
    have hnot := Apart.memberCode?_ne_code hapart hview.reachable.occurs hitem
      hother.reachable.occurs
    cases hreports with
    | anyOf | typeList | enumValues => exact absurd hrange (hnot _)
    | @mapping mapping _ hmapping =>
        obtain ⟨discriminator, hdiscriminator, hchild⟩ := Option.bind_eq_some_iff.mp hmapping
        have hoccurs := hother.reachable.occurs.holds (View.holds_of_child? hdiscriminator)
        exact absurd (Option.some.inj hrange)
          (Apart.code_ne_of_child? hapart hview.reachable.occurs hitem hoccurs hchild)
    | excluded _ _ hproblem =>
        rcases hproblem with rfl | rfl
        · cases hcode
        · rfl
    | tupleItems => cases hseverity
    | unresolved | circular | taken => cases hcode

theorem countP_tellsOf {member : Alternative} (hmember : member ∈ found)
    (hdistinct : context.violations.Nodup)
    (hreported : ∀ violation ∈ context.violations,
      Reported setting (View.root setting.document) violation)
    (htold : member.violation setting (exclusion view) ∈ context.violations) :
    context.violations.countP (TellsOf view member) = 1 := by
  rw [← List.count_eq_one_of_mem hdistinct htold, List.count]
  refine List.countP_congr fun violation hviolation => ?_
  rw [decide_eq_true_eq, beq_iff_eq]
  constructor
  · exact eq_violation_of_tellsOf hapart hview hall hmember (hreported violation hviolation)
  · rintro rfl
    exact ⟨rfl, rfl, rfl⟩

/-- Members that are told apart by their types have different ranges. -/
theorem code_ne_of_fits {member other : Alternative} (hmember : member ∈ found)
    (hother : other ∈ found) (hfits : fits view found member.type = true)
    (hunfit : fits view found other.type = false) : other.view.code ≠ member.view.code := by
  intro hcode
  have hcodes := Apart.nodup_codes hapart hview.reachable.occurs "oneOf"
  change ((view.oneOf?.getD []).map View.code).Nodup at hcodes
  rw [← hall, List.map_map] at hcodes
  obtain rfl : other = member := List.inj_on_of_nodup_map hcodes hother hmember hcode
  exact absurd (hfits.symm.trans hunfit) nofun

theorem range_ne_of_kept {stop last : Context}
    (hclassifies : Classifies setting view found stop last)
    {violation : Violation} (hviolation : violation ∈ last.violations)
    (hnew : violation ∉ stop.violations) {member : Alternative} (hmember : member ∈ found)
    (hfits : fits view found member.type = true) : violation.range ≠ some member.view.code := by
  have hitem : member.view ∈ view.oneOf?.getD [] := hall ▸ List.mem_map_of_mem hmember
  intro hrange
  rcases hclassifies.only violation hviolation with hstop | ⟨mapping, hmapping, rfl⟩ |
    ⟨other, hother, hunfit, rfl⟩
  · exact hnew hstop
  · obtain ⟨discriminator, hdiscriminator, hchild⟩ := Option.bind_eq_some_iff.mp hmapping
    have hoccurs := hview.reachable.occurs.holds (View.holds_of_child? hdiscriminator)
    exact absurd (Option.some.inj hrange)
      (Apart.code_ne_of_child? hapart hview.reachable.occurs hitem hoccurs hchild)
  · exact code_ne_of_fits hapart hview hall hmember hother hfits hunfit (Option.some.inj hrange)

end Apart

/-- Every union of a document is accounted for, if its conversion returns. -/
theorem analyze_accounted {converted : Converted} {context : Context}
    (hapart : setting.document.Apart) (hreturns : analyze setting = (.ok converted, context)) :
    ∀ union ∈ context.unions, ∃ view found, Accounted setting context union view found := by
  have hmakes : Action.Makes (AddsUnions setting (Descends setting (View.root setting.document)))
      (convert setting _ _) :=
    convert_addsUnions setting (fun _ _ hview hcall => hview.tail hcall)
      (View.root setting.document) (some (View.root setting.document).code) .refl
  have hadds := (hmakes {}).of_returns hreturns
  have hkeeps := convertWithin_keeps setting setting.depth (View.root setting.document)
    (some (View.root setting.document).code) {} context ⟨(congrArg Prod.snd hreturns).symm, nofun⟩
  have hreported := analyze_reported setting
  rw [hreturns] at hreported
  intro union hunion
  obtain ⟨entry, hentry, rfl⟩ := List.mem_map.mp hunion
  rcases hadds.unions entry hentry with hbefore | ⟨view, found, hcompleted⟩ | ⟨hfailed, -⟩
  · exact absurd hbefore List.not_mem_nil
  · obtain ⟨start, stop, last, -, hmembers, hclassifies, hlast⟩ := id hcompleted.made
    have hall : found.map Alternative.view = view.oneOf?.getD [] :=
      (ensures_alternatives _).of_returns hmembers
    refine ⟨view, found, { hcompleted with all := hall, told := ?_, kept := ?_ }⟩
    · intro member hmember hunfit
      have hdistinct := hkeeps.distinct List.nodup_nil
      apply countP_tellsOf hapart hcompleted.met hall hmember hdistinct hreported
      exact hlast.violations.subset (hclassifies.told member hmember hunfit)
    · intro stop last hclassifies violation hviolation hnew member hmember hfits
      exact range_ne_of_kept hapart hcompleted.met hall hclassifies hviolation hnew hmember hfits
  · exact absurd hfailed nofun

namespace MixedUnion

/-- A union of anything and of objects. -/
def text : String :=
  "\x7b\"oneOf\":[\x7b\x7d,\x7b\"type\":\"object\"\x7d]\x7d"

/-- The range between two offsets in a text of one line. -/
def range (first last : Int) : Range :=
  ⟨⟨1, first + 1, first⟩, ⟨1, last + 1, last⟩⟩

def tree : Json.Node :=
  .object (range 0 32) [⟨⟨"oneOf", "\"oneOf\"", range 1 8⟩, .array (range 9 31)
    [.object (range 10 12) [], .object (range 13 30)
      [⟨⟨"type", "\"type\"", range 14 20⟩,
        .scalar (range 21 29) (.string "object") "\"object\""⟩]]⟩]

/-- A union of lists whose items are schemas one by one, which are refused. -/
def refused : Setting :=
  ⟨bareObject [("oneOf", .array .start
    [bareObject [("type", bareString "array"), ("items", .array .start [])]])], "", {}⟩

end MixedUnion

end Schemata.Analysis
