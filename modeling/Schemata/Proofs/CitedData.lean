import Schemata.Analysis.Convert
import Schemata.Proofs.Surrogates

/-!
# Cited data

Whatever is taken from a document carries the range that it was taken from, in its written form:
that of a value, of a member or of a key. Nothing is computed with the numbers that are taken, and
strings are only put together in ways that make no pairs of surrogates. Here the ranges, strings
and numbers of an outcome are listed, and those are looked at that a single schema gives.
-/

namespace Schemata

open Source

/-! ### The data of an outcome -/

/-- What the parts of an outcome are made of: written ranges, strings and numbers. -/
inductive Datum
  | range (code : LocationCode)
  | text (text : Str)
  | number (value : Number)

def Datum.code? : Datum → Option LocationCode
  | range code => some code
  | text _ | number _ => none

/-- A range, which may be missing. -/
def locData (loc : Option LocationCode) : List Datum :=
  loc.toList.map .range

def Label.data (label : Label) : List Datum :=
  .text label.value :: locData label.loc

def ConstantValue.data : ConstantValue → List Datum
  | bool _ => []
  | number value => [.number value]
  | string value => [.text value]

def Constant.data (constant : Constant) : List Datum :=
  constant.value.data ++ locData constant.loc

def Constraint.data : Constraint → List Datum
  | pattern text | format text => [.text text]
  | oneOf values => values.map .text
  | uniqueItems _ => []
  | maxLength value | minLength value | multipleOf value | greaterThan value | atLeast value
  | lessThan value | atMost value | minItems value | maxItems value | minProperties value
  | maxProperties value => [.number value]

def Rule.data (rule : Rule) : List Datum :=
  rule.constraint.data ++ locData rule.loc

def Content.data : Content → List Datum
  | .primitive _ loc constant => locData loc ++ constant.toList.flatMap Constant.data
  | .named name => name.data

def ValueType.data (type : ValueType) : List Datum :=
  type.rules.flatMap Rule.data ++ type.content.data

/-- The data of a description, which may be missing. -/
def descriptionData (description : Option (List Label)) : List Datum :=
  (description.getD []).flatMap Label.data

def Property.data (property : Property) : List Datum :=
  property.name.data ++ descriptionData property.description ++ property.type.data ++
    locData property.loc

def ObjectType.data (type : ObjectType) : List Datum :=
  .text type.source :: type.name.data ++ descriptionData type.description ++
    type.properties.flatMap Property.data ++ type.rules.flatMap Rule.data ++ locData type.loc

def EnumType.data (type : EnumType) : List Datum :=
  .text type.source :: type.name.data ++ descriptionData type.description ++
    type.members.flatMap Label.data ++ locData type.loc

def UnionType.data (type : UnionType) : List Datum :=
  .text type.source :: type.name.data ++ descriptionData type.description ++
    type.members.flatMap ValueType.data ++ type.discriminator.toList.flatMap Label.data ++
    locData type.loc

def Violation.data (violation : Violation) : List Datum :=
  .text violation.message :: locData violation.range

/-- The version is an option, and no part of a document. -/
def Service.data (service : Service) : List Datum :=
  service.title.data ++ locData service.loc ++ service.types.flatMap ObjectType.data ++
    service.enums.flatMap EnumType.data ++ service.unions.flatMap UnionType.data

def Outcome.data (outcome : Outcome) : List Datum :=
  outcome.service.data ++ outcome.violations.flatMap Violation.data

/-- All written ranges of an outcome, wherever they stand. -/
def Outcome.codes (outcome : Outcome) : List LocationCode :=
  outcome.data.filterMap Datum.code?

end Schemata

namespace Schemata.Schema

open Json Source Analysis

/-! ### What is taken from a document -/

/-- The range of a value of a document, or of a member of one, or of its key. -/
inductive IsRange (document : Node) : Range → Prop
  | value {node : Node} (hnode : Occurs document node) : IsRange document node.range
  | member {node : Node} {found : Member Node} (hnode : Occurs document node)
      (hfound : found ∈ node.members) : IsRange document found.range
  | key {node : Node} {found : Member Node} (hnode : Occurs document node)
      (hfound : found ∈ node.members) : IsRange document found.key.range

/-- A number is the value of a scalar of a document. -/
def IsNumberOf (document : Node) (number : Number) : Prop :=
  ∃ node, Occurs document node ∧ node.scalar? = some (.number number)

/-- A written range is one of a document, and a number the value of a scalar of it. A string is
made without pairs of surrogates, unless the document or the name of its root holds such a pair. -/
def Cited (naming : Naming) : Datum → Prop
  | .range code => ∃ range, IsRange naming.document range ∧ code = range.code
  | .text text => naming.PairFree → text.PairFree
  | .number value => IsNumberOf naming.document value

def AllCited (naming : Naming) (data : List Datum) : Prop :=
  ∀ datum ∈ data, Cited naming datum

/-- There is a written range, and it is one of a document. -/
def CitedRange (naming : Naming) (loc : Option LocationCode) : Prop :=
  ∃ code, loc = some code ∧ Cited naming (.range code)

section Lists

variable {naming : Naming} {datum : Datum} {first second : List Datum}

@[simp] theorem allCited_nil : AllCited naming [] :=
  List.forall_mem_nil _

@[simp] theorem allCited_cons :
    AllCited naming (datum :: second) ↔ Cited naming datum ∧ AllCited naming second :=
  List.forall_mem_cons

@[simp] theorem allCited_append :
    AllCited naming (first ++ second) ↔ AllCited naming first ∧ AllCited naming second :=
  List.forall_mem_append

@[simp] theorem allCited_flatMap {α : Type} {items : List α} {data : α → List Datum} :
    AllCited naming (items.flatMap data) ↔ ∀ item ∈ items, AllCited naming (data item) :=
  List.forall_mem_flatMap

@[simp] theorem allCited_locData_none : AllCited naming (locData none) :=
  allCited_nil

@[simp] theorem allCited_locData_some {code : LocationCode} :
    AllCited naming (locData (some code)) ↔ Cited naming (.range code) :=
  List.forall_mem_singleton

/-- Where one range may be missing another one stands in. -/
theorem citedRange_or {loc other : Option LocationCode} (hloc : AllCited naming (locData loc))
    (hother : CitedRange naming other) : CitedRange naming (loc.or other) := by
  cases loc with
  | none => rwa [Option.none_or]
  | some code => exact ⟨code, rfl, allCited_locData_some.mp hloc⟩

end Lists

/-! ### What a schema gives -/

section Views

variable {naming : Naming} {view : View} (hview : Reachable naming.document view)

include hview

theorem cited_code : Cited naming (.range view.code) :=
  ⟨_, .value hview.occurs, rfl⟩

theorem cited_pointer : Cited naming (.text view.pointer) := fun hnaming =>
  hview.pairFree hnaming.document

theorem cited_text {value : Scalar} (h : view.scalar? = some value) :
    Cited naming (.text value.text) := fun hnaming =>
  hnaming.document.text hview.occurs h

theorem cited_string {text : Str} (h : view.string? = some text) : Cited naming (.text text) :=
  fun hnaming => hnaming.document.string hview.occurs h

theorem reachable_of_child? {key : Str} {part : View} (h : view.child? key = some part) :
    Reachable naming.document part :=
  hview.below (.single (View.holds_of_child? h))

theorem allCited_memberCode? (key : Str) : AllCited naming (locData (view.memberCode? key)) := by
  unfold View.memberCode?
  cases hmember : view.node.member? key with
  | none => exact allCited_nil
  | some found =>
      exact allCited_locData_some.mpr
        ⟨_, .member hview.occurs (member?_eq_some hmember).1, rfl⟩

theorem cited_entry {entry : Entry} (hentry : entry ∈ view.entries) :
    Cited naming (.range entry.code) ∧ AllCited naming entry.key.label.data := by
  obtain ⟨found, hfound, rfl⟩ := List.mem_map.mp hentry
  refine ⟨⟨_, .member hview.occurs hfound, rfl⟩, allCited_cons.mpr ⟨fun hnaming => ?_, ?_⟩⟩
  · exact hnaming.document.key hview.occurs hfound
  · exact allCited_locData_some.mpr ⟨_, .key hview.occurs hfound, rfl⟩

theorem allCited_paragraphs : AllCited naming (descriptionData view.paragraphs) := by
  unfold View.paragraphs descriptionData
  cases hdescription : view.description? with
  | none => simp
  | some description =>
      have hpart := reachable_of_child? hview hdescription
      rw [Option.bind_some, View.paragraphs?]
      cases htext : description.string? with
      | none => simp
      | some text =>
          dsimp only [Option.bind_some]
          split
          · simp
          · simp only [Option.getD_some, allCited_flatMap, List.forall_mem_map]
            intro paragraph hparagraph
            refine allCited_cons.mpr ⟨fun hnaming => ?_, ?_⟩
            · exact Text.pairFree_paragraphs (cited_string hpart htext hnaming) _ hparagraph
            · exact allCited_locData_some.mpr (cited_code hpart)

/-! ### Rules and constants -/

theorem allCited_ruleUnder {constraint : Constraint} (key : Str)
    (hconstraint : AllCited naming constraint.data) :
    AllCited naming (view.ruleUnder key constraint).data :=
  allCited_append.mpr ⟨hconstraint, allCited_memberCode? hview key⟩

theorem cited_numberUnder {key : Str} {number : Number}
    (h : (view.scalarUnder? key).bind Scalar.number? = some number) :
    Cited naming (.number number) := by
  obtain ⟨scalar, hscalar, hnumber⟩ := Option.bind_eq_some_iff.mp h
  obtain ⟨part, hpart, hvalue⟩ := Option.bind_eq_some_iff.mp hscalar
  refine ⟨part.node, (reachable_of_child? hview hpart).occurs, ?_⟩
  cases scalar with
  | number other =>
      obtain rfl := Option.some.inj hnumber
      exact hvalue
  | null | bool | string => cases hnumber

theorem allCited_numberRule? {key : Str} {constraint : Number → Constraint} {rule : Rule}
    (hdata : ∀ number, (constraint number).data = [.number number])
    (h : view.numberRule? key constraint = some rule) : AllCited naming rule.data := by
  obtain ⟨number, hnumber, rfl⟩ := Option.map_eq_some_iff.mp h
  refine allCited_ruleUnder hview key ?_
  simpa [hdata] using cited_numberUnder hview hnumber

theorem allCited_textRule? {key : Str} {constraint : Str → Constraint} {rule : Rule}
    (hdata : ∀ text, (constraint text).data = [.text text])
    (h : view.textRule? key constraint = some rule) : AllCited naming rule.data := by
  obtain ⟨text, htext, rfl⟩ := Option.map_eq_some_iff.mp h
  obtain ⟨scalar, hscalar, hstring⟩ :=
    Option.bind_eq_some_iff.mp (Option.filter_eq_some_iff.mp htext).1
  obtain ⟨part, hpart, hvalue⟩ := Option.bind_eq_some_iff.mp hscalar
  have hcited := cited_string (reachable_of_child? hview hpart)
    (Option.bind_eq_some_iff.mpr ⟨scalar, hvalue, hstring⟩)
  refine allCited_ruleUnder hview key ?_
  simpa [hdata] using hcited

theorem allCited_enumRule? {rule : Rule} (h : view.enumRule? = some rule) :
    AllCited naming rule.data := by
  unfold View.enumRule? at h
  split at h
  · cases h
  next members hmembers =>
    dsimp only at h
    split at h
    · cases h
    · obtain rfl := Option.some.inj h
      refine allCited_ruleUnder hview _ fun datum hdatum => ?_
      obtain ⟨text, htext, rfl⟩ := List.mem_map.mp hdatum
      obtain ⟨member, hmember, hstring⟩ := List.mem_filterMap.mp htext
      exact cited_string (hview.below (View.below_of_mem_children? hmembers hmember)) hstring

/-- A bound is the number under one of its two keywords. -/
theorem allCited_boundRule? {key exclusiveKey : Str} {tighter : Number → Number → Bool}
    {strict lax : Number → Constraint} {rule : Rule}
    (hstrict : ∀ number, (strict number).data = [.number number])
    (hlax : ∀ number, (lax number).data = [.number number])
    (h : view.boundRule? key exclusiveKey tighter strict lax = some rule) :
    AllCited naming rule.data := by
  unfold View.boundRule? at h
  dsimp only at h
  split at h
  next number hnumber =>
    obtain rfl := Option.some.inj h
    refine allCited_ruleUnder hview _ ?_
    simpa [hstrict] using cited_numberUnder hview (Option.filter_eq_some_iff.mp hnumber).1
  next =>
    obtain ⟨number, hnumber, rfl⟩ := Option.map_eq_some_iff.mp h
    have hcited := cited_numberUnder hview hnumber
    refine allCited_ruleUnder hview _ ?_
    split
    · simpa [hstrict] using hcited
    · simpa [hlax] using hcited

theorem allCited_read? {facet : Facet} {rule : Rule} (h : facet.read? view = some rule) :
    AllCited naming rule.data := by
  cases facet with
  | maxLength | minLength | multipleOf | minItems | maxItems | minProperties | maxProperties =>
      exact allCited_numberRule? hview (fun _ => rfl) h
  | pattern | format => exact allCited_textRule? hview (fun _ => rfl) h
  | lowerBound | upperBound => exact allCited_boundRule? hview (fun _ => rfl) (fun _ => rfl) h
  | enumeration => exact allCited_enumRule? hview h
  | uniqueItems =>
      simp only [Facet.read?] at h
      split at h
      · obtain rfl := Option.some.inj h
        exact allCited_ruleUnder hview _ allCited_nil
      · cases h
  | additionalProperties => cases h

theorem allCited_rules {facets : List Facet} {rules : List Rule}
    (h : Facet.rules view facets = .ok rules) : AllCited naming (rules.flatMap Rule.data) := by
  induction facets generalizing rules with
  | nil =>
      obtain rfl := Except.ok.inj h
      exact allCited_nil
  | cons facet rest ih =>
      obtain ⟨rule, hrule, h⟩ := bind_eq_ok.mp h
      obtain ⟨others, hothers, h⟩ := bind_eq_ok.mp h
      obtain rfl := Except.ok.inj h
      rw [List.flatMap_append, allCited_append]
      refine ⟨?_, ih hothers⟩
      cases rule with
      | none => exact allCited_nil
      | some rule =>
          simp only [Option.toList_some, List.flatMap_singleton]
          unfold Facet.rule? at hrule
          split at hrule
          · simp at hrule
          · obtain ⟨applies, -, hread⟩ := map_eq_ok.mp hrule
            split at hread
            · exact allCited_read? hview hread
            · simp at hread

theorem allCited_constant {constant : Constant}
    (h : view.constant?.bind View.constantOf? = some constant) :
    AllCited naming constant.data := by
  obtain ⟨value, hvalue, h⟩ := Option.bind_eq_some_iff.mp h
  have hpart := reachable_of_child? hview hvalue
  simp only [View.constantOf?, Option.bind_eq_bind, Option.bind_eq_some_iff] at h
  obtain ⟨scalar, hscalar, found, hfound, h⟩ := h
  obtain rfl := Option.some.inj h
  refine allCited_append.mpr ⟨?_, allCited_locData_some.mpr (cited_code hpart)⟩
  cases scalar with
  | null => cases hfound
  | bool =>
      obtain rfl := Option.some.inj hfound
      exact allCited_nil
  | number number =>
      obtain rfl := Option.some.inj hfound
      exact allCited_cons.mpr ⟨⟨_, hpart.occurs, hscalar⟩, allCited_nil⟩
  | string text =>
      obtain rfl := Option.some.inj hfound
      exact allCited_cons.mpr ⟨cited_text hpart hscalar, allCited_nil⟩

/-! ### Keywords -/

theorem citedRange_of_children? {key : Str} (h : (view.children? key).isSome) :
    CitedRange naming (view.memberCode? key) := by
  obtain ⟨parts, hparts⟩ := Option.isSome_iff_exists.mp h
  simp only [View.children?, Option.bind_eq_bind, Option.bind_eq_some_iff] at hparts
  obtain ⟨found, hfound, -⟩ := hparts
  refine ⟨found.range.code, by rw [View.memberCode?, hfound, Option.map_some], _, ?_, rfl⟩
  exact .member hview.occurs (member?_eq_some hfound).1

theorem citedRange_of_many {key : Str} {parts : List View}
    (h : view.oneOrMany? key = some (.many parts)) :
    CitedRange naming (view.memberCode? key) := by
  refine citedRange_of_children? hview ?_
  unfold View.oneOrMany? at h
  split at h
  next hparts => exact Option.isSome_of_eq_some hparts
  next => simp at h

/-- The keyword that decides the shape of a schema is there. -/
theorem citedRange_of_shape {shape : Shape} (h : view.shape = .ok shape) :
    (shape = .anyOf → CitedRange naming (view.memberCode? "anyOf")) ∧
      (shape = .typeList → CitedRange naming (view.memberCode? "type")) ∧
      (shape = .enumeration → CitedRange naming (view.memberCode? "enum")) := by
  unfold View.shape at h
  split at h
  · obtain rfl := Except.ok.inj h
    simp
  split at h
  · obtain rfl := Except.ok.inj h
    simp
  split at h
  next hanyOf =>
    obtain rfl := Except.ok.inj h
    simpa using citedRange_of_children? hview hanyOf
  next =>
    split at h
    · obtain rfl := Except.ok.inj h
      simp
    split at h
    next htype =>
      obtain rfl := Except.ok.inj h
      simpa using citedRange_of_many hview htype
    next =>
      split at h
      next henum =>
        obtain rfl := Except.ok.inj h
        simpa using citedRange_of_children? hview henum
      next => rcases Analysis.shapeOfType_cases h with rfl | rfl | rfl <;> simp

end Views

/-! ### Names -/

section Names

variable {naming : Naming} {label : Label}

theorem allCited_titleLoc {node : Node} (hnode : Occurs naming.document node)
    (h : titleLabel? node = some label) : AllCited naming (locData label.loc) := by
  simp only [titleLabel?, Option.bind_eq_bind, Option.bind_eq_some_iff] at h
  obtain ⟨found, hfound, text, -, h⟩ := h
  split at h
  · cases h
  · obtain rfl := Option.some.inj h
    exact allCited_locData_some.mpr ⟨_, .value (hnode.member (member?_eq_some hfound).1), rfl⟩

theorem cited_lastKey {path : List Str} {key : Key}
    (h : lastKey naming.document none path = .ok (some key)) :
    Cited naming (.range key.range.code) := by
  rcases member_of_lastKey (.root naming.document) h with hnone | ⟨_, found, hnode, hfound, rfl⟩
  · cases hnone
  · exact ⟨_, .key hnode hfound, rfl⟩

/-- A part has the range of the last key, or none. -/
theorem allCited_partLoc {owner : Option Label} {key : Option Key} {path : List Str} (last : Str)
    (h : lastKey naming.document none path = .ok key ∨ key = none) :
    AllCited naming (locData (Naming.partLabel owner key last).loc) := by
  rw [Naming.partLabel]
  cases hfound : key.filter fun key => key.name = last with
  | none => exact allCited_nil
  | some found =>
      obtain rfl := (Option.filter_eq_some_iff.mp hfound).1
      exact allCited_locData_some.mpr (cited_lastKey (h.resolve_right (Option.some_ne_none _)))

/-- A name below the root has the range of a key, or none. -/
theorem allCited_pathLoc {path : List Str} (h : naming.ofPath path = .ok (some label)) :
    AllCited naming (locData label.loc) := by
  unfold Naming.ofPath at h
  split at h
  · obtain rfl := Option.some.inj (Except.ok.inj h)
    exact allCited_nil
  · dsimp only at h
    split at h
    all_goals
      obtain ⟨owner, -, h⟩ := bind_eq_ok.mp h
      obtain ⟨key, hkey, h⟩ := bind_eq_ok.mp h
      obtain rfl := Option.some.inj (Except.ok.inj h)
      exact allCited_partLoc _ (.inl hkey)
  · split at h
    · obtain ⟨key, hkey, h⟩ := bind_eq_ok.mp h
      obtain ⟨found, rfl, rfl⟩ := Option.map_eq_some_iff.mp (Except.ok.inj h)
      exact allCited_locData_some.mpr (cited_lastKey hkey)
    · dsimp only at h
      split at h
      all_goals
        obtain ⟨owner, -, h⟩ := bind_eq_ok.mp h
        obtain ⟨key, hkey, h⟩ := bind_eq_ok.mp h
        obtain rfl := Option.some.inj (Except.ok.inj h)
        exact allCited_partLoc _ (.inl hkey)

theorem allCited_foreignPathLoc {first : Str} {path : List Str}
    (h : naming.ofForeignPath first path = .ok (some label)) :
    AllCited naming (locData label.loc) := by
  unfold Naming.ofForeignPath at h
  split at h
  · cases h
  · dsimp only at h
    split at h
    all_goals
      obtain ⟨owner, -, h⟩ := bind_eq_ok.mp h
      obtain rfl := Option.some.inj (Except.ok.inj h)
      exact allCited_nil
  · split at h
    · cases h
    · obtain ⟨owner, -, h⟩ := bind_eq_ok.mp h
      obtain rfl := Option.some.inj (Except.ok.inj h)
      exact allCited_nil

/-- A name has the range of a title or of a key, or none. -/
theorem allCited_infer {view : View} (hview : Reachable naming.document view)
    (h : naming.infer view = .ok (some label)) : AllCited naming label.data := by
  refine allCited_cons.mpr ⟨fun hnaming => pairFree_infer hnaming hview h, ?_⟩
  unfold Naming.infer at h
  split at h
  next title htitle =>
    obtain rfl := Option.some.inj (Except.ok.inj h)
    exact allCited_titleLoc hview.occurs htitle
  next =>
    unfold Naming.ofPointer at h
    split at h
    · cases h
    · split at h
      · exact allCited_pathLoc h
      · exact allCited_foreignPathLoc h

end Names

end Schemata.Schema
