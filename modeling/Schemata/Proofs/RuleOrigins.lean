import Schemata.Proofs.Bounds

/-!
# Where rules come from

Each rule of a schema is given by a facet, from the first member under a keyword: what it demands
is taken from the value of that member, and its range is the member's. Facets give at most one
rule each, in their order, and all that do are of the one family that the schema declares.
-/

namespace Schemata

open Schema Json

/-- The facet that gives rules with a constraint. -/
def Constraint.facet : Constraint → Facet
  | maxLength _ => .maxLength
  | minLength _ => .minLength
  | pattern _ => .pattern
  | format _ => .format
  | oneOf _ => .enumeration
  | multipleOf _ => .multipleOf
  | greaterThan _ | atLeast _ => .lowerBound
  | lessThan _ | atMost _ => .upperBound
  | minItems _ => .minItems
  | maxItems _ => .maxItems
  | uniqueItems _ => .uniqueItems
  | minProperties _ => .minProperties
  | maxProperties _ => .maxProperties

/-- The keywords that hold numbers, with the constraints that these become. -/
def numberKeywords : List (Str × (Number → Constraint)) :=
  [("maxLength", .maxLength), ("minLength", .minLength), ("multipleOf", .multipleOf),
    ("minimum", .atLeast), ("minimum", .greaterThan), ("exclusiveMinimum", .greaterThan),
    ("maximum", .atMost), ("maximum", .lessThan), ("exclusiveMaximum", .lessThan),
    ("minItems", .minItems), ("maxItems", .maxItems), ("minProperties", .minProperties),
    ("maxProperties", .maxProperties)]

/-- The keywords that hold texts, with the constraints that these become. -/
def textKeywords : List (Str × (Str → Constraint)) :=
  [("pattern", .pattern), ("format", .format)]

/-- What a constraint demands is the value under a keyword; of an enumeration, the strings in
it. -/
inductive Constraint.TakenFrom (value : Node) : Str → Constraint → Prop
  | number {key : Str} {constraint : Number → Constraint} {number : Number}
      (hkey : (key, constraint) ∈ numberKeywords) (hvalue : value.scalar? = some (.number number)) :
      TakenFrom value key (constraint number)
  | text {key : Str} {constraint : Str → Constraint} {text : Str}
      (hkey : (key, constraint) ∈ textKeywords) (hvalue : value.scalar? = some (.string text)) :
      TakenFrom value key (constraint text)
  | strings {items : List Node} (hvalue : value.array? = some items) :
      TakenFrom value "enum"
        (.oneOf (items.filterMap fun item => item.scalar?.bind Scalar.string?))
  | flag (hvalue : value.scalar? = some (.bool true)) :
      TakenFrom value "uniqueItems" (.uniqueItems true)

namespace Schema

/-- The first of the members under a key. -/
def FirstUnder (node : Node) (key : Str) (member : Member Node) : Prop :=
  ∃ before after, node.members = before ++ member :: after ∧ member.key.name = key ∧
    ∀ other ∈ before, other.key.name ≠ key

/-- The rule comes from the first member under a keyword. -/
def ComesFrom (node : Node) (rule : Rule) : Prop :=
  ∃ key member, FirstUnder node key member ∧ rule.loc = some member.range.code ∧
    rule.constraint.TakenFrom member.value key

/-- The names of the types of a family. -/
def Family.typeNames : Family → List Str
  | strings => ["string"]
  | numbers => ["number", "integer"]
  | arrays => ["array"]
  | objects => ["object"]

/-- A schema declares one type, which is of the family. -/
def Family.DeclaredBy (family : Family) (node : Node) : Prop :=
  ∃ member name, FirstUnder node "type" member ∧ member.value.scalar? = some (.string name) ∧
    name ∈ family.typeNames

/-- The rules come from members of a schema, by some of the facets in their order, and all that
gave one are of the one family that the schema declares. -/
structure Originate (view : View) (facets : List Facet) (families : List Family)
    (rules : List Rule) : Prop where
  order : (rules.map fun rule => rule.constraint.facet).Sublist facets
  given : ∀ rule ∈ rules, rule.constraint.facet.rule? view = .ok (some rule)
  family : rules = [] ∨ ∃ family ∈ families, family.DeclaredBy view.node ∧
    ∀ rule ∈ rules, rule.constraint.facet.family = family
  comesFrom : ∀ rule ∈ rules, ComesFrom view.node rule

variable {view : View} {rule : Rule}

theorem firstUnder_iff {node : Node} {key : Str} {member : Member Node} :
    FirstUnder node key member ↔ node.member? key = some member := by
  simp only [FirstUnder, Node.member?, List.find?_eq_some_iff_append, decide_eq_true_eq,
    Bool.not_eq_true', decide_eq_false_iff_not]
  grind

/-- There is one first member under a key. -/
theorem FirstUnder.unique {node : Node} {key : Str} {member other : Member Node}
    (h : FirstUnder node key member) (hother : FirstUnder node key other) : member = other :=
  Option.some.inj ((firstUnder_iff.mp h).symm.trans (firstUnder_iff.mp hother))

/-- A schema declares types of one family at most. -/
theorem Family.DeclaredBy.unique {node : Node} {family other : Family}
    (h : family.DeclaredBy node) (hother : other.DeclaredBy node) : family = other := by
  obtain ⟨member, name, hmember, hname, hfamily⟩ := h
  obtain ⟨found, text, hfound, htext, hfamilies⟩ := hother
  obtain rfl := hmember.unique hfound
  obtain rfl : name = text := by simpa [hname] using htext
  cases family <;> cases other <;> simp_all [typeNames]

/-! ### What one facet gives -/

namespace View

variable {key : Str}

theorem scalarUnder?_eq_some_iff {value : Scalar} : view.scalarUnder? key = some value ↔
    ∃ member, FirstUnder view.node key member ∧ member.value.scalar? = some value := by
  simp only [scalarUnder?, child?, firstUnder_iff, Option.bind_eq_some_iff, Option.map_eq_some_iff]
  constructor
  · rintro ⟨_, ⟨member, hmember, rfl⟩, hvalue⟩
    exact ⟨member, hmember, hvalue⟩
  · rintro ⟨member, hmember, hvalue⟩
    exact ⟨_, ⟨member, hmember, rfl⟩, hvalue⟩

theorem loc_ruleUnder {member : Member Node} (h : FirstUnder view.node key member)
    (constraint : Constraint) :
    view.ruleUnder key constraint = ⟨constraint, some member.range.code⟩ := by
  rw [ruleUnder, memberCode?, firstUnder_iff.mp h]
  rfl

theorem comesFrom_ruleUnder {constraint : Constraint} {member : Member Node}
    (hmember : FirstUnder view.node key member)
    (hconstraint : constraint.TakenFrom member.value key) :
    ComesFrom view.node (view.ruleUnder key constraint) :=
  ⟨key, member, hmember, by rw [loc_ruleUnder hmember], hconstraint⟩

theorem comesFrom_number {constraint : Number → Constraint} {number : Number}
    (hkey : (key, constraint) ∈ numberKeywords) (hnumber : view.numberUnder? key = some number) :
    ComesFrom view.node (view.ruleUnder key (constraint number)) := by
  obtain ⟨member, hmember, hvalue⟩ :=
    scalarUnder?_eq_some_iff.mp (numberUnder?_eq_some_iff.mp hnumber)
  exact comesFrom_ruleUnder hmember (.number hkey hvalue)

theorem origin_of_numberRule? {constraint : Number → Constraint} {facet : Facet}
    (hkey : (key, constraint) ∈ numberKeywords)
    (hfacet : ∀ number, (constraint number).facet = facet)
    (h : view.numberRule? key constraint = some rule) :
    rule.constraint.facet = facet ∧ ComesFrom view.node rule := by
  obtain ⟨number, hnumber, rfl⟩ := Option.map_eq_some_iff.mp h
  exact ⟨hfacet number, comesFrom_number hkey hnumber⟩

theorem origin_of_textRule? {constraint : Str → Constraint} {facet : Facet}
    (hkey : (key, constraint) ∈ textKeywords) (hfacet : ∀ text, (constraint text).facet = facet)
    (h : view.textRule? key constraint = some rule) :
    rule.constraint.facet = facet ∧ ComesFrom view.node rule := by
  obtain ⟨text, htext, rfl⟩ := Option.map_eq_some_iff.mp h
  obtain ⟨value, hscalar, hstring⟩ :=
    Option.bind_eq_some_iff.mp (Option.filter_eq_some_iff.mp htext).1
  obtain ⟨member, hmember, hvalue⟩ := scalarUnder?_eq_some_iff.mp hscalar
  obtain rfl : value = .string text := by
    cases value <;> simp_all [Scalar.string?]
  exact ⟨hfacet text, comesFrom_ruleUnder hmember (.text hkey hvalue)⟩

/-- Either keyword may supply a bound. -/
theorem origin_of_boundRule? {exclusiveKey : Str} {tighter : Number → Number → Bool}
    {strict lax : Number → Constraint} {facet : Facet}
    (hexclusive : (exclusiveKey, strict) ∈ numberKeywords)
    (hstrict : (key, strict) ∈ numberKeywords) (hlax : (key, lax) ∈ numberKeywords)
    (hstrictFacet : ∀ number, (strict number).facet = facet)
    (hlaxFacet : ∀ number, (lax number).facet = facet)
    (h : view.boundRule? key exclusiveKey tighter strict lax = some rule) :
    rule.constraint.facet = facet ∧ ComesFrom view.node rule := by
  dsimp only [boundRule?] at h
  split at h
  next number hnumber =>
    obtain rfl := Option.some.inj h
    have hown : view.numberUnder? exclusiveKey = some number :=
      (Option.filter_eq_some_iff.mp hnumber).1
    exact ⟨hstrictFacet number, comesFrom_number hexclusive hown⟩
  next =>
    obtain ⟨number, hnumber, rfl⟩ := Option.map_eq_some_iff.mp h
    split
    · exact ⟨hstrictFacet number, comesFrom_number hstrict hnumber⟩
    · exact ⟨hlaxFacet number, comesFrom_number hlax hnumber⟩

theorem array_of_children? {members : List View} (h : view.children? key = some members) :
    ∃ member, FirstUnder view.node key member ∧
      member.value.array? = some (members.map View.node) := by
  obtain ⟨member, hmember, h⟩ := Option.bind_eq_some_iff.mp h
  obtain ⟨items, hitems, h⟩ := Option.bind_eq_some_iff.mp h
  obtain rfl := Option.some.inj h
  refine ⟨member, firstUnder_iff.mpr hmember, ?_⟩
  rw [hitems]
  exact congrArg some (List.ext_getElem (by simp) (by simp))

theorem origin_of_enumRule? (h : view.enumRule? = some rule) :
    rule.constraint.facet = .enumeration ∧ ComesFrom view.node rule := by
  unfold enumRule? at h
  split at h
  · cases h
  next members hmembers =>
    dsimp only at h
    split at h
    · cases h
    obtain rfl := Option.some.inj h
    obtain ⟨member, hmember, hvalue⟩ := array_of_children? hmembers
    have hstrings : members.filterMap View.string? = (members.map View.node).filterMap
        fun item => item.scalar?.bind Scalar.string? := by
      rw [List.filterMap_map]
      rfl
    rw [hstrings]
    exact ⟨rfl, comesFrom_ruleUnder hmember (.strings hvalue)⟩

theorem origin_of_uniqueItems (h : Facet.uniqueItems.read? view = some rule) :
    rule.constraint.facet = .uniqueItems ∧ ComesFrom view.node rule := by
  simp only [Facet.read?] at h
  split at h
  next htrue =>
    obtain rfl := Option.some.inj h
    obtain ⟨member, hmember, hvalue⟩ := scalarUnder?_eq_some_iff.mp htrue
    exact ⟨rfl, comesFrom_ruleUnder hmember (.flag hvalue)⟩
  next => cases h

end View

/-- What a facet reads is a rule of its own, from a member of the schema. -/
theorem Facet.origin_of_read? {facet : Facet} (h : facet.read? view = some rule) :
    rule.constraint.facet = facet ∧ ComesFrom view.node rule := by
  cases facet with
  | pattern | format => exact View.origin_of_textRule? (by simp [textKeywords]) (fun _ => rfl) h
  | enumeration => exact View.origin_of_enumRule? h
  | lowerBound | upperBound =>
      exact View.origin_of_boundRule? (by simp [numberKeywords]) (by simp [numberKeywords])
        (by simp [numberKeywords]) (fun _ => rfl) (fun _ => rfl) h
  | uniqueItems => exact View.origin_of_uniqueItems h
  | additionalProperties => cases h
  | maxLength | minLength | multipleOf | minItems | maxItems | minProperties | maxProperties =>
      exact View.origin_of_numberRule? (by simp [numberKeywords]) (fun _ => rfl) h

/-! ### What all of them give -/

theorem View.scalarUnder?_of_hasType {name : Str} (h : view.hasType name = .ok true) :
    view.scalarUnder? "type" = some (.string name) := by
  unfold hasType at h
  split at h
  next type htype =>
    obtain ⟨value, hvalue, hname⟩ := map_eq_ok.mp h
    obtain rfl : value = .string name := by simpa using hname
    have hchild : view.child? "type" = some type := by
      unfold type? oneOrMany? at htype
      split at htype
      · simp at htype
      · simpa using htype
    rw [scalarUnder?, hchild, Option.bind_some, scalar?_of_scalar hvalue]
  next => cases h

theorem Family.declaredBy_of_hasFamily {family : Family} (h : view.hasFamily family = .ok true) :
    family.DeclaredBy view.node := by
  have hdeclared : ∀ name ∈ family.typeNames, view.hasType name = .ok true →
      family.DeclaredBy view.node := by
    intro name hname htype
    obtain ⟨member, hmember, hvalue⟩ :=
      View.scalarUnder?_eq_some_iff.mp (View.scalarUnder?_of_hasType htype)
    exact ⟨member, name, hmember, hvalue, hname⟩
  cases family with
  | strings | arrays | objects => exact hdeclared _ List.mem_cons_self h
  | numbers =>
      obtain ⟨isNumber, hnumber, h⟩ := bind_eq_ok.mp h
      obtain ⟨isInteger, hinteger, h⟩ := bind_eq_ok.mp h
      cases isNumber with
      | true => exact hdeclared _ List.mem_cons_self hnumber
      | false =>
          obtain rfl : isInteger = true := Except.ok.inj h
          exact hdeclared _ (List.mem_cons_of_mem _ List.mem_cons_self) hinteger

/-- The rule that a facet gives is its own, from a member of a schema that declares the family of
the facet. -/
theorem Facet.origin_of_rule? {facet : Facet} (h : facet.rule? view = .ok (some rule)) :
    rule.constraint.facet = facet ∧ facet.family.DeclaredBy view.node ∧
      ComesFrom view.node rule := by
  unfold Facet.rule? at h
  split at h
  · cases h
  obtain ⟨applies, happlies, hread⟩ := map_eq_ok.mp h
  cases applies with
  | false => cases hread
  | true =>
      obtain ⟨hfacet, hcomes⟩ := Facet.origin_of_read? hread
      exact ⟨hfacet, Family.declaredBy_of_hasFamily happlies, hcomes⟩

/-- The facets of a list give their rules one after the other. -/
theorem Facet.rules_eq_ok {facets : List Facet} {rules : List Rule}
    (h : Facet.rules view facets = .ok rules) :
    (rules.map fun rule => rule.constraint.facet).Sublist facets ∧
      ∀ rule ∈ rules, rule.constraint.facet.rule? view = .ok (some rule) := by
  induction facets generalizing rules with
  | nil =>
      obtain rfl := Except.ok.inj h
      exact ⟨.slnil, fun _ hrule => absurd hrule List.not_mem_nil⟩
  | cons facet rest ih =>
      obtain ⟨found, hfound, h⟩ := bind_eq_ok.mp h
      obtain ⟨others, hothers, h⟩ := bind_eq_ok.mp h
      obtain rfl := Except.ok.inj h
      obtain ⟨horder, hgiven⟩ := ih hothers
      cases found with
      | none => exact ⟨horder.cons facet, hgiven⟩
      | some rule =>
          have hfacet := (Facet.origin_of_rule? hfound).1
          refine ⟨?_, List.forall_mem_cons.mpr ⟨hfacet ▸ hfound, hgiven⟩⟩
          rw [Option.toList_some, List.singleton_append, List.map_cons, hfacet]
          exact horder.cons_cons facet

theorem originate_of_rules {facets : List Facet} {families : List Family} {rules : List Rule}
    (hfamilies : ∀ facet ∈ facets, facet.family ∈ families)
    (h : Facet.rules view facets = .ok rules) : Originate view facets families rules := by
  obtain ⟨horder, hgiven⟩ := Facet.rules_eq_ok h
  refine ⟨horder, hgiven, ?_, fun rule hrule => (Facet.origin_of_rule? (hgiven rule hrule)).2.2⟩
  have hdeclared : ∀ rule ∈ rules, rule.constraint.facet.family.DeclaredBy view.node :=
    fun rule hrule => (Facet.origin_of_rule? (hgiven rule hrule)).2.1
  cases rules with
  | nil => exact .inl rfl
  | cons first rest =>
      have hfirst := hdeclared first List.mem_cons_self
      refine .inr ⟨_, hfamilies _ (horder.subset List.mem_cons_self), hfirst, ?_⟩
      exact fun rule hrule => (hdeclared rule hrule).unique hfirst

/-- The rules on the values of a schema come from members of it, by the facets of values in their
order, and belong to the one family of strings, numbers or arrays that it declares. So do the
rules on its objects, by the facets of objects, if it declares these. No facet gives two. -/
theorem rules_originate (view : View) :
    (∀ rules, view.valueRules = .ok rules →
      (rules.map fun rule => rule.constraint.facet).Nodup ∧
        Originate view Facet.ofValues [.strings, .numbers, .arrays] rules) ∧
    ∀ rules, view.objectRules = .ok rules →
      (rules.map fun rule => rule.constraint.facet).Nodup ∧
        Originate view Facet.ofObjects [.objects] rules := by
  constructor
  · intro rules hrules
    have horigin : Originate view Facet.ofValues [.strings, .numbers, .arrays] rules :=
      originate_of_rules (by decide) hrules
    exact ⟨horigin.order.nodup (by decide), horigin⟩
  · intro rules hrules
    have horigin : Originate view Facet.ofObjects [.objects] rules :=
      originate_of_rules (by decide) hrules
    exact ⟨horigin.order.nodup (by decide), horigin⟩

namespace RepeatedMinimum

open Analysis (bareObject bareString)

/-- A schema of numbers with two lax lower bounds and a strict one between them, a strict upper
bound and a keyword for strings. -/
def text : String :=
  "\x7b\"type\":\"number\",\"minimum\":1,\"minimum\":7,\"exclusiveMinimum\":2," ++
    "\"maximum\":9,\"exclusiveMaximum\":true,\"maxLength\":3\x7d"

def schema : View :=
  View.root <| .object (.inFirstLine 0 112)
    [⟨⟨"type", "\"type\"", .inFirstLine 1 7⟩,
        .scalar (.inFirstLine 8 16) (.string "number") "\"number\""⟩,
      ⟨⟨"minimum", "\"minimum\"", .inFirstLine 17 26⟩,
        .scalar (.inFirstLine 27 28) (.number (.integer 1)) "1"⟩,
      ⟨⟨"minimum", "\"minimum\"", .inFirstLine 29 38⟩,
        .scalar (.inFirstLine 39 40) (.number (.integer 7)) "7"⟩,
      ⟨⟨"exclusiveMinimum", "\"exclusiveMinimum\"", .inFirstLine 41 59⟩,
        .scalar (.inFirstLine 60 61) (.number (.integer 2)) "2"⟩,
      ⟨⟨"maximum", "\"maximum\"", .inFirstLine 62 71⟩,
        .scalar (.inFirstLine 72 73) (.number (.integer 9)) "9"⟩,
      ⟨⟨"exclusiveMaximum", "\"exclusiveMaximum\"", .inFirstLine 74 92⟩,
        .scalar (.inFirstLine 93 97) (.bool true) "true"⟩,
      ⟨⟨"maxLength", "\"maxLength\"", .inFirstLine 98 109⟩,
        .scalar (.inFirstLine 110 111) (.number (.integer 3)) "3"⟩]

theorem read_text : Json.read text = .ok schema.node := by
  cbv

/-- A schema of objects that names the upper limit first. -/
def limited : View :=
  View.root (bareObject [("maxProperties", .scalar .start (.number (.integer 4)) "4"),
    ("type", bareString "object"), ("minProperties", .scalar .start (.number (.integer 1)) "1")])

/-- The second of the lax bounds does not count, and the range of the upper bound is that of the
keyword with the number. -/
theorem originate_repeatedMinimum :
    Json.read text = .ok schema.node ∧
      (∃ rules, schema.valueRules = .ok rules ∧
        rules = [⟨.greaterThan (.integer 2), some "1;42;1;62;41;61;0"⟩,
          ⟨.lessThan (.integer 9), some "1;63;1;74;62;73;0"⟩] ∧
        Originate schema Facet.ofValues [.strings, .numbers, .arrays] rules) ∧
      ∃ rules, limited.objectRules = .ok rules ∧
        rules.map Rule.constraint = [.minProperties (.integer 1), .maxProperties (.integer 4)] ∧
        Originate limited Facet.ofObjects [.objects] rules := by
  have hvalues : schema.valueRules = .ok [⟨.greaterThan (.integer 2), some "1;42;1;62;41;61;0"⟩,
      ⟨.lessThan (.integer 9), some "1;63;1;74;62;73;0"⟩] := by
    decide +kernel
  have hobjects : limited.objectRules =
      .ok [limited.ruleUnder "minProperties" (.minProperties (.integer 1)),
        limited.ruleUnder "maxProperties" (.maxProperties (.integer 4))] := rfl
  exact ⟨read_text, ⟨_, hvalues, rfl, ((rules_originate schema).1 _ hvalues).2⟩,
    _, hobjects, rfl, ((rules_originate limited).2 _ hobjects).2⟩

end RepeatedMinimum

end Schema

end Schemata
