import Mathlib.Algebra.Order.Field.Rat
import Mathlib.Order.WithBot
import Mathlib.Tactic.NormNum
import Schemata.Proofs.Marks
import Schemata.Proofs.ReferencedRules

/-!
# Bounds of numbers

Two keywords may bound a number from the same side, the one laxly and the other strictly,
and one rule stands for both. It admits the numbers that are within either bound. Numbers
are compared by their exact values, and an infinite one lies beyond all rationals.
-/

namespace Schemata

/-- The rationals with an end on either side. -/
abbrev Level :=
  WithBot (WithTop ℚ)

/-- A rational among the levels. -/
def Level.ofRat (x : ℚ) : Level :=
  ((x : WithTop ℚ) : WithBot (WithTop ℚ))

/-- Where a number lies among the rationals, or on which side of all of them. -/
def Number.level : Number → Level
  | integer value => .ofRat value
  | float (.finite value) => .ofRat value.toRat
  | float .negativeZero => .ofRat 0
  | float (.infinite true) => ⊥
  | float (.infinite false) => ⊤

/-- A rational number satisfies a bound. -/
inductive Constraint.Admits (x : ℚ) : Constraint → Prop
  | greaterThan {bound : Number} (h : bound.level < .ofRat x) : Admits x (.greaterThan bound)
  | atLeast {bound : Number} (h : bound.level ≤ .ofRat x) : Admits x (.atLeast bound)
  | lessThan {bound : Number} (h : .ofRat x < bound.level) : Admits x (.lessThan bound)
  | atMost {bound : Number} (h : .ofRat x ≤ bound.level) : Admits x (.atMost bound)

section Levels

variable {x : ℚ} {bound : Number}

@[simp] theorem Level.ofRat_le_ofRat_iff {x y : ℚ} : Level.ofRat x ≤ .ofRat y ↔ x ≤ y := by
  rw [ofRat, ofRat, WithBot.coe_le_coe, WithTop.coe_le_coe]

@[simp] theorem Level.ofRat_ne_top (x : ℚ) : Level.ofRat x ≠ ⊤ :=
  fun h => WithTop.coe_ne_top (WithBot.coe_inj.mp h)

@[simp] theorem Level.ofRat_ne_bot (x : ℚ) : Level.ofRat x ≠ ⊥ :=
  WithBot.coe_ne_bot

@[simp] theorem Constraint.admits_greaterThan_iff :
    (Constraint.greaterThan bound).Admits x ↔ bound.level < .ofRat x :=
  ⟨fun | .greaterThan h => h, .greaterThan⟩

@[simp] theorem Constraint.admits_atLeast_iff :
    (Constraint.atLeast bound).Admits x ↔ bound.level ≤ .ofRat x :=
  ⟨fun | .atLeast h => h, .atLeast⟩

@[simp] theorem Constraint.admits_lessThan_iff :
    (Constraint.lessThan bound).Admits x ↔ .ofRat x < bound.level :=
  ⟨fun | .lessThan h => h, .lessThan⟩

@[simp] theorem Constraint.admits_atMost_iff :
    (Constraint.atMost bound).Admits x ↔ .ofRat x ≤ bound.level :=
  ⟨fun | .atMost h => h, .atMost⟩

namespace Number

variable {a b : Number} {value : Dyadic}

theorem level_of_value? (h : a.value? = some value) : a.level = .ofRat value.toRat := by
  cases a with
  | integer n =>
      obtain rfl := Option.some.inj h
      exact congrArg Level.ofRat (Dyadic.toRat_intCast n).symm
  | float number =>
      cases number with
      | finite exact =>
          obtain rfl := Option.some.inj h
          rfl
      | negativeZero =>
          obtain rfl := Option.some.inj h
          exact congrArg Level.ofRat Dyadic.toRat_zero.symm
      | infinite negative => exact absurd h nofun

/-- A number without a value lies at an end. -/
theorem level_of_no_value (h : a.value? = none) : a.level = if a.isNegative then ⊥ else ⊤ := by
  cases a with
  | integer n => exact absurd h nofun
  | float number =>
      cases number with
      | finite exact | negativeZero => exact absurd h nofun
      | infinite negative => cases negative <;> rfl

/-- Numbers are compared by where they lie. -/
theorem atMost_iff : a.atMost b = true ↔ a.level ≤ b.level := by
  unfold atMost
  cases ha : a.value? with
  | some value =>
      cases hb : b.value? with
      | some other =>
          rw [level_of_value? ha, level_of_value? hb, Level.ofRat_le_ofRat_iff,
            Dyadic.toRat_le_toRat_iff, decide_eq_true_eq]
      | none =>
          rw [level_of_value? ha, level_of_no_value hb]
          cases b.isNegative <;> simp
  | none =>
      cases hb : b.value? with
      | some other =>
          rw [level_of_no_value ha, level_of_value? hb]
          cases a.isNegative <;> simp
      | none =>
          rw [level_of_no_value ha, level_of_no_value hb]
          cases a.isNegative <;> cases b.isNegative <;> simp

theorem lt_of_not_atMost (h : a.atMost b = false) : b.level < a.level := by
  rw [← not_le, ← atMost_iff, h]
  exact Bool.false_ne_true

end Number

end Levels

namespace Schema

open Json

/-- What two keywords demand of a number together: a number under the first is a lax bound,
or a strict one if there is `true` under the second, and a number under the second is a strict
bound of its own. Anything else under them demands nothing. -/
structure Within (view : View) (key exclusiveKey : Str) (strict lax : Number → Prop) :
    Prop where
  bound : ∀ number, view.scalarUnder? key = some (.number number) →
    if view.scalarUnder? exclusiveKey = some (.bool true) then strict number else lax number
  exclusive : ∀ number, view.scalarUnder? exclusiveKey = some (.number number) → strict number

/-- A number is within the lower bounds that a schema sets. -/
def WithinLower (view : View) (x : ℚ) : Prop :=
  Within view "minimum" "exclusiveMinimum" (fun bound => bound.level < .ofRat x)
    fun bound => bound.level ≤ .ofRat x

/-- A number is within the upper bounds that a schema sets. -/
def WithinUpper (view : View) (x : ℚ) : Prop :=
  Within view "maximum" "exclusiveMaximum" (fun bound => .ofRat x < bound.level)
    fun bound => .ofRat x ≤ bound.level

variable {view : View} {x : ℚ}

namespace View

theorem numberUnder?_eq_some_iff {key : Str} {number : Number} :
    view.numberUnder? key = some number ↔ view.scalarUnder? key = some (.number number) := by
  rw [numberUnder?, Option.bind_eq_some_iff]
  constructor
  · rintro ⟨value, hvalue, hnumber⟩
    cases value with
    | number found => rw [hvalue, Option.some.inj hnumber]
    | null | bool | string => simp [Scalar.number?] at hnumber
  · exact fun h => ⟨_, h, rfl⟩

section Bound

variable {key exclusiveKey : Str} {tighter : Number → Number → Bool}
  {strict lax : Number → Constraint} {bound exclusive : Number}

/-- A bound of its own under the exclusive keyword counts if it is the tighter one. -/
theorem boundRule?_of_tighter (hexclusive : view.numberUnder? exclusiveKey = some exclusive)
    (htighter : ∀ bound, view.numberUnder? key = some bound → tighter exclusive bound = true) :
    view.boundRule? key exclusiveKey tighter strict lax =
      some (view.ruleUnder exclusiveKey (strict exclusive)) := by
  have hnumber : (view.scalarUnder? exclusiveKey).bind Scalar.number? = some exclusive := hexclusive
  have hkept : (some exclusive).filter
      (fun number => (view.numberUnder? key).all (tighter number)) = some exclusive := by
    refine Option.filter_eq_some_iff.mpr ⟨rfl, ?_⟩
    cases hbound : view.numberUnder? key with
    | none => rfl
    | some bound => exact htighter bound hbound
  simp [boundRule?, hnumber, hkept]

/-- Otherwise the bound under the other keyword counts. -/
theorem boundRule?_of_looser (hbound : view.numberUnder? key = some bound)
    (hlooser : ∀ exclusive, view.numberUnder? exclusiveKey = some exclusive →
      tighter exclusive bound = false) :
    view.boundRule? key exclusiveKey tighter strict lax =
      some (view.ruleUnder key
        (if view.scalarUnder? exclusiveKey = some (.bool true) then strict bound
        else lax bound)) := by
  have hnone : ((view.scalarUnder? exclusiveKey).bind Scalar.number?).filter
      (tighter · bound) = none := by
    refine Option.filter_eq_none_iff.mpr fun exclusive hexclusive => ?_
    rw [hlooser exclusive hexclusive]
    exact Bool.false_ne_true
  simp [boundRule?, hbound, hnone]

theorem boundRule?_eq_none (hbound : view.numberUnder? key = none)
    (hexclusive : view.numberUnder? exclusiveKey = none) :
    view.boundRule? key exclusiveKey tighter strict lax = none := by
  have hnumber : (view.scalarUnder? exclusiveKey).bind Scalar.number? = none := hexclusive
  simp [boundRule?, hbound, hnumber]

/-- The tighter of two bounds is all that the keywords demand, if it is the exclusive one. -/
theorem within_iff_of_tighter (hexclusive : view.numberUnder? exclusiveKey = some exclusive)
    (himplied : ∀ bound, view.numberUnder? key = some bound →
      (strict exclusive).Admits x → (lax bound).Admits x) :
    Within view key exclusiveKey (fun bound => (strict bound).Admits x)
        (fun bound => (lax bound).Admits x) ↔ (strict exclusive).Admits x := by
  have hscalar := numberUnder?_eq_some_iff.mp hexclusive
  refine ⟨fun hwithin => hwithin.exclusive exclusive hscalar, fun hstrict => ⟨?_, ?_⟩⟩
  · intro bound hbound
    have hlax : view.scalarUnder? exclusiveKey ≠ some (.bool true) := by simp [hscalar]
    rw [if_neg hlax]
    exact himplied bound (numberUnder?_eq_some_iff.mpr hbound) hstrict
  · intro other hother
    obtain rfl : exclusive = other := by simpa [hscalar] using hother
    exact hstrict

/-- It is all that they demand, too, if it is the other one. -/
theorem within_iff_of_looser (hbound : view.numberUnder? key = some bound)
    (himplied : ∀ exclusive, view.numberUnder? exclusiveKey = some exclusive →
      (lax bound).Admits x → (strict exclusive).Admits x) :
    Within view key exclusiveKey (fun bound => (strict bound).Admits x)
        (fun bound => (lax bound).Admits x) ↔
      if view.scalarUnder? exclusiveKey = some (.bool true) then (strict bound).Admits x
      else (lax bound).Admits x := by
  have hscalar := numberUnder?_eq_some_iff.mp hbound
  refine ⟨fun hwithin => hwithin.bound bound hscalar, fun hadmits => ⟨?_, ?_⟩⟩
  · intro other hother
    obtain rfl : bound = other := by simpa [hscalar] using hother
    exact hadmits
  · intro exclusive hexclusive
    have hlax : view.scalarUnder? exclusiveKey ≠ some (.bool true) := by simp [hexclusive]
    rw [if_neg hlax] at hadmits
    exact himplied exclusive (numberUnder?_eq_some_iff.mpr hexclusive) hadmits

/-- Without numbers under them the keywords demand nothing. -/
theorem within_of_none {strict lax : Number → Prop} (hbound : view.numberUnder? key = none)
    (hexclusive : view.numberUnder? exclusiveKey = none) :
    Within view key exclusiveKey strict lax where
  bound number hnumber := by simp [numberUnder?_eq_some_iff.mpr hnumber] at hbound
  exclusive number hnumber := by simp [numberUnder?_eq_some_iff.mpr hnumber] at hexclusive

/-- A rule for a bound demands what the two keywords demand together, if the tighter of two
bounds implies the other one. -/
theorem admits_boundRule?_iff
    (htighter : ∀ a b, tighter a b = true → (strict a).Admits x → (lax b).Admits x)
    (hlooser : ∀ a b, tighter a b = false → (lax b).Admits x → (strict a).Admits x) :
    (∀ rule ∈ view.boundRule? key exclusiveKey tighter strict lax, rule.constraint.Admits x) ↔
      Within view key exclusiveKey (fun bound => (strict bound).Admits x)
        fun bound => (lax bound).Admits x := by
  -- The exclusive bound counts unless the other one is there and it is not the tighter one.
  by_cases hown : ∃ exclusive, view.numberUnder? exclusiveKey = some exclusive ∧
      ∀ bound, view.numberUnder? key = some bound → tighter exclusive bound = true
  · obtain ⟨exclusive, hexclusive, htight⟩ := hown
    rw [boundRule?_of_tighter hexclusive htight, within_iff_of_tighter hexclusive
      fun bound hbound => htighter exclusive bound (htight bound hbound)]
    simp [ruleUnder]
  · cases hbound : view.numberUnder? key with
    | none =>
        have hexclusive : view.numberUnder? exclusiveKey = none := by
          refine Option.eq_none_iff_forall_ne_some.mpr fun exclusive hexclusive => hown ?_
          exact ⟨exclusive, hexclusive, by simp [hbound]⟩
        rw [boundRule?_eq_none hbound hexclusive]
        exact iff_of_true (by simp) (within_of_none hbound hexclusive)
    | some bound =>
        have hloose : ∀ exclusive, view.numberUnder? exclusiveKey = some exclusive →
            tighter exclusive bound = false := by
          intro exclusive hexclusive
          refine Bool.eq_false_iff.mpr fun htight => hown ⟨exclusive, hexclusive, ?_⟩
          intro other hother
          rwa [← Option.some.inj (hbound.symm.trans hother)]
        rw [boundRule?_of_looser hbound hloose, within_iff_of_looser hbound
          fun exclusive hexclusive => hlooser exclusive bound (hloose exclusive hexclusive)]
        simp only [Option.mem_def, Option.some.injEq, forall_eq', ruleUnder]
        split <;> rfl

end Bound

/-- A scalar under the keyword for types is a single type. -/
theorem type?_of_scalarUnder? {value : Scalar} (h : view.scalarUnder? "type" = some value) :
    ∃ type, view.type? = some (.one type) ∧ type.scalar? = some value := by
  obtain ⟨type, htype, hvalue⟩ := Option.bind_eq_some_iff.mp h
  have hchildren : view.children? "type" = none := by
    obtain ⟨found, hfound, rfl⟩ := Option.map_eq_some_iff.mp htype
    have harray : found.value.array? = none := by
      cases hnode : found.value with
      | scalar => rfl
      | object | array => simp [scalar?, hnode, Node.scalar?] at hvalue
    simp [children?, hfound, harray]
  refine ⟨type, ?_, hvalue⟩
  rw [type?, oneOrMany?, hchildren, htype]
  rfl

theorem hasType_of_scalarUnder? {value : Scalar} (h : view.scalarUnder? "type" = some value)
    (name : Str) : view.hasType name = .ok (decide (value = .string name)) := by
  obtain ⟨type, htype, hvalue⟩ := type?_of_scalarUnder? h
  rw [hasType, htype]
  simp [scalar, hvalue, Except.map]

theorem hasNumericType_of_scalarUnder? {name : String} (hname : name ∈ ["number", "integer"])
    (htype : view.scalarUnder? "type" = some (.string name)) : view.hasNumericType = .ok true := by
  rw [hasNumericType, hasType_of_scalarUnder? htype, hasType_of_scalarUnder? htype]
  simp only [List.mem_cons, List.not_mem_nil, or_false] at hname
  rcases hname with rfl | rfl
  all_goals rfl

end View

/-- A schema of numbers is given whatever its facets of numbers read. -/
theorem Facet.rule?_of_numbers {facet : Facet} (hfacet : facet.family = .numbers)
    (hnumbers : view.hasNumericType = .ok true) : facet.rule? view = .ok (facet.read? view) := by
  have hother : facet ≠ .additionalProperties := by
    rintro rfl
    exact absurd hfacet nofun
  rw [rule?, if_neg hother, hfacet, View.hasFamily, hnumbers]
  rfl

theorem admits_lowerBound_iff :
    (∀ rule ∈ Facet.lowerBound.read? view, rule.constraint.Admits x) ↔ WithinLower view x := by
  have hwithin : WithinLower view x ↔ Within view "minimum" "exclusiveMinimum"
      (fun bound => (Constraint.greaterThan bound).Admits x)
      fun bound => (Constraint.atLeast bound).Admits x := by
    simp only [WithinLower, Constraint.admits_greaterThan_iff, Constraint.admits_atLeast_iff]
  rw [hwithin]
  apply View.admits_boundRule?_iff
  · intro a b htight hstrict
    rw [Constraint.admits_greaterThan_iff] at hstrict
    exact .atLeast ((Number.atMost_iff.mp htight).trans hstrict.le)
  · intro a b hloose hlax
    rw [Constraint.admits_atLeast_iff] at hlax
    exact .greaterThan ((Number.lt_of_not_atMost hloose).trans_le hlax)

theorem admits_upperBound_iff :
    (∀ rule ∈ Facet.upperBound.read? view, rule.constraint.Admits x) ↔ WithinUpper view x := by
  have hwithin : WithinUpper view x ↔ Within view "maximum" "exclusiveMaximum"
      (fun bound => (Constraint.lessThan bound).Admits x)
      fun bound => (Constraint.atMost bound).Admits x := by
    simp only [WithinUpper, Constraint.admits_lessThan_iff, Constraint.admits_atMost_iff]
  rw [hwithin]
  apply View.admits_boundRule?_iff
  · intro a b htight hstrict
    rw [Constraint.admits_lessThan_iff] at hstrict
    exact .atMost (hstrict.le.trans (Number.atMost_iff.mp htight))
  · intro a b hloose hlax
    rw [Constraint.admits_atMost_iff] at hlax
    exact .lessThan (hlax.trans_lt (Number.lt_of_not_atMost hloose))

/-- The rules for the bounds of a number demand exactly that it is within the bounds that its
schema sets, where an infinite bound lies beyond all numbers. -/
theorem admits_bounds_iff {name : String} (hname : name ∈ ["number", "integer"])
    (htype : view.scalarUnder? "type" = some (.string name)) (x : ℚ) :
    (∃ rule, Facet.lowerBound.rule? view = .ok rule ∧
      ((∀ found ∈ rule, found.constraint.Admits x) ↔ WithinLower view x)) ∧
    ∃ rule, Facet.upperBound.rule? view = .ok rule ∧
      ((∀ found ∈ rule, found.constraint.Admits x) ↔ WithinUpper view x) := by
  have hnumbers := View.hasNumericType_of_scalarUnder? hname htype
  constructor
  · exact ⟨_, Facet.rule?_of_numbers rfl hnumbers, admits_lowerBound_iff⟩
  · exact ⟨_, Facet.rule?_of_numbers rfl hnumbers, admits_upperBound_iff⟩

namespace NeighbouringBounds

open Analysis (bareObject bareString)

/-- A schema with a lower bound that floating-point numbers skip, and a strict one just below. -/
def schema : View :=
  View.root (bareObject [("type", bareString "number"),
    ("minimum", .scalar .start (.number (.integer 9007199254740993)) "9007199254740993"),
    ("exclusiveMinimum", .scalar .start (.number (.float (.finite (.ofInt 9007199254740992))))
      "9007199254740992.0")])

/-- The lax bound is the tighter one, by one. -/
theorem admits_lax_bound :
    "number" ∈ ["number", "integer"] ∧ schema.scalarUnder? "type" = some (.string "number") ∧
      (∃ rule, Facet.lowerBound.rule? schema = .ok (some rule) ∧
        rule.constraint = .atLeast (.integer 9007199254740993)) ∧
      WithinLower schema 9007199254740993 ∧ ¬ WithinLower schema 9007199254740992 := by
  have hname : "number" ∈ ["number", "integer"] := List.mem_cons_self
  have hrule : Facet.lowerBound.rule? schema = .ok (some (schema.ruleUnder "minimum"
      (.atLeast (.integer 9007199254740993)))) := rfl
  have hwithin (x : ℚ) : WithinLower schema x ↔ 9007199254740993 ≤ x := by
    obtain ⟨⟨rule, hother, hadmits⟩, -⟩ := @admits_bounds_iff schema _ hname rfl x
    obtain rfl := Except.ok.inj (hrule.symm.trans hother)
    have hbound : (∀ found ∈ some (schema.ruleUnder "minimum"
        (.atLeast (.integer 9007199254740993))), found.constraint.Admits x) ↔
          9007199254740993 ≤ x := by
      simp [View.ruleUnder, Number.level]
    exact hadmits.symm.trans hbound
  refine ⟨hname, rfl, ⟨_, hrule, rfl⟩, ?_, ?_⟩
  · rw [hwithin]
  · rw [hwithin]
    norm_num

end NeighbouringBounds

namespace BeyondRange

/-- A schema whose lower bound is a literal beyond the range of floating-point numbers. -/
def text : String :=
  "\x7b\"type\":\"number\",\"minimum\":1e400\x7d"

theorem exists_document : ∃ document,
    Json.read text = .ok document ∧
      (View.root document).scalarUnder? "type" = some (.string "number") ∧
      (View.root document).scalarUnder? "minimum" = some (.number (.float (.infinite false))) ∧
      (View.root document).scalarUnder? "exclusiveMinimum" = none ∧
      Facet.lowerBound.rule? (View.root document) = .ok (some ((View.root document).ruleUnder
        "minimum" (.atLeast (.float (.infinite false))))) := by
  have hfound : (Json.read text).map (fun document => decide
      ((View.root document).scalarUnder? "type" = some (.string "number") ∧
        (View.root document).scalarUnder? "minimum" = some (.number (.float (.infinite false))) ∧
        (View.root document).scalarUnder? "exclusiveMinimum" = none ∧
        Facet.lowerBound.rule? (View.root document) = .ok (some ((View.root document).ruleUnder
          "minimum" (.atLeast (.float (.infinite false))))))) = .ok true := by
    decide +kernel
  obtain ⟨document, hread, hdocument⟩ := map_eq_ok.mp hfound
  exact ⟨document, hread, of_decide_eq_true hdocument⟩

/-- It is not only finite bounds that count: an infinite one, as a text may set it, keeps all
numbers out. -/
theorem not_admits_finite : ¬ ∀ (text : String) (document : Node) (name : String),
    Json.read text = .ok document → name ∈ ["number", "integer"] →
    (View.root document).scalarUnder? "type" = some (.string name) →
    ∀ (x : ℚ) (rule : Option Rule), Facet.lowerBound.rule? (View.root document) = .ok rule →
      ((∀ found ∈ rule, found.constraint.Admits x) ↔
        Within (View.root document) "minimum" "exclusiveMinimum"
          (fun bound => bound.value? ≠ none → bound.level < .ofRat x)
          fun bound => bound.value? ≠ none → bound.level ≤ .ofRat x) := by
  intro hall
  obtain ⟨document, hread, htype, hminimum, hexclusive, hrule⟩ := exists_document
  have hwithin := (hall text document "number" hread List.mem_cons_self htype 0 _ hrule).mpr
    ⟨fun number hnumber => ?_, fun number hnumber => ?_⟩
  · have hadmits := Constraint.admits_atLeast_iff.mp (hwithin _ rfl)
    exact Level.ofRat_ne_top 0 (top_le_iff.mp hadmits)
  · obtain rfl : .float (.infinite false) = number :=
      Scalar.number.inj (Option.some.inj (hminimum.symm.trans hnumber))
    rw [hexclusive, if_neg nofun]
    exact fun hvalue => absurd rfl hvalue
  · exact absurd (hexclusive.symm.trans hnumber) nofun

end BeyondRange

end Schema

end Schemata
