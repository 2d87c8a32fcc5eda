import Mathlib.Data.Finset.Card
import Mathlib.Tactic.Ring
import Schemata.Proofs.Growth
import Schemata.Proofs.Places

/-!
# The depth of a descent

A descent ends because every call uses something up, of which the document holds only
so much: a visit to a definition, a new name, a target that is not on the chain yet, or
else the size of a schema. No guard bounds the descent alone.
-/

namespace Schemata.Analysis

open Schema

variable (setting : Setting)

/-- The name of a schema, if it has one. -/
def inferredName? (view : View) : Option Str :=
  (setting.naming.infer view).toOption.join.map Label.value

/-- Whether a schema is converted to a named type. -/
def isNamedSchema (view : View) : Bool :=
  view.conversionShape.toOption.any Shape.isNamed

/-- The schemas of a document that may still be visited as definitions. -/
def unvisited (context : Context) : Finset Pointer :=
  ((reachableViews setting.document).map View.pointer).toFinset \ context.visited.toFinset

/-- The names of schemas that no entry has. -/
def unclaimed (context : Context) : Finset Str :=
  ((reachableViews setting.document).filterMap (inferredName? setting)).toFinset.filter
    fun name => (context.lookup name).isNone

/-- The strings of a document that are no pointers on the chain. -/
def unchained (context : Context) : Finset Pointer :=
  (strings setting.document).toFinset \ context.chain.toFinset

/-- What is left to be used up by visits, names and targets. A visit or a new name
outweighs the pointers that come onto the chain with it. -/
def resources (context : Context) : Nat :=
  3 * ((unvisited setting context).card + (unclaimed setting context).card) +
    (unchained setting context).card

/-- The resources in a state, each of which outweighs the size of any schema. -/
def potential (context : Context) : Nat :=
  (setting.document.size + 1) * resources setting context

/-- The depth below which the calls for a schema stay, from a state in which its pointer
is on the chain. A named schema uses up a name before it calls for its parts, so its
size does not count. -/
def allowance (view : View) (opened : Option Label) (context : Context) : Nat :=
  potential setting context +
    match opened with
    | some _ => 2 * setting.document.size + 2
    | none => if isNamedSchema view then 1 else setting.document.size + 1 + view.node.size

/-- A depth at which the conversion of a schema is not too deep. -/
def needed (view : View) (context : Context) : Nat :=
  allowance setting view none (context.enter view.pointer)

variable {setting}

section Potential

variable {before after context : Context} {pointer : Pointer}

theorem Context.Extends.lookup_eq_none {name : Str} (h : before.Extends after)
    (hnone : after.lookup name = none) : before.lookup name = none := by
  rw [Context.lookup_eq_none_iff] at hnone ⊢
  obtain ⟨htypes, henums, hunions⟩ := hnone
  exact ⟨fun hmem => htypes ((h.types.map Prod.fst).subset hmem),
    fun hmem => henums ((h.enums.map Prod.fst).subset hmem),
    fun hmem => hunions ((h.unions.map Prod.fst).subset hmem)⟩

theorem unvisited_subset (setting : Setting) (h : before.Extends after) :
    unvisited setting after ⊆ unvisited setting before :=
  Finset.sdiff_subset_sdiff (Finset.Subset.refl _) fun _ hpointer =>
    List.mem_toFinset.mpr (h.visited.subset (List.mem_toFinset.mp hpointer))

theorem unclaimed_subset (setting : Setting) (h : before.Extends after) :
    unclaimed setting after ⊆ unclaimed setting before := by
  intro name hname
  obtain ⟨hmem, hnone⟩ := Finset.mem_filter.mp hname
  refine Finset.mem_filter.mpr ⟨hmem, ?_⟩
  simpa using h.lookup_eq_none (by simpa using hnone)

theorem resources_le (h : before.Extends after) :
    resources setting after ≤ resources setting before := by
  have hvisited := Finset.card_le_card (unvisited_subset setting h)
  have hclaimed := Finset.card_le_card (unclaimed_subset setting h)
  have hchain : unchained setting after = unchained setting before := by
    rw [unchained, unchained, h.chain]
  rw [resources, resources, hchain]
  omega

theorem resources_enter (context : Context) (pointer : Pointer) :
    resources setting (context.enter pointer) =
      3 * ((unvisited setting context).card + (unclaimed setting context).card) +
        ((unchained setting context).erase pointer).card := by
  have hchain : unchained setting (context.enter pointer) =
      (unchained setting context).erase pointer := by
    rw [unchained, Context.enter, List.toFinset_cons, Finset.sdiff_insert, unchained]
  rw [resources, hchain]
  rfl

theorem resources_enter_le (setting : Setting) (context : Context) (pointer : Pointer) :
    resources setting (context.enter pointer) ≤ resources setting context := by
  have hchain := Finset.card_erase_le (s := unchained setting context) (a := pointer)
  rw [resources_enter, resources]
  omega

/-- At most one of the strings of a document comes onto the chain with a pointer. -/
theorem resources_le_enter (setting : Setting) (context : Context) (pointer : Pointer) :
    resources setting context ≤ resources setting (context.enter pointer) + 1 := by
  have hchain := Finset.pred_card_le_card_erase (s := unchained setting context) (a := pointer)
  rw [resources_enter, resources]
  omega

theorem resources_enter_target (hpointer : pointer ∈ strings setting.document)
    (hchain : pointer ∉ context.chain) :
    resources setting (context.enter pointer) + 1 ≤ resources setting context := by
  have hmem : pointer ∈ unchained setting context := by
    simpa [unchained] using ⟨hpointer, hchain⟩
  have hcard := Finset.card_erase_add_one hmem
  rw [resources_enter, resources]
  omega

theorem resources_visit {view : View} (hview : Reachable setting.document view)
    (hvisited : view.pointer ∉ context.visited) :
    resources setting (context.visit view.pointer) + 3 ≤ resources setting context := by
  have hmem : view.pointer ∈ unvisited setting context := by
    refine Finset.mem_sdiff.mpr ⟨List.mem_toFinset.mpr ?_, by simpa using hvisited⟩
    exact List.mem_map_of_mem hview.mem_reachableViews
  have hvisit : unvisited setting (context.visit view.pointer) =
      (unvisited setting context).erase view.pointer := by
    rw [unvisited, Context.visit, List.toFinset_cons, Finset.sdiff_insert, unvisited]
  have hother : unclaimed setting (context.visit view.pointer) = unclaimed setting context ∧
      unchained setting (context.visit view.pointer) = unchained setting context := ⟨rfl, rfl⟩
  have hcard := Finset.card_erase_add_one hmem
  rw [resources, resources, hvisit, hother.1, hother.2]
  omega

theorem resources_claim {view : View} {name : Label} (hview : Reachable setting.document view)
    (hname : Declares setting view before name) (h : before.Extends after)
    (htaken : after.lookup name.value ≠ none) :
    resources setting after + 3 ≤ resources setting before := by
  have hinferred : inferredName? setting view = some name.value := by
    rw [inferredName?, hname.1]
    rfl
  have hmem : name.value ∈ unclaimed setting before := by
    refine Finset.mem_filter.mpr ⟨List.mem_toFinset.mpr ?_, by simp [hname.2]⟩
    exact List.mem_filterMap.mpr ⟨view, hview.mem_reachableViews, hinferred⟩
  have hnot : name.value ∉ unclaimed setting after := by
    intro hafter
    exact htaken (by simpa using (Finset.mem_filter.mp hafter).2)
  have hclaimed : (unclaimed setting after).card < (unclaimed setting before).card := by
    refine Finset.card_lt_card (Finset.ssubset_iff_subset_ne.mpr ⟨unclaimed_subset setting h, ?_⟩)
    exact fun heq => hnot (heq ▸ hmem)
  have hvisited := Finset.card_le_card (unvisited_subset setting h)
  have hchain : unchained setting after = unchained setting before := by
    rw [unchained, unchained, h.chain]
  rw [resources, resources, hchain]
  omega

theorem potential_add_le (count : Nat)
    (h : resources setting after + count ≤ resources setting before) :
    potential setting after + (setting.document.size + 1) * count ≤
      potential setting before := by
  rw [potential, potential, ← Nat.mul_add]
  exact Nat.mul_le_mul_left _ h

theorem potential_enter_le (setting : Setting) (context : Context) (pointer : Pointer) :
    potential setting (context.enter pointer) ≤ potential setting context :=
  potential_add_le 0 (resources_enter_le setting context pointer)

theorem potential_le_enter (setting : Setting) (context : Context) (pointer : Pointer) :
    potential setting context ≤
      potential setting (context.enter pointer) + (setting.document.size + 1) := by
  have henter := Nat.mul_le_mul_left (setting.document.size + 1)
    (resources_le_enter setting context pointer)
  rwa [Nat.mul_succ] at henter

end Potential

section Descent

variable {convert : Converter} {view : View} {loc : Option Source.LocationCode}
  {before after context : Context}

theorem needed_le (hview : Reachable setting.document view) (context : Context) :
    needed setting view context ≤ potential setting context + (2 * setting.document.size + 1) := by
  have hsize := hview.occurs.size_le
  have henter := potential_enter_le setting context view.pointer
  simp only [needed, allowance]
  split <;> omega

/-- A call that is too deep, although it needs less than the given depth. -/
def FallsShort (setting : Setting) (convert : Converter) (depth : Nat) : Prop :=
  ∃ called loc context, Reachable setting.document called ∧
    needed setting called context < depth ∧
    ((convert called loc).run.run context).1 = .error .tooDeep

theorem isNamedSchema_of_shape {shape : Shape} (h : view.conversionShape = .ok shape) :
    isNamedSchema view = shape.isNamed := by
  rw [isNamedSchema, h]
  rfl

theorem Calls.needed_lt {opened : Option Label} {called : View}
    {calledLoc : Option Source.LocationCode} (hview : Reachable setting.document view)
    (h : Calls setting view loc opened context called calledLoc) :
    Reachable setting.document called ∧
      needed setting called context < allowance setting view opened context := by
  have hpos := size_pos view.node
  cases h with
  | target htarget hfree =>
      obtain ⟨hcalled, hstring⟩ := hview.refersTo htarget
      refine ⟨hcalled, ?_⟩
      obtain ⟨reference, _, hreference, -⟩ := htarget
      have hunnamed := isNamedSchema_of_shape (conversionShape_of_reference hreference)
      have hsize := hcalled.occurs.size_le
      have henter := potential_enter_le setting context called.pointer
      simp only [needed, allowance, hunnamed, Shape.isNamed, Bool.false_eq_true, if_false]
      -- A target on the chain is named and costs its name. Any other one uses up a string.
      by_cases hchain : called.pointer ∈ context.chain
      · obtain ⟨shape, hshape, hnamed⟩ := hfree hchain
        rw [isNamedSchema_of_shape hshape, hnamed, if_pos rfl]
        omega
      · have htarget := potential_add_le 1 (resources_enter_target hstring hchain)
        split <;> omega
  | item hitem =>
      refine ⟨hview.below (.single hitem.holds), ?_⟩
      have hsize := hitem.holds.size_lt
      have hunnamed := isNamedSchema_of_shape hitem.1
      have henter := potential_enter_le setting context called.pointer
      simp only [needed, allowance, hunnamed, Shape.isNamed, Bool.false_eq_true, if_false]
      split <;> omega
  | part hpart =>
      have hcalled := hview.hasPart hpart
      refine ⟨hcalled, ?_⟩
      -- The size of the part does not matter, as the name of the schema has paid for it.
      have hneeded := needed_le hcalled context
      simp only [allowance]
      omega

theorem allowance_le {opened : Option Label} (h : before.Extends after) :
    allowance setting view opened after ≤ allowance setting view opened before :=
  Nat.add_le_add_right (Nat.mul_le_mul_left _ (resources_le h)) _

theorem FallsShort.imp {depth more : Nat} (h : FallsShort setting convert depth)
    (hmore : depth ≤ more) : FallsShort setting convert more := by
  obtain ⟨called, loc, context, hcalled, hneeded, hdeep⟩ := h
  exact ⟨called, loc, context, hcalled, Nat.lt_of_lt_of_le hneeded hmore, hdeep⟩

/-- A new name pays for the parts of the schema that takes it. -/
theorem allowance_opened_le {name : Label} (hview : Reachable setting.document view)
    (hname : Declares setting view before name) (h : before.Extends after)
    (htaken : after.lookup name.value ≠ none) :
    allowance setting view (some name) after ≤ allowance setting view none before := by
  have hclaim := potential_add_le 3 (resources_claim hview hname h htaken)
  simp only [allowance]
  split <;> omega

theorem Exhausts.fallsShort {opened : Option Label} (hconvert : Continues convert)
    (hview : Reachable setting.document view)
    (h : Exhausts setting convert view loc opened context) :
    FallsShort setting convert (allowance setting view opened context) := by
  induction h with
  | call hcall hdeep =>
      obtain ⟨hcalled, hneeded⟩ := hcall.needed_lt hview
      exact ⟨_, _, _, hcalled, hneeded, hdeep⟩
  | later hcourse _ ih => exact ih.imp (allowance_le (hcourse.extends hconvert))
  | typePart hname _ ih =>
      refine ih.imp (allowance_opened_le hview hname (.addType hname.2) ?_)
      exact Context.lookup_addType _ (newType _ _ _)
  | unionPart hname _ ih =>
      refine ih.imp (allowance_opened_le hview hname (.addUnion hname.2) ?_)
      exact Context.lookup_addUnion _ (newUnion _ _ _)

theorem needed_mono (h : before.Extends after) :
    needed setting view after ≤ needed setting view before := by
  apply allowance_le
  exact { h with chain := congrArg (view.pointer :: ·) h.chain }

theorem Visitable.needed_lt {entry : Schema.Entry} (hview : Reachable setting.document view)
    (h : Visitable setting view context entry) : Reachable setting.document entry.view ∧
      needed setting entry.view (context.visit entry.view.pointer) <
        needed setting view context := by
  obtain ⟨hentry, -, hvisited⟩ := h
  have hcalled := hview.below (below_of_mem_definitionEntries hentry)
  refine ⟨hcalled, ?_⟩
  have hneeded := needed_le hcalled (context.visit entry.view.pointer)
  have hvisit := potential_add_le 3 (resources_visit hcalled hvisited)
  have henter := potential_le_enter setting context view.pointer
  -- The definition is visited before its owner is on the chain, but the need is stated there.
  have hbound : potential setting (context.enter view.pointer) + 1 ≤
      needed setting view context := by
    simp only [needed, allowance]
    split <;> omega
  omega

theorem ConversionExhausts.fallsShort (hconvert : Continues convert)
    (hview : Reachable setting.document view)
    (h : ConversionExhausts setting convert view loc context) :
    FallsShort setting convert (needed setting view context) := by
  induction h with
  | definition hentry hdeep =>
      obtain ⟨hcalled, hneeded⟩ := hentry.needed_lt hview
      exact ⟨_, _, _, hcalled, hneeded, hdeep⟩
  | within hshape hcourse =>
      exact (hcourse.fallsShort hconvert hview).imp (allowance_le (.note _ _))
  | later hfirst _ ih => exact ih.imp (needed_mono (hfirst.extends hconvert))

/-- No conversion is too deep within the depth that it needs. -/
theorem convertWithin_ne_tooDeep {depth : Nat} (loc : Option Source.LocationCode)
    (hview : Reachable setting.document view)
    (hdepth : needed setting view context ≤ depth) :
    ((convertWithin setting depth view loc).run.run context).1 ≠ .error .tooDeep := by
  induction depth generalizing view loc context with
  | zero =>
      simp only [needed, allowance] at hdepth
      split at hdepth <;> omega
  | succ depth ih =>
      intro hdeep
      -- The blame goes to a call that needs less, down to one that needs nothing.
      obtain ⟨called, calledLoc, start, hcalled, hneeded, hagain⟩ :=
        (conversionExhausts_step hdeep).fallsShort (convertWithin_continues setting depth) hview
      exact ih _ hcalled (by omega) hagain

theorem resources_le_size (setting : Setting) (context : Context) :
    resources setting context ≤
      6 * ((setting.document.size + 1) * setting.document.size) + setting.document.size := by
  have hlength := length_reachableViews_le setting.document
  have hvisited : (unvisited setting context).card ≤ (reachableViews setting.document).length :=
    calc (unvisited setting context).card
        ≤ ((reachableViews setting.document).map View.pointer).toFinset.card :=
          Finset.card_le_card Finset.sdiff_subset
      _ ≤ ((reachableViews setting.document).map View.pointer).length :=
          List.toFinset_card_le _
      _ = (reachableViews setting.document).length := List.length_map _
  have hclaimed : (unclaimed setting context).card ≤ (reachableViews setting.document).length :=
    calc (unclaimed setting context).card
        ≤ ((reachableViews setting.document).filterMap (inferredName? setting)).toFinset.card :=
          Finset.card_filter_le _ _
      _ ≤ ((reachableViews setting.document).filterMap (inferredName? setting)).length :=
          List.toFinset_card_le _
      _ ≤ (reachableViews setting.document).length := List.length_filterMap_le _ _
  have hchain : (unchained setting context).card ≤ setting.document.size :=
    calc (unchained setting context).card
        ≤ (strings setting.document).toFinset.card := Finset.card_le_card Finset.sdiff_subset
      _ ≤ (strings setting.document).length := List.toFinset_card_le _
      _ ≤ setting.document.size := length_strings_le _
  rw [resources]
  omega

/-- The depth that the conversion of any schema needs is bounded by the size of the
document. -/
theorem needed_le_depth (hview : Reachable setting.document view) (context : Context) :
    needed setting view context ≤ setting.depth := by
  have hneeded := needed_le hview context
  have hpotential : potential setting context ≤ (setting.document.size + 1) *
      (6 * ((setting.document.size + 1) * setting.document.size) + setting.document.size) :=
    Nat.mul_le_mul_left _ (resources_le_size setting context)
  rw [Setting.depth, Nat.pow_eq]
  -- From here on it is arithmetic in the size.
  generalize setting.document.size = size at *
  calc needed setting view context
      ≤ (size + 1) * (6 * ((size + 1) * size) + size) + (2 * size + 1) := by omega
    _ ≤ 8 * (size + 2) ^ 3 := by ring_nf; omega

end Descent

end Schemata.Analysis
