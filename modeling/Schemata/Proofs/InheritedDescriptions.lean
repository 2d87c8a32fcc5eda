import Schemata.Proofs.ForcedPaths

/-!
# Descriptions along references

A reference takes over the description of what it refers to, after its own. Along a chain of
references that ends, the descriptions add up in the order of the chain, whatever the state is in
which the conversion starts, unless that is in the middle of the chain. A property shows what its
schema takes over if it has no description of its own and is of a primitive type.
-/

namespace Schemata.Schema

/-- The paragraphs of the description of a schema. -/
def View.described (view : View) : List Label :=
  view.paragraphs.getD []

/-- A description has paragraphs. -/
theorem View.paragraphs_eq (view : View) :
    view.paragraphs = if view.described = [] then none else some view.described := by
  unfold described
  cases h : view.paragraphs with
  | none => rfl
  | some paragraphs =>
      have hne : paragraphs ≠ [] := by
        obtain ⟨description, -, hparagraphs⟩ := Option.bind_eq_some_iff.mp h
        obtain ⟨text, -, hparagraphs⟩ := Option.bind_eq_some_iff.mp hparagraphs
        dsimp only at hparagraphs
        split at hparagraphs
        · cases hparagraphs
        next hsome =>
          obtain rfl := Option.some.inj hparagraphs
          simpa using hsome
      simp [hne]

end Schemata.Schema

namespace Schemata.Analysis

open Schema Source

variable {setting : Setting} {convert : Converter} {view next other target : View}
  {later : List View} {loc : Option LocationCode} {before after : Context}

/-! ### Chains of references -/

/-- The schemas that come after a schema along references, up to one that is no reference. -/
inductive ReferenceChain (setting : Setting) : View → List View → Prop
  | last {target : View} (hend : target.reference? = none) : ReferenceChain setting target []
  | next {view next : View} {later : List View} (hnext : RefersTo setting view next)
      (hrest : ReferenceChain setting next later) : ReferenceChain setting view (next :: later)

namespace ReferenceChain

theorem not_refersTo (hend : view.reference? = none) : ¬ RefersTo setting view target := by
  rintro ⟨reference, _, hreference, -⟩
  exact absurd (hend.symm.trans hreference) nofun

/-- There is one chain from a schema. -/
theorem unique {others : List View} (h : ReferenceChain setting view later)
    (hother : ReferenceChain setting view others) : later = others := by
  induction h generalizing others with
  | last hend =>
      cases hother with
      | last => rfl
      | next hnext => exact absurd hnext (not_refersTo hend)
  | next hnext _ ih =>
      cases hother with
      | last hend => exact absurd hnext (not_refersTo hend)
      | next hothers hrest =>
          obtain rfl := hnext.unique hothers
          rw [ih hrest]

/-- From every schema on a chain there is a shorter one. -/
theorem of_mem (h : ReferenceChain setting view later) (hother : other ∈ later) :
    ∃ rest, ReferenceChain setting other rest ∧ rest.length < later.length := by
  induction h with
  | last => exact absurd hother List.not_mem_nil
  | next _ hrest ih =>
      rcases List.mem_cons.mp hother with rfl | hmem
      · exact ⟨_, hrest, Nat.lt_succ_self _⟩
      · obtain ⟨rest, hchain, hlength⟩ := ih hmem
        exact ⟨rest, hchain, Nat.lt_succ_of_lt hlength⟩

/-- A chain that ends does not come back to where it began. -/
theorem not_mem (h : ReferenceChain setting view later) : view ∉ later := by
  intro hmem
  obtain ⟨rest, hrest, hlength⟩ := h.of_mem hmem
  rw [h.unique hrest] at hlength
  exact lt_irrefl _ hlength

theorem placed (h : ReferenceChain setting view later) (hother : other ∈ later) :
    Placed setting.document other := by
  induction h with
  | last => exact absurd hother List.not_mem_nil
  | next hnext _ ih =>
      rcases List.mem_cons.mp hother with rfl | hmem
      · exact hnext.placed
      · exact ih hmem

/-- The pointer of a schema is not that of another one on its chain. -/
theorem pointer_ne (h : ReferenceChain setting view later) (hview : Placed setting.document view)
    (hother : other ∈ later) : other.pointer ≠ view.pointer := by
  intro heq
  obtain rfl := (h.placed hother).eq_of_pointer hview heq
  exact h.not_mem hother

end ReferenceChain

/-! ### One step -/

section Steps

variable (hconvert : Continues convert)

include hconvert

/-- A reference puts its description before what its target takes over. -/
theorem inherits_follow {reference : View} (hreference : view.reference? = some reference)
    (htarget : RefersTo setting view target) (hfree : target.pointer ∉ before.chain) :
    Gives before (follow setting convert view reference loc) fun converted after =>
      ∃ found, Made convert before after target loc found ∧
        converted.inherited = view.described ++ found.inherited := by
  rw [follow_eq]
  refine .bind (gives_dereference hreference) fun found middle hmiddle hfound => ?_
  obtain rfl := (hfound.1 target).mpr htarget
  refine .bind .get ?_
  rintro _ _ _ ⟨rfl, rfl⟩
  rw [← hmiddle.chain] at hfree
  simp only [if_neg hfree]
  exact .bind (gives_call hconvert _ _) fun found after _ hmade =>
    .pure ⟨found, hmade.widen hmiddle (.refl after), rfl⟩

/-- What a conversion with the schema on the chain takes over: the description of the schema,
followed by what the target of a reference takes over. -/
theorem inherits_dispatch : Gives before (dispatch setting convert view loc) fun converted after =>
    (view.reference? = none → converted.inherited = view.described) ∧
      ∀ target, RefersTo setting view target → target.pointer ∉ before.chain →
        ∃ found, Made convert before after target loc found ∧
          converted.inherited = view.described ++ found.inherited := by
  refine .bind .lift ?_
  rintro shape begun _ ⟨hshape, rfl⟩
  refine .bind (.note _) ?_
  rintro _ start hstart rfl
  cases hreference : view.reference? with
  | none =>
      refine .bind (gives_byShape hconvert hshape hreference) fun _ _ _ _ => ?_
      refine .pure ⟨fun _ => rfl, ?_⟩
      exact fun target htarget => absurd htarget (ReferenceChain.not_refersTo hreference)
  | some reference =>
      by_cases hfree : ∃ target, RefersTo setting view target ∧ target.pointer ∉ begun.chain
      · obtain ⟨target, htarget, hfree⟩ := hfree
        rw [← hstart.chain] at hfree
        refine (inherits_follow hconvert hreference htarget hfree).imp ?_
        rintro converted after - ⟨found, hmade, hinherited⟩
        refine ⟨nofun, fun other hother _ => ?_⟩
        obtain rfl := hother.unique htarget
        exact ⟨found, hmade.widen hstart (.refl after), hinherited⟩
      · refine (gives_followed hconvert hreference).imp fun converted after _ _ => ?_
        exact ⟨nofun, fun other hother hnot => absurd ⟨other, hother, hnot⟩ hfree⟩

theorem inherits_step : Gives before (step setting convert view loc) fun converted _ =>
    (view.reference? = none → converted.inherited = view.described) ∧
      ∀ target, RefersTo setting view target → target.pointer ∉ view.pointer :: before.chain →
        ∃ found start stop, start.chain = view.pointer :: before.chain ∧
          (convert target loc).Returns start found stop ∧
          converted.inherited = view.described ++ found.inherited := by
  refine .bind (gives_visitDefinitions hconvert _) fun _ start hstart _ => ?_
  have hchain : (start.enter view.pointer).chain = view.pointer :: before.chain :=
    congrArg (view.pointer :: ·) hstart.chain
  refine .within ((inherits_dispatch hconvert).imp fun converted after _ hdispatch _ => ?_)
  refine ⟨hdispatch.1, fun target htarget hfree => ?_⟩
  rw [← hchain] at hfree
  obtain ⟨found, ⟨begun, stop, hbegun, hreturns, -⟩, hinherited⟩ := hdispatch.2 target htarget hfree
  exact ⟨found, begun, stop, hbegun.chain.trans hchain, hreturns, hinherited⟩

end Steps

/-! ### Whole chains -/

theorem convertWithin_inherited (hview : Placed setting.document view)
    (hchain : ReferenceChain setting view later)
    (hfree : ∀ passed ∈ later, passed.pointer ∉ before.chain) {depth : Nat}
    {converted : Converted}
    (hreturns : (convertWithin setting depth view loc).Returns before converted after) :
    converted.inherited = (view :: later).flatMap View.described := by
  induction hchain generalizing depth before converted after with
  | last hend =>
      cases depth with
      | zero => exact absurd hreturns nofun
      | succ depth =>
          have hstep := (inherits_step (convertWithin_continues setting depth)).of_returns hreturns
          rw [hstep.1 hend, List.flatMap_singleton]
  | @next view next later hnext hrest ih =>
      cases depth with
      | zero => exact absurd hreturns nofun
      | succ depth =>
          -- The pointers of the chain stay off the stack when the first one is put on it.
          have henter : ∀ passed ∈ next :: later,
              passed.pointer ∉ view.pointer :: before.chain := by
            intro passed hpassed hmem
            rcases List.mem_cons.mp hmem with heq | hbefore
            · exact (ReferenceChain.next hnext hrest).pointer_ne hview hpassed heq
            · exact hfree passed hpassed hbefore
          have hstep := (inherits_step (convertWithin_continues setting depth)).of_returns hreturns
          obtain ⟨found, start, stop, hstart, hfound, hinherited⟩ :=
            hstep.2 next hnext (henter next List.mem_cons_self)
          have hlater : ∀ passed ∈ later, passed.pointer ∉ start.chain := fun passed hpassed =>
            hstart ▸ henter passed (List.mem_cons_of_mem _ hpassed)
          rw [hinherited, ih hnext.placed hlater hfound]
          rfl

/-! ### Properties -/

theorem isPrimitive_withConstant (type : ValueType) (constant : Option Constant) :
    (type.withConstant constant).isPrimitive = type.isPrimitive := by
  obtain ⟨_, _, _, _ | _⟩ := type <;> rfl

section Properties

variable {entry : Schema.Entry} {property : Property}

/-- A property has the description of its own schema. If there is none and its type is primitive,
it has what its schema takes over. -/
theorem description_of_property
    (h : (Analysis.property setting convert entry).Returns before property after) :
    ∃ converted middle, (convert entry.view (some entry.code)).Returns before converted middle ∧
      property.description =
        if entry.view.described ≠ [] then some entry.view.described
        else if property.type.isPrimitive ∧ converted.inherited ≠ [] then some converted.inherited
        else none := by
  obtain ⟨converted, own, required, hconverted, -, -, rfl⟩ := (ensures_property entry).of_returns h
  refine ⟨converted, after, hconverted, ?_⟩
  -- The rules and the absence of a type do not make it primitive.
  have hprimitive : ∀ isOptional rules constant,
      ({ converted.type with isOptional, rules }.withConstant constant).isPrimitive =
        converted.type.isPrimitive := fun _ _ _ => isPrimitive_withConstant _ _
  rw [hprimitive, entry.view.paragraphs_eq]
  by_cases hown : entry.view.described = [] <;> simp [hown]

end Properties

/-- Along a chain of references that ends, the conversion takes over the descriptions of all its
schemas in order, whatever the state is in which it starts, if none of the later ones is being
converted there. A property whose schema is the first one has the description of that. If there is
none, it has those of the later ones if its type is primitive, and else no description. -/
theorem inherited_descriptions (hview : Placed setting.document view)
    (hchain : ReferenceChain setting view later)
    (hfree : ∀ passed ∈ later, passed.pointer ∉ before.chain) :
    (∀ loc converted after, (Analysis.convert setting view loc).Returns before converted after →
      converted.inherited = (view :: later).flatMap View.described) ∧
    ∀ entry property after, entry.view = view →
      (convertProperty setting entry).Returns before property after →
        property.description =
          if view.described ≠ [] then some view.described
          else if property.type.isPrimitive ∧ later.flatMap View.described ≠ [] then
            some (later.flatMap View.described)
          else none := by
  refine ⟨fun _ _ _ => convertWithin_inherited hview hchain hfree, ?_⟩
  rintro entry property after rfl hreturns
  obtain ⟨converted, middle, hconverted, hdescription⟩ := description_of_property hreturns
  rw [hdescription, convertWithin_inherited hview hchain hfree hconverted, List.flatMap_cons]
  by_cases hown : entry.view.described = []
  · simp only [hown, List.nil_append]
  · simp only [ne_eq, hown, not_false_eq_true, if_true]

namespace DescribedName

def text : View :=
  ⟨bareObject [("type", bareString "string"), ("description", bareString "A text.")],
    "#/definitions/Text"⟩

def label : View :=
  ⟨bareObject [("$ref", bareString "#/definitions/Text"), ("description", bareString " ")],
    "#/definitions/Label"⟩

def name : View :=
  ⟨bareObject [("$ref", bareString "#/definitions/Label"), ("description", bareString "A name.")],
    "#/definitions/Name"⟩

def entry : Schema.Entry :=
  ⟨⟨"name", "name", .start⟩,
    ⟨bareObject [("$ref", bareString "#/definitions/Name")], "#/properties/name"⟩⟩

/-- An object with a name, which is a label, which is a text. Labels are not described. -/
def sample : Setting :=
  ⟨bareObject [("type", bareString "object"),
    ("definitions", bareObject [("Name", name.node), ("Label", label.node), ("Text", text.node)]),
    ("properties", bareObject [("name", entry.view.node)])], "", {}⟩

theorem referenceChain_name : ReferenceChain sample entry.view [name, label, text] :=
  .next ⟨_, _, rfl, rfl, rfl⟩
    (.next ⟨_, _, rfl, rfl, rfl⟩ (.next ⟨_, _, rfl, rfl, rfl⟩ (.last rfl)))

/-- The object is being converted. -/
def begun : Context :=
  { chain := ["#"] }

/-- The property is described as a name and as a text. -/
theorem description_of_name :
    ∃ converted after property stop,
      (Analysis.convert sample entry.view none).Returns begun converted after ∧
        converted.inherited.map (·.value) = (["A name.", "A text."] : List Str) ∧
        (convertProperty sample entry).Returns begun property stop ∧
        property.description.map (List.map (·.value)) =
          some (["A name.", "A text."] : List Str) := by
  have hresolve : resolve sample.document entry.view.pointer = .ok (some entry.view) := rfl
  have hfree : ∀ passed ∈ [name, label, text], passed.pointer ∉ begun.chain := by decide
  obtain ⟨hinherits, hdescribes⟩ :=
    inherited_descriptions (.of_resolve hresolve) referenceChain_name hfree
  have hconverted :
      ((Analysis.convert sample entry.view none).run.run begun).1.toOption.isSome = true := by
    decide +kernel
  have hproperty : ((convertProperty sample entry).run.run begun).1.toOption.map
      (·.type.isPrimitive) = some true := by
    decide +kernel
  have hown : entry.view.described = [] := rfl
  have hlater : ([name, label, text].flatMap View.described).map (·.value) =
      (["A name.", "A text."] : List Str) := by
    decide +kernel
  rcases hconverts : (Analysis.convert sample entry.view none).run.run begun with
    ⟨failure | converted, after⟩
  · simp [hconverts, Except.toOption] at hconverted
  rcases hreturns : (convertProperty sample entry).run.run begun with ⟨failure | property, stop⟩
  · simp [hreturns, Except.toOption] at hproperty
  have hprimitive : property.type.isPrimitive = true := by
    simpa [hreturns, Except.toOption] using hproperty
  refine ⟨converted, after, property, stop, hconverts, ?_, hreturns, ?_⟩
  · rw [hinherits _ _ _ hconverts, List.flatMap_cons, hown, List.nil_append, hlater]
  · have hne : [name, label, text].flatMap View.described ≠ [] := by
      intro hnil
      rw [hnil] at hlater
      cases hlater
    rw [hdescribes _ _ _ rfl hreturns, if_neg (by simp [hown]), if_pos ⟨hprimitive, hne⟩,
      Option.map_some, hlater]

end DescribedName

end Schemata.Analysis
