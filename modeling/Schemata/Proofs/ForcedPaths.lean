import Schemata.Proofs.Exploration

/-!
# Forced paths

A reference goes on to its target and an array to its items, and there is no choice on the
way. The schema where this ends has a type of its own, which can be told without any
conversion: the name of its entry, a primitive type, or none. A conversion that returns gives
the type of that end, whatever was converted before. Whether the entry is new, half-built, or
lost its name to another schema makes no difference.
-/

namespace Schemata.Analysis

open Schema Source

/-! ### The type of an end -/

/-- The primitive types of type names with a format. -/
def formatted : List ((Str × Str) × Primitive) :=
  [(("integer", "int32"), .integer), (("integer", "int64"), .long), (("number", "float"), .float),
    (("number", "double"), .double), (("string", "date"), .date),
    (("string", "date-time"), .dateTime)]

/-- The primitive types of type names alone. -/
def unformatted : List (Str × Primitive) :=
  [("boolean", .boolean), ("integer", .integer), ("number", .number), ("string", .string)]

/-- The primitive type of a type name and its format, or of the name alone if there is none
for both. -/
def mapped? (type : Str) (format : Option Str) : Option Primitive :=
  (format.bind fun format => formatted.lookup (type, format)).or (unformatted.lookup type)

theorem lookup_primitives_none (type : Str) :
    primitives.lookup (type, none) = unformatted.lookup type := by
  have hpair (name : Str) (format : Option Str) :
      ((type, none) == (name, format)) = (type == name && none == format) := rfl
  simp [primitives, unformatted, List.lookup_cons, hpair]

theorem lookup_primitives_some (type format : Str) :
    primitives.lookup (type, some format) = formatted.lookup (type, format) := by
  have hpair (name : Str) (other : Option Str) :
      ((type, some format) == (name, other)) = (type == name && some format == other) := rfl
  have hpair' (name other : Str) :
      ((type, format) == (name, other)) = (type == name && format == other) := rfl
  simp [primitives, formatted, List.lookup_cons, hpair, hpair']

theorem primitiveOf?_eq (type : Str) (format : Option Str) :
    primitiveOf? type format = mapped? type format := by
  cases format with
  | none =>
      rw [primitiveOf?, lookup_primitives_none, Option.or_self]
      rfl
  | some format =>
      rw [primitiveOf?, lookup_primitives_none, lookup_primitives_some]
      rfl

/-- The primitive type of a schema by its type and format, if these are strings. -/
def mappedPrimitive? (view : View) : Option Primitive :=
  match view.type? with
  | some (.one type) =>
      type.string?.bind fun name => mapped? name (view.format?.bind View.string?)
  | _ => none

theorem declaredPrimitive?_eq (view : View) : declaredPrimitive? view = mappedPrimitive? view := by
  have hall : primitiveOf? = mapped? := funext₂ primitiveOf?_eq
  unfold declaredPrimitive?
  rw [hall]
  rfl

/-- A schema has a type of its own. The range is that of a primitive type. -/
inductive HasType (setting : Setting) (view : View) (loc : Option LocationCode) :
    ValueType → Prop
  | named {shape : Shape} {name : Label} (hshape : view.conversionShape = .ok shape)
      (hnamed : shape.isNamed = true) (hname : setting.naming.infer view = .ok (some name)) :
      HasType setting view loc (.named name)
  | primitive {type : Primitive} {required : Bool} {rules : List Rule}
      (hshape : view.conversionShape = .ok .primitive) (htype : mappedPrimitive? view = some type)
      (hrequired : isRequired setting.document view.pointer = .ok required)
      (hrules : view.valueRules = .ok rules) :
      HasType setting view loc ⟨false, !required, rules, .primitive type loc none⟩
  | unmapped (hshape : view.conversionShape = .ok .primitive)
      (htype : mappedPrimitive? view = none) : HasType setting view loc .untyped
  | placeholder {shape : Shape} (hshape : view.conversionShape = .ok shape)
      (hkind : shape = .anyOf ∨ shape = .typeList) : HasType setting view loc .untyped
  | nowhere (hshape : view.conversionShape = .ok .reference) : HasType setting view loc .untyped
  | itemless (hshape : view.conversionShape = .ok .array) : HasType setting view loc .untyped

/-- A schema has at most one type of its own. -/
theorem HasType.unique {setting : Setting} {view : View} {loc : Option LocationCode}
    {type other : ValueType} (h : HasType setting view loc type)
    (hother : HasType setting view loc other) : type = other := by
  cases h with
  | named hshape hnamed hname =>
      cases hother with
      | named _ _ hother => simp_all
      | _ => grind [Shape.isNamed]
  | primitive | unmapped | placeholder | nowhere | itemless =>
      cases hother <;> grind [Shape.isNamed]

/-- A schema is converted as an array. -/
def isList (view : View) : Bool :=
  match view.conversionShape with
  | .ok shape => shape = .array
  | .error _ => false

theorem isList_iff {view : View} : isList view = true ↔ view.conversionShape = .ok .array := by
  unfold isList
  split
  next shape hshape => simp [hshape]
  next failure hshape => simp [hshape]

theorem isList_eq_false {view : View} {shape : Shape} (hshape : view.conversionShape = .ok shape)
    (h : shape ≠ .array) : isList view = false := by
  simp [isList, hshape, h]

/-! ### Paths -/

/-- The range that is passed on to the next schema: an item has its own. -/
def passedLoc (view next : View) (loc : Option LocationCode) : Option LocationCode :=
  if isList view then some next.code else loc

/-- The path from a schema to its end, with the ranges that are passed on. A path does not go
on from its end. -/
inductive ForcedPath (setting : Setting) :
    View → Option LocationCode → List View → View → Option LocationCode → Prop
  | last {view : View} {loc : Option LocationCode} (hend : ∀ next, ¬ Passes setting view next) :
      ForcedPath setting view loc [view] view loc
  | next {view next last : View} {loc lastLoc : Option LocationCode} {path : List View}
      (hnext : Passes setting view next)
      (hrest : ForcedPath setting next (passedLoc view next loc) path last lastLoc) :
      ForcedPath setting view loc (view :: path) last lastLoc

namespace ForcedPath

variable {setting : Setting} {view next last other : View} {loc lastLoc : Option LocationCode}
  {path : List View}

/-- A path goes on in the only way there is. -/
theorem passes (h : ForcedPath setting view loc path last lastLoc)
    (hnext : Passes setting view next) :
    ∃ rest, path = view :: rest ∧
      ForcedPath setting next (passedLoc view next loc) rest last lastLoc := by
  cases h with
  | last hend => exact absurd hnext (hend next)
  | next hother hrest =>
      obtain rfl := hnext.unique hother
      exact ⟨_, rfl, hrest⟩

/-- There is one path from a schema. -/
theorem unique {otherLoc otherLastLoc : Option LocationCode} {otherPath : List View}
    {otherLast : View} (h : ForcedPath setting view loc path last lastLoc)
    (hother : ForcedPath setting view otherLoc otherPath otherLast otherLastLoc) :
    path = otherPath := by
  induction h generalizing otherLoc otherPath with
  | last hend =>
      cases hother with
      | last => rfl
      | next hnext => exact absurd hnext (hend _)
  | next hnext _ ih =>
      obtain ⟨rest, rfl, hrest⟩ := hother.passes hnext
      rw [ih hrest]

theorem self_mem (h : ForcedPath setting view loc path last lastLoc) : view ∈ path := by
  cases h <;> exact List.mem_cons_self

/-- From every schema on a path there is a path that is no longer. -/
theorem of_mem (h : ForcedPath setting view loc path last lastLoc) (hother : other ∈ path) :
    ∃ otherLoc rest, ForcedPath setting other otherLoc rest last lastLoc ∧
      rest.length ≤ path.length := by
  induction h with
  | last hend =>
      obtain rfl := List.mem_singleton.mp hother
      exact ⟨_, _, .last hend, le_rfl⟩
  | @next view next last loc lastLoc path hnext hrest ih =>
      rcases List.mem_cons.mp hother with rfl | hmem
      · exact ⟨loc, _, .next hnext hrest, le_rfl⟩
      · obtain ⟨otherLoc, rest, hpath, hlength⟩ := ih hmem
        exact ⟨otherLoc, rest, hpath, Nat.le_succ_of_le hlength⟩

/-- A path never comes back to a schema that it left. -/
theorem not_mem (h : ForcedPath setting view loc path last lastLoc)
    (hnext : Passes setting other view) : other ∉ path := by
  intro hmem
  obtain ⟨otherLoc, rest, hpath, hlength⟩ := h.of_mem hmem
  obtain ⟨others, rfl, hothers⟩ := hpath.passes hnext
  rw [h.unique hothers, List.length_cons] at hlength
  omega

/-- What a schema on a path passes to is on the path as well. -/
theorem mem_of_passes (h : ForcedPath setting view loc path last lastLoc) (hother : other ∈ path)
    (hnext : Passes setting other next) : next ∈ path := by
  induction h with
  | last hend =>
      obtain rfl := List.mem_singleton.mp hother
      exact absurd hnext (hend next)
  | next hfirst hrest ih =>
      rcases List.mem_cons.mp hother with rfl | hmem
      · rw [hnext.unique hfirst]
        exact List.mem_cons_of_mem _ hrest.self_mem
      · exact List.mem_cons_of_mem _ (ih hmem)

theorem placed (hdistinct : DistinctKeys setting.document) (hview : Placed setting.document view)
    (h : ForcedPath setting view loc path last lastLoc) {other : View} (hother : other ∈ path) :
    Placed setting.document other := by
  induction h with
  | last =>
      obtain rfl := List.mem_singleton.mp hother
      exact hview
  | next hnext _ ih =>
      rcases List.mem_cons.mp hother with rfl | hmem
      · exact hview
      · exact ih (hnext.dependsOn.placed hdistinct hview) hmem

end ForcedPath

/-! ### Conversions along a path -/

/-- Where the type of a schema comes from, for a conversion that returns: from the next schema
on the path, or from the schema itself. -/
inductive Settles (setting : Setting) (convert : Converter) (view : View)
    (loc : Option LocationCode) (before after : Context) : ValueType → Prop
  | followed {type : ValueType} (hshape : view.conversionShape = .ok .reference)
      (hfollowed : Followed setting convert view loc before after type) :
      Settles setting convert view loc before after type
  | items {item : View} {converted : Converted} (hitem : ListsItem view item)
      (hmade : Made convert before after item (some item.code) converted) :
      Settles setting convert view loc before after { converted.type with isArray := true }
  | own {type : ValueType} (hend : ∀ next, ¬ Passes setting view next)
      (htype : HasType setting view loc type) :
      Settles setting convert view loc before after { type with isArray := isList view }

section Steps

variable {setting : Setting} {convert : Converter} {view : View} {loc : Option LocationCode}
  {before after : Context} {type : ValueType}

theorem not_passes {shape : Shape} (hshape : view.conversionShape = .ok shape)
    (hreference : shape ≠ .reference) (hitem : ∀ item, ¬ ListsItem view item) (next : View) :
    ¬ Passes setting view next := by
  rintro (htarget | hnext)
  · exact hreference (Except.ok.inj (hshape.symm.trans htarget.conversionShape))
  · exact hitem next hnext

theorem not_listsItem {shape : Shape} (hshape : view.conversionShape = .ok shape)
    (harray : shape ≠ .array) (item : View) : ¬ ListsItem view item :=
  fun hitem => harray (Except.ok.inj (hshape.symm.trans hitem.1))

theorem Settles.widen {start : Context} (h : Settles setting convert view loc start after type)
    (hstart : before.Grows start) : Settles setting convert view loc before after type := by
  cases h with
  | followed hshape hfollowed =>
      refine .followed hshape ?_
      cases hfollowed with
      | target htarget hfree hmade =>
          exact .target htarget (hstart.chain ▸ hfree) (hmade.widen hstart (.refl after))
      | circular hreference htarget hunnamed hchain hrecorded hlax =>
          exact .circular hreference htarget hunnamed (hstart.chain ▸ hchain) hrecorded hlax
      | nowhere hdangles hrecorded => exact .nowhere hdangles hrecorded
  | items hitem hmade => exact .items hitem (hmade.widen hstart (.refl after))
  | own hend htype => exact .own hend htype

/-- A schema that is no array has the type that it has of its own. -/
theorem Settles.of_hasType {shape : Shape} (hshape : view.conversionShape = .ok shape)
    (harray : shape ≠ .array) (hsingle : type.isArray = false)
    (hend : ∀ next, ¬ Passes setting view next) (htype : HasType setting view loc type) :
    Settles setting convert view loc before after type := by
  have hown : Settles setting convert view loc before after
      { type with isArray := isList view } := .own hend htype
  rw [isList_eq_false hshape harray, ← hsingle] at hown
  exact hown

/-- A named schema has the type of its entry, whether that was made now or before, or is one of
another schema. -/
theorem Yields.settles (hview : Placed setting.document view) {shape : Shape}
    (hshape : view.conversionShape = .ok shape) (hkind : shape.isNamed = true)
    (h : Yields setting convert view before after type) :
    Settles setting convert view loc before after type := by
  have hnamed : Named view := ⟨shape, hshape, hkind⟩
  have hend : ∀ next, ¬ Passes setting view next :=
    fun next hnext => hnext.unnamed.not_named hnamed
  have harray : shape ≠ .array := by
    rintro rfl
    cases hkind
  cases h with
  | target htarget => exact absurd (.inl htarget) (hend _)
  | circular _ htarget => exact absurd (.inl htarget) (hend _)
  | nowhere hdangles =>
      exact absurd hnamed (Unnamed.not_named ⟨_, hdangles.conversionShape, rfl⟩)
  | items hitem => exact absurd (.inr hitem) (hend _)
  | plain hshape hunnamed => exact absurd hnamed (Unnamed.not_named ⟨_, hshape, hunnamed⟩)
  | unnamed _ _ hnone => exact absurd hnone hview.infer_ne_none
  | taken _ _ hname => exact .of_hasType hshape harray rfl hend (.named hshape hkind hname)
  | entry _ _ hname => exact .of_hasType hshape harray rfl hend (.named hshape hkind hname)

theorem settles_primitive (hshape : view.conversionShape = .ok .primitive) :
    Gives before (primitive setting view loc) fun type after =>
      Settles setting convert view loc before after type := by
  have hend : ∀ next, ¬ Passes setting view next :=
    not_passes hshape nofun (not_listsItem hshape nofun)
  unfold primitive
  split
  next hnone =>
    rw [declaredPrimitive?_eq] at hnone
    exact .pure (.of_hasType hshape nofun rfl hend (.unmapped hshape hnone))
  next type htype =>
    rw [declaredPrimitive?_eq] at htype
    refine .bind .lift fun required _ _ hrequired => .bind .lift fun rules _ _ hrules => .pure ?_
    exact .of_hasType hshape nofun rfl hend (.primitive hshape htype hrequired.1 hrules.1)

theorem settles_placeholder {shape : Shape} {key : Str} {problem : Problem}
    (hshape : view.conversionShape = .ok shape) (hkind : shape = .anyOf ∨ shape = .typeList) :
    Gives before (placeholder setting view key problem) fun type after =>
      Settles setting convert view loc before after type := by
  have hsettles : ∀ after, Settles setting convert view loc before after .untyped := by
    intro after
    have harray : shape ≠ .array := by rcases hkind with rfl | rfl <;> nofun
    have hreference : shape ≠ .reference := by rcases hkind with rfl | rfl <;> nofun
    have hend : ∀ next, ¬ Passes setting view next :=
      not_passes hshape hreference (not_listsItem hshape harray)
    exact .of_hasType hshape harray rfl hend (.placeholder hshape hkind)
  unfold placeholder
  split
  · exact .bind (.report _ _ _) fun _ _ _ _ => .pure (hsettles _)
  · exact .pure (hsettles _)

section Entries

variable (hconvert : Continues convert) (hview : Placed setting.document view)

include hconvert

theorem settles_array (hshape : view.conversionShape = .ok .array) :
    Gives before (array setting convert view) fun type after =>
      Settles setting convert view loc before after type := by
  refine (gives_arrayType hconvert).imp fun type after _ htype => ?_
  rcases htype with ⟨item, converted, hitem, hmade, rfl⟩ | ⟨hnone, rfl⟩
  · exact .items ⟨hshape, hitem⟩ hmade
  · have hend : ∀ next, ¬ Passes setting view next :=
      not_passes hshape nofun fun item hitem => hnone item hitem.2
    have hown : Settles setting convert view loc before after
        { ValueType.untyped with isArray := isList view } := .own hend (.itemless hshape)
    rwa [isList_iff.mpr hshape] at hown

include hview

theorem settles_byType {shape : Shape} (hshape : view.conversionShape = .ok shape)
    (hkind : shape = .object ∨ shape = .array ∨ shape = .primitive) :
    Gives before (byType setting convert view loc shape) fun type after =>
      Settles setting convert view loc before after type := by
  rcases hkind with rfl | rfl | rfl
  · exact (gives_object hconvert hshape).imp fun _ _ _ h => h.settles hview hshape rfl
  · exact settles_array hconvert hshape
  · exact settles_primitive hshape

theorem settles_enumeration (hshape : view.shape = .ok .enumeration) :
    Gives before (enumeration setting convert view loc) fun type after =>
      Settles setting convert view loc before after type := by
  rw [enumeration_eq]
  refine .bind .lift fun isString middle _ hstring => ?_
  obtain ⟨hstring, rfl⟩ := hstring
  cases isString with
  | true =>
      have hconversion := conversionShape_of_stringEnum hshape hstring
      exact (gives_stringEnum hconversion).imp fun _ _ _ h => h.settles hview hconversion rfl
  | false =>
      have hconversion := conversionShape_of_otherEnum hshape hstring
      have htype : ∀ current, Gives current (byDeclaredType setting convert view loc)
          fun type after => Settles setting convert view loc current after type := by
        intro current
        refine .bind .lift ?_
        rintro shape _ _ ⟨hshape, rfl⟩
        rw [hshape] at hconversion
        exact settles_byType hconvert hview hconversion (shapeOfType_cases hshape)
      dsimp only
      split
      · contradiction
      · split
        · exact .bind (.report _ _ _) fun _ start hstart _ =>
            (htype start).imp fun _ _ _ h => h.widen hstart
        · exact htype _

theorem settles_byShape {shape : Shape} (hshape : view.shape = .ok shape)
    (hreference : view.reference? = none) :
    Gives before (byShape setting convert view loc shape) fun type after =>
      Settles setting convert view loc before after type := by
  have hconversion := conversionShape_of_shape hshape
  cases shape with
  | intersection =>
      exact (gives_intersection hconvert (hconversion nofun)).imp fun _ _ _ h =>
        h.settles hview (hconversion nofun) rfl
  | anyOf => exact settles_placeholder (hconversion nofun) (.inl rfl)
  | union =>
      exact (gives_union hconvert (hconversion nofun)).imp fun _ _ _ h =>
        h.settles hview (hconversion nofun) rfl
  | typeList => exact settles_placeholder (hconversion nofun) (.inr rfl)
  | enumeration => exact settles_enumeration hconvert hview hshape
  | object =>
      exact (gives_object hconvert (hconversion nofun)).imp fun _ _ _ h =>
        h.settles hview (hconversion nofun) rfl
  | array => exact settles_array hconvert (hconversion nofun)
  | reference => exact absurd hreference (reference?_of_shape hshape)
  | primitive => exact settles_primitive (hconversion nofun)

theorem settles_dispatch : Gives before (dispatch setting convert view loc) fun converted after =>
    Settles setting convert view loc before after converted.type := by
  refine .bind .lift ?_
  rintro shape _ _ ⟨hshape, rfl⟩
  refine .bind (.note _) fun _ start hstart _ => ?_
  split
  next reference hreference =>
    exact (gives_followed hconvert hreference).imp fun _ _ _ h =>
      (Settles.followed (conversionShape_of_reference hreference) h).widen hstart
  next hreference =>
    exact .bind (settles_byShape hconvert hview hshape hreference) fun _ _ _ h =>
      .pure (h.widen hstart)

theorem settles_step : Gives before (step setting convert view loc) fun converted _ =>
    ∃ start stop, before.Grows start ∧
      Settles setting convert view loc (start.enter view.pointer) stop converted.type := by
  refine .bind (gives_visitDefinitions hconvert _) fun _ start hstart _ => ?_
  refine .within ((settles_dispatch hconvert hview).imp fun _ _ _ hsettles _ => ?_)
  exact ⟨start, _, hstart, hsettles⟩

end Entries

end Steps

/-! ### The end decides -/

section Main

variable {setting : Setting} {view last : View} {loc lastLoc : Option LocationCode}
  {path : List View} {before after : Context} {converted : Converted}

/-- No reference on a path refers to a schema without an entry that is being converted. -/
def PathFree (setting : Setting) (path : List View) (chain : List Pointer) : Prop :=
  ∀ passed ∈ path, ∀ target, RefersTo setting passed target → Unnamed target →
    target.pointer ∉ chain

/-- A schema that is left on its path can be put on the chain. -/
theorem PathFree.enter (hdistinct : DistinctKeys setting.document)
    (hview : Placed setting.document view) {next : View} {chain : List Pointer}
    (hnext : Passes setting view next) (hpath : ForcedPath setting next loc path last lastLoc)
    (hfree : PathFree setting (view :: path) chain) :
    PathFree setting (view :: path) (view.pointer :: chain) := by
  intro passed hpassed target htarget hunnamed hmem
  rcases List.mem_cons.mp hmem with heq | hchain
  · have hon : target ∈ path := by
      rcases List.mem_cons.mp hpassed with rfl | hrest
      · rw [Passes.unique (.inl htarget) hnext]
        exact hpath.self_mem
      · exact hpath.mem_of_passes hrest (.inl htarget)
    have hplaced := hpath.placed hdistinct (hnext.dependsOn.placed hdistinct hview) hon
    obtain rfl := hplaced.eq_of_pointer hview heq
    exact hpath.not_mem hnext hon
  · exact hfree passed hpassed target htarget hunnamed hchain

theorem PathFree.rest {chain : List Pointer} (hfree : PathFree setting (view :: path) chain) :
    PathFree setting path chain :=
  fun passed hpassed => hfree passed (List.mem_cons_of_mem _ hpassed)

/-- The type that is settled for the end of a path. -/
theorem Settles.of_end {convert : Converter} {type : ValueType}
    (hend : ∀ next, ¬ Passes setting view next)
    (h : Settles setting convert view loc before after type) :
    ∃ own, HasType setting view loc own ∧ type = { own with isArray := isList view } := by
  cases h with
  | followed hshape hfollowed =>
      cases hfollowed with
      | target htarget => exact absurd (.inl htarget) (hend _)
      | circular _ htarget => exact absurd (.inl htarget) (hend _)
      | nowhere =>
          refine ⟨_, .nowhere hshape, ?_⟩
          rw [isList_eq_false hshape nofun]
          rfl
  | items hitem => exact absurd (.inr hitem) (hend _)
  | own _ htype => exact ⟨_, htype, rfl⟩

/-- The type that is settled for a schema before the end comes from the next one. -/
theorem Settles.of_passes {convert : Converter} {next : View} {type : ValueType}
    (hnext : Passes setting view next)
    (hfree : ∀ target, RefersTo setting view target → Unnamed target →
      target.pointer ∉ before.chain)
    (h : Settles setting convert view loc before after type) :
    ∃ converted, Made convert before after next (passedLoc view next loc) converted ∧
      type = { converted.type with isArray := isList view || converted.type.isArray } := by
  cases h with
  | followed hshape hfollowed =>
      rw [passedLoc, isList_eq_false hshape nofun]
      cases hfollowed with
      | target htarget _ hmade =>
          obtain rfl := hnext.unique (.inl htarget)
          exact ⟨_, hmade, rfl⟩
      | circular _ htarget hunnamed hchain =>
          exact absurd hchain (hfree _ htarget hunnamed)
      | nowhere hdangles =>
          rcases hnext with htarget | hitem
          · exact absurd htarget (hdangles.2 _)
          · exact absurd (hshape.symm.trans hitem.1) nofun
  | items hitem hmade =>
      rw [passedLoc, isList_iff.mpr hitem.1]
      obtain rfl := hnext.unique (.inr hitem)
      exact ⟨_, hmade, rfl⟩
  | own hend => exact absurd hnext (hend _)

theorem convertWithin_forcedPath (hdistinct : DistinctKeys setting.document)
    (hview : Placed setting.document view) (hpath : ForcedPath setting view loc path last lastLoc)
    (hfree : PathFree setting path before.chain) {depth : Nat}
    (hreturns : (convertWithin setting depth view loc).Returns before converted after) :
    ∃ type, HasType setting last lastLoc type ∧
      converted.type = { type with isArray := path.any isList } := by
  induction hpath generalizing depth before converted after with
  | last hend =>
      cases depth with
      | zero => exact absurd hreturns nofun
      | succ depth =>
          obtain ⟨start, stop, -, hsettles⟩ :=
            (settles_step (convertWithin_continues setting depth) hview).of_returns hreturns
          obtain ⟨type, htype, heq⟩ := hsettles.of_end hend
          refine ⟨type, htype, ?_⟩
          simpa using heq
  | @next view next last loc lastLoc path hnext hrest ih =>
      cases depth with
      | zero => exact absurd hreturns nofun
      | succ depth =>
          obtain ⟨start, stop, hstart, hsettles⟩ :=
            (settles_step (convertWithin_continues setting depth) hview).of_returns hreturns
          have henter := hfree.enter hdistinct hview hnext hrest
          rw [← hstart.chain] at henter
          obtain ⟨found, ⟨begun, _, hbegun, hfound, -⟩, heq⟩ :=
            hsettles.of_passes hnext (henter _ List.mem_cons_self)
          have hbegunFree : PathFree setting path begun.chain := by
            rw [hbegun.chain]
            exact henter.rest
          obtain ⟨type, htype, hfoundType⟩ :=
            ih (hnext.dependsOn.placed hdistinct hview) hbegunFree hfound
          refine ⟨type, htype, ?_⟩
          rw [heq, hfoundType, List.any_cons]

/-- A conversion that returns gives the type of the end of the path from its schema, whatever
the state it starts in. It is one of lists exactly if an array is on the path. -/
theorem convert_forcedPath (hdistinct : DistinctKeys setting.document)
    (hview : Placed setting.document view) (hpath : ForcedPath setting view loc path last lastLoc)
    (hfree : PathFree setting path before.chain)
    (hreturns : (convert setting view loc).Returns before converted after) :
    (∃ type, HasType setting last lastLoc type) ∧
      ∀ type, HasType setting last lastLoc type →
        converted.type = { type with isArray := path.any isList } := by
  obtain ⟨type, htype, heq⟩ := convertWithin_forcedPath hdistinct hview hpath hfree hreturns
  refine ⟨⟨type, htype⟩, fun other hother => ?_⟩
  rw [heq, htype.unique hother]

end Main

namespace DayList

def day : View :=
  ⟨bareObject [("type", bareString "string"), ("format", bareString "date")], "#/definitions/Day"⟩

def item : View :=
  ⟨bareObject [("$ref", bareString "#/definitions/Day")], "#/definitions/Days/items"⟩

def days : View :=
  ⟨bareObject [("type", bareString "array"), ("items", item.node)], "#/definitions/Days"⟩

/-- A definition of lists of another one. -/
def sample : Setting :=
  ⟨bareObject [("definitions", bareObject [("Days", days.node), ("Day", day.node)])], "", {}⟩

/-- The type of a single day, as the items of the list have it. -/
def dayType : ValueType :=
  ⟨false, true, [day.ruleUnder "format" (.format "date")], .primitive .date (some item.code) none⟩

theorem hasType_day : HasType sample day (some item.code) dayType := by
  have hprimitive : HasType sample day (some item.code)
      ⟨false, !false, dayType.rules, .primitive .date (some item.code) none⟩ :=
    .primitive rfl rfl rfl rfl
  exact hprimitive

theorem refersTo_item : RefersTo sample item day :=
  ⟨_, _, rfl, rfl, rfl⟩

theorem forcedPath_days :
    ForcedPath sample days none [days, item, day] day (some item.code) := by
  have hday : day.conversionShape = .ok .primitive := rfl
  refine .next (.inr ⟨rfl, rfl⟩) (.next (.inl refersTo_item) (.last ?_))
  exact not_passes hday nofun (not_listsItem hday nofun)

theorem pathFree_days : PathFree sample [days, item, day] [item.pointer, days.pointer] := by
  have hnone : days.reference? = none ∧ day.reference? = none := ⟨rfl, rfl⟩
  intro passed hpassed target htarget _
  simp only [List.mem_cons, List.not_mem_nil, or_false] at hpassed
  rcases hpassed with rfl | rfl | rfl
  · obtain ⟨_, _, hreference, -⟩ := htarget
    exact absurd (hnone.1.symm.trans hreference) nofun
  · rw [htarget.unique refersTo_item]
    decide
  · obtain ⟨_, _, hreference, -⟩ := htarget
    exact absurd (hnone.2.symm.trans hreference) nofun

/-- The list is one of days even if it is being converted already. -/
theorem convert_days :
    ∃ converted after, (convert sample days none).Returns
        { chain := [item.pointer, days.pointer] } converted after ∧
      converted.type = { dayType with isArray := true } := by
  have hdistinct : DistinctKeys sample.document := by decide +kernel
  have hresolve : resolve sample.document days.pointer = .ok (some days) := rfl
  have hreturns : ((convert sample days none).run.run { chain := [item.pointer, days.pointer] }).1 =
      .ok ⟨{ dayType with isArray := true }, []⟩ := by decide +kernel
  refine ⟨_, _, Prod.ext hreturns rfl, ?_⟩
  exact (convert_forcedPath hdistinct (.of_resolve hresolve) forcedPath_days pathFree_days
    (Prod.ext hreturns rfl)).2 _ hasType_day

end DayList

end Schemata.Analysis
