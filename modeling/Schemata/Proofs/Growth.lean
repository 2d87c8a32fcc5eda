import Schemata.Analysis.Convert
import Schemata.Proofs.Course

/-!
# What conversions leave as it was

A conversion only adds to the state. The entries and violations that were there stay
what they were, in their places, and the chain is as before, whether the conversion
returns or fails.
-/

namespace Schemata.Analysis

open Schema Source

/-- The kinds of entries. There is a registry for each. -/
inductive EntryKind
  | type
  | enumeration
  | union

/-- The kind of the entries that schemas of a shape become. -/
def entryKind? : Shape → Option EntryKind
  | .object | .intersection => some .type
  | .enumeration => some .enumeration
  | .union => some .union
  | _ => none

theorem entryKind?_of_type {shape : Shape} (h : shape = .object ∨ shape = .intersection) :
    entryKind? shape = some .type := by
  rcases h with rfl | rfl <;> rfl

theorem isNamed_iff {shape : Shape} :
    shape.isNamed = true ↔ ∃ kind, entryKind? shape = some kind := by
  cases shape <;> simp [Shape.isNamed, entryKind?]

/-- The state `after` continues `before`: nothing that was there has changed, and the
chain is the same. -/
structure Context.Extends (before after : Context) : Prop where
  types : before.typeRegistry.entries <+: after.typeRegistry.entries
  enums : before.enumRegistry.entries <+: after.enumRegistry.entries
  unions : before.unionRegistry.entries <+: after.unionRegistry.entries
  violations : before.violations <+: after.violations
  visited : before.visited <:+ after.visited
  log : before.log <:+ after.log
  chain : after.chain = before.chain

namespace Context

variable {before middle after : Context}

theorem lookup_eq_none_iff {context : Context} {name : Str} :
    context.lookup name = none ↔ name ∉ context.typeRegistry.names ∧
      name ∉ context.enumRegistry.names ∧ name ∉ context.unionRegistry.names := by
  simp [lookup, Registry.get?_eq_none_iff]

theorem lookup_addType (context : Context) (type : ObjectType) :
    (context.addType type).lookup type.name.value ≠ none := by
  intro hnone
  exact (lookup_eq_none_iff.mp hnone).1 (Registry.mem_names_insert _ _ _)

theorem lookup_addUnion (context : Context) (type : UnionType) :
    (context.addUnion type).lookup type.name.value ≠ none := by
  intro hnone
  exact (lookup_eq_none_iff.mp hnone).2.2 (Registry.mem_names_insert _ _ _)

theorem lookup_record (context : Context) (violation : Violation) (name : Str) :
    (context.record violation).lookup name = context.lookup name := by
  unfold record
  split <;> rfl

theorem mem_violations_record (context : Context) (violation : Violation) :
    violation ∈ (context.record violation).violations := by
  unfold record
  split
  next hmem => exact hmem
  next => exact List.mem_append_right _ List.mem_cons_self

theorem mem_violations_of_record {context : Context} {violation added : Violation}
    (h : violation ∈ (context.record added).violations) :
    violation ∈ context.violations ∨ violation = added := by
  unfold record at h
  split at h
  · exact .inl h
  · exact (List.mem_append.mp h).imp_right List.mem_singleton.mp

namespace Extends

theorem refl (context : Context) : context.Extends context :=
  ⟨List.prefix_rfl, List.prefix_rfl, List.prefix_rfl, List.prefix_rfl, List.suffix_rfl,
    List.suffix_rfl, rfl⟩

theorem trans (hfirst : before.Extends middle) (hsecond : middle.Extends after) :
    before.Extends after :=
  ⟨hfirst.types.trans hsecond.types, hfirst.enums.trans hsecond.enums,
    hfirst.unions.trans hsecond.unions, hfirst.violations.trans hsecond.violations,
    hfirst.visited.trans hsecond.visited, hfirst.log.trans hsecond.log,
    hsecond.chain.trans hfirst.chain⟩

theorem note (context : Context) (event : Event) : context.Extends (context.note event) :=
  { refl context with log := List.suffix_cons event context.log }

theorem record (context : Context) (violation : Violation) :
    context.Extends (context.record violation) := by
  unfold Context.record
  split
  · exact refl context
  · exact { refl context with
      violations := List.prefix_append _ _
      log := List.suffix_cons _ _ }

theorem visit (context : Context) (pointer : Pointer) :
    context.Extends (context.visit pointer) :=
  { refl context with visited := List.suffix_cons pointer context.visited }

theorem addType {context : Context} {type : ObjectType}
    (hnew : context.lookup type.name.value = none) : context.Extends (context.addType type) :=
  { refl context with
    types := by
      rw [Context.addType, Registry.entries_insert _ (lookup_eq_none_iff.mp hnew).1]
      exact List.prefix_append _ _ }

theorem addEnum {context : Context} {type : EnumType}
    (hnew : context.lookup type.name.value = none) : context.Extends (context.addEnum type) :=
  { refl context with
    enums := by
      rw [Context.addEnum, Registry.entries_insert _ (lookup_eq_none_iff.mp hnew).2.1]
      exact List.prefix_append _ _ }

theorem addUnion {context : Context} {type : UnionType}
    (hnew : context.lookup type.name.value = none) : context.Extends (context.addUnion type) :=
  { refl context with
    unions := by
      rw [Context.addUnion, Registry.entries_insert _ (lookup_eq_none_iff.mp hnew).2.2]
      exact List.prefix_append _ _ }

/-- An entry that was opened since may be completed. -/
theorem completeType {name : Str} {properties : List Property} {rules : List Rule}
    (hnew : before.lookup name = none) (h : before.Extends after) :
    before.Extends (after.completeType name properties rules) :=
  { h with types := Registry.prefix_entries_modify (lookup_eq_none_iff.mp hnew).1 h.types }

theorem completeUnion {name : Str} {kind : UnionKind} {members : List ValueType}
    {discriminator : Option Label} (hnew : before.lookup name = none)
    (h : before.Extends after) :
    before.Extends (after.completeUnion name kind members discriminator) :=
  { h with unions := Registry.prefix_entries_modify (lookup_eq_none_iff.mp hnew).2.2 h.unions }

theorem leave {pointer : Pointer} (h : (before.enter pointer).Extends after) :
    before.Extends after.leave :=
  { h with chain := by rw [Context.leave, h.chain]; rfl }

end Extends

/-- There is an entry of the given kind and name, made from the schema at a pointer. -/
def HasEntry (context : Context) (kind : EntryKind) (name : Str) (source : Pointer) : Prop :=
  match kind with
  | .type => context.typeRegistry.Has ObjectType.source name source
  | .enumeration => context.enumRegistry.Has EnumType.source name source
  | .union => context.unionRegistry.Has UnionType.source name source

/-- The state `after` is at least as far as `before`: what has an entry, was visited or is
in the log stays so. Entries may have been completed. -/
structure Grows (before after : Context) : Prop where
  entries : ∀ kind name source, before.HasEntry kind name source →
    after.HasEntry kind name source
  violations : before.violations <+: after.violations
  visited : before.visited <:+ after.visited
  log : before.log <:+ after.log
  chain : after.chain = before.chain

theorem Extends.grows (h : before.Extends after) : before.Grows after where
  entries kind name source hentry := by
    cases kind with
    | type =>
        obtain ⟨type, hmem, hsource⟩ := hentry
        exact ⟨type, h.types.subset hmem, hsource⟩
    | enumeration =>
        obtain ⟨type, hmem, hsource⟩ := hentry
        exact ⟨type, h.enums.subset hmem, hsource⟩
    | union =>
        obtain ⟨type, hmem, hsource⟩ := hentry
        exact ⟨type, h.unions.subset hmem, hsource⟩
  violations := h.violations
  visited := h.visited
  log := h.log
  chain := h.chain

section HasEntry

variable {kind : EntryKind} {name key : Str} {source : Pointer}

/-- A type under a new name is the only entry that is new. -/
theorem hasEntry_addType_iff (type : ObjectType) (hnew : before.lookup type.name.value = none) :
    (before.addType type).HasEntry kind name source ↔ before.HasEntry kind name source ∨
      kind = .type ∧ name = type.name.value ∧ source = type.source := by
  cases kind with
  | type =>
      rw [HasEntry, HasEntry, addType, Registry.has_insert_iff (lookup_eq_none_iff.mp hnew).1]
      simp
  | enumeration | union => simp [HasEntry, addType]

theorem hasEntry_addEnum_iff (type : EnumType) (hnew : before.lookup type.name.value = none) :
    (before.addEnum type).HasEntry kind name source ↔ before.HasEntry kind name source ∨
      kind = .enumeration ∧ name = type.name.value ∧ source = type.source := by
  cases kind with
  | enumeration =>
      rw [HasEntry, HasEntry, addEnum, Registry.has_insert_iff (lookup_eq_none_iff.mp hnew).2.1]
      simp
  | type | union => simp [HasEntry, addEnum]

theorem hasEntry_addUnion_iff (type : UnionType) (hnew : before.lookup type.name.value = none) :
    (before.addUnion type).HasEntry kind name source ↔ before.HasEntry kind name source ∨
      kind = .union ∧ name = type.name.value ∧ source = type.source := by
  cases kind with
  | union =>
      rw [HasEntry, HasEntry, addUnion, Registry.has_insert_iff (lookup_eq_none_iff.mp hnew).2.2]
      simp
  | type | enumeration => simp [HasEntry, addUnion]

theorem hasEntry_completeType_iff {properties : List Property} {rules : List Rule} :
    (before.completeType key properties rules).HasEntry kind name source ↔
      before.HasEntry kind name source := by
  cases kind with
  | type => exact Registry.has_modify_iff fun _ => rfl
  | enumeration | union => exact Iff.rfl

theorem hasEntry_completeUnion_iff {unionKind : UnionKind} {members : List ValueType}
    {discriminator : Option Label} :
    (before.completeUnion key unionKind members discriminator).HasEntry kind name source ↔
      before.HasEntry kind name source := by
  cases kind with
  | union => exact Registry.has_modify_iff fun _ => rfl
  | type | enumeration => exact Iff.rfl

end HasEntry

/-- A name is taken if an entry has it. -/
theorem lookup_ne_none_iff {context : Context} {name : Str} :
    context.lookup name ≠ none ↔ ∃ kind source, context.HasEntry kind name source := by
  rw [Ne, lookup_eq_none_iff, Registry.mem_names_iff_has, Registry.mem_names_iff_has,
    Registry.mem_names_iff_has]
  constructor
  · intro htaken
    refine Classical.byContradiction fun hnone => htaken ⟨?_, ?_, ?_⟩
    · exact fun ⟨source, hentry⟩ => hnone ⟨.type, source, hentry⟩
    · exact fun ⟨source, hentry⟩ => hnone ⟨.enumeration, source, hentry⟩
    · exact fun ⟨source, hentry⟩ => hnone ⟨.union, source, hentry⟩
  · rintro ⟨kind, source, hentry⟩ ⟨htypes, henums, hunions⟩
    cases kind with
    | type => exact htypes ⟨source, hentry⟩
    | enumeration => exact henums ⟨source, hentry⟩
    | union => exact hunions ⟨source, hentry⟩

namespace Grows

theorem refl (context : Context) : context.Grows context :=
  (Extends.refl context).grows

theorem trans (hfirst : before.Grows middle) (hsecond : middle.Grows after) :
    before.Grows after :=
  ⟨fun _ _ _ hentry => hsecond.entries _ _ _ (hfirst.entries _ _ _ hentry),
    hfirst.violations.trans hsecond.violations, hfirst.visited.trans hsecond.visited,
    hfirst.log.trans hsecond.log, hsecond.chain.trans hfirst.chain⟩

theorem completeType (context : Context) (name : Str) (properties : List Property)
    (rules : List Rule) : context.Grows (context.completeType name properties rules) :=
  { refl context with entries := fun _ _ _ => hasEntry_completeType_iff.mpr }

theorem completeUnion (context : Context) (name : Str) (kind : UnionKind)
    (members : List ValueType) (discriminator : Option Label) :
    context.Grows (context.completeUnion name kind members discriminator) :=
  { refl context with entries := fun _ _ _ => hasEntry_completeUnion_iff.mpr }

theorem leave {pointer : Pointer} (h : (before.enter pointer).Grows after) :
    before.Grows after.leave :=
  { entries := h.entries
    violations := h.violations
    visited := h.visited
    log := h.log
    chain := by rw [Context.leave, h.chain]; rfl }

theorem lookup {name : Str} (h : before.Grows after) (htaken : before.lookup name ≠ none) :
    after.lookup name ≠ none := by
  obtain ⟨kind, source, hentry⟩ := lookup_ne_none_iff.mp htaken
  exact lookup_ne_none_iff.mpr ⟨kind, source, h.entries _ _ _ hentry⟩

end Grows

/-- The second state is at least as far as the first one, whatever their chains are. -/
def Earlier (before after : Context) : Prop :=
  ({ before with chain := after.chain } : Context).Grows after

theorem Grows.earlier (h : before.Grows after) : before.Earlier after :=
  { h with chain := rfl }

theorem earlier_enter (context : Context) (pointer : Pointer) :
    context.Earlier (context.enter pointer) :=
  Grows.refl (context.enter pointer)

theorem earlier_leave (context : Context) : context.Earlier context.leave :=
  Grows.refl context.leave

theorem Earlier.trans (hfirst : before.Earlier middle) (hsecond : middle.Earlier after) :
    before.Earlier after where
  entries kind name source hentry :=
    hsecond.entries kind name source (hfirst.entries kind name source hentry)
  violations := hfirst.violations.trans hsecond.violations
  visited := hfirst.visited.trans hsecond.visited
  log := hfirst.log.trans hsecond.log
  chain := rfl

end Context

variable {setting : Setting} {convert : Converter} {view : View} {loc : Option LocationCode}

/-- Wherever a conversion by the given converter leads, it continues the state. -/
def Continues (convert : Converter) : Prop :=
  ∀ view loc before after, (convert view loc).Leads false before after → before.Extends after

theorem Course.extends {returning : Bool} {opened : Option Label} {before after : Context}
    (hconvert : Continues convert)
    (hcourse : Course setting convert view loc returning opened before after) :
    before.Extends after := by
  induction hcourse with
  | done => exact .refl _
  | andThen _ _ ihFirst ihSecond => exact ihFirst.trans ihSecond
  | note _ => exact .note _ _
  | report _ => exact .record _ _
  | convert _ hcalled => exact hconvert _ _ _ _ ⟨hcalled.1, nofun⟩
  | enumEntry hname _ => exact .addEnum hname.2
  | typeOpened hname _ _ _ ih => exact (Context.Extends.addType hname.2).trans ih
  | typeEntry hname _ _ _ _ _ ihStart ih =>
      exact .completeType hname.2 (((Context.Extends.addType hname.2).trans ihStart).trans ih)
  | unionOpened hname _ _ ih => exact (Context.Extends.addUnion hname.2).trans ih
  | unionEntry hname _ _ _ _ ihStart ih =>
      exact .completeUnion hname.2 (((Context.Extends.addUnion hname.2).trans ihStart).trans ih)

theorem Conversion.extends {before after : Context} (hconvert : Continues convert)
    (hconversion : Conversion setting convert view loc before after) :
    before.Extends after := by
  induction hconversion with
  | done => exact .refl _
  | andThen _ _ ihFirst ihSecond => exact ihFirst.trans ihSecond
  | definition _ hcalled => exact (Context.Extends.visit _ _).trans (hconvert _ _ _ _ hcalled)
  | within _ hcourse =>
      exact .leave ((Context.Extends.note _ _).trans (hcourse.extends hconvert))

theorem convertWithin_continues (setting : Setting) (depth : Nat) :
    Continues (convertWithin setting depth) := by
  induction depth with
  | zero => 
      rintro _ _ _ _ ⟨rfl, -⟩
      exact .refl _
  | succ depth ih =>
      rintro _ _ _ _ ⟨rfl, -⟩
      exact (conversion_step _ _ _ _ _).extends ih

end Schemata.Analysis
