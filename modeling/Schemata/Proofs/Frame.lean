import Schemata.Proofs.Growth

/-!
# The frame of a conversion

A name that is taken stays with the entry that has it, with all that the entry held, and
no violation is recorded twice. So whoever has an entry half built finds it as it was
after every nested conversion, also after one that failed.
-/

namespace Schemata.Analysis

open Schema Source

namespace Context

variable {before middle after context : Context} {name key : Str}

theorem nodup_record (violation : Violation) (h : context.violations.Nodup) :
    (context.record violation).violations.Nodup := by
  unfold record
  split
  next => exact h
  next hnew => exact List.perm_append_comm.nodup_iff.mp (List.nodup_cons.mpr ⟨hnew, h⟩)

section Lookup

variable (hname : name ≠ key)

include hname

theorem lookup_addType_of_ne {type : ObjectType} (hkey : type.name.value = key)
    (hnew : context.lookup key = none) :
    (context.addType type).lookup name = context.lookup name := by
  subst hkey
  rw [lookup, lookup, addType, Registry.get?_insert_of_ne (lookup_eq_none_iff.mp hnew).1 hname]

theorem lookup_addEnum_of_ne {type : EnumType} (hkey : type.name.value = key)
    (hnew : context.lookup key = none) :
    (context.addEnum type).lookup name = context.lookup name := by
  subst hkey
  rw [lookup, lookup, addEnum, Registry.get?_insert_of_ne (lookup_eq_none_iff.mp hnew).2.1 hname]

theorem lookup_addUnion_of_ne {type : UnionType} (hkey : type.name.value = key)
    (hnew : context.lookup key = none) :
    (context.addUnion type).lookup name = context.lookup name := by
  subst hkey
  rw [lookup, lookup, addUnion,
    Registry.get?_insert_of_ne (lookup_eq_none_iff.mp hnew).2.2 hname]

theorem lookup_completeType_of_ne {properties : List Property} {rules : List Rule} :
    (context.completeType key properties rules).lookup name = context.lookup name := by
  rw [lookup, lookup, completeType, Registry.get?_modify_of_ne hname]

theorem lookup_completeUnion_of_ne {kind : UnionKind} {members : List ValueType}
    {discriminator : Option Label} :
    (context.completeUnion key kind members discriminator).lookup name = context.lookup name := by
  rw [lookup, lookup, completeUnion, Registry.get?_modify_of_ne hname]

end Lookup

/-- The state `after` continues `before`. Whoever has a name keeps it, and violations that
were all different still are. -/
structure Keeps (before after : Context) : Prop extends before.Extends after where
  owners : ∀ name owner, before.lookup name = some owner → after.lookup name = some owner
  distinct : before.violations.Nodup → after.violations.Nodup

namespace Keeps

theorem refl (context : Context) : context.Keeps context :=
  ⟨.refl context, fun _ _ howner => howner, fun hdistinct => hdistinct⟩

theorem trans (hfirst : before.Keeps middle) (hsecond : middle.Keeps after) :
    before.Keeps after :=
  ⟨hfirst.toExtends.trans hsecond.toExtends,
    fun name owner howner => hsecond.owners name owner (hfirst.owners name owner howner),
    fun hdistinct => hsecond.distinct (hfirst.distinct hdistinct)⟩

theorem note (context : Context) (event : Event) : context.Keeps (context.note event) :=
  { refl context with toExtends := .note context event }

theorem record (context : Context) (violation : Violation) :
    context.Keeps (context.record violation) where
  toExtends := .record context violation
  owners name _ howner := (lookup_record context violation name).trans howner
  distinct := nodup_record violation

theorem visit (context : Context) (pointer : Pointer) : context.Keeps (context.visit pointer) :=
  { refl context with toExtends := .visit context pointer }

/-- Whoever has a name has not the one that is free. -/
theorem ne_of_owner {owner : Entry} (hnew : context.lookup key = none)
    (howner : context.lookup name = some owner) : name ≠ key := by
  rintro rfl
  exact absurd (hnew.symm.trans howner) nofun

theorem addType {type : ObjectType} (hnew : context.lookup type.name.value = none) :
    context.Keeps (context.addType type) where
  toExtends := .addType hnew
  owners _ _ howner := (lookup_addType_of_ne (ne_of_owner hnew howner) rfl hnew).trans howner
  distinct hdistinct := hdistinct

theorem addEnum {type : EnumType} (hnew : context.lookup type.name.value = none) :
    context.Keeps (context.addEnum type) where
  toExtends := .addEnum hnew
  owners _ _ howner := (lookup_addEnum_of_ne (ne_of_owner hnew howner) rfl hnew).trans howner
  distinct hdistinct := hdistinct

theorem addUnion {type : UnionType} (hnew : context.lookup type.name.value = none) :
    context.Keeps (context.addUnion type) where
  toExtends := .addUnion hnew
  owners _ _ howner := (lookup_addUnion_of_ne (ne_of_owner hnew howner) rfl hnew).trans howner
  distinct hdistinct := hdistinct

/-- An entry that was opened since may be completed. -/
theorem completeType {properties : List Property} {rules : List Rule}
    (hnew : before.lookup key = none) (h : before.Keeps after) :
    before.Keeps (after.completeType key properties rules) where
  toExtends := h.toExtends.completeType hnew
  owners name owner howner :=
    (lookup_completeType_of_ne (ne_of_owner hnew howner)).trans (h.owners name owner howner)
  distinct := h.distinct

theorem completeUnion {kind : UnionKind} {members : List ValueType}
    {discriminator : Option Label} (hnew : before.lookup key = none) (h : before.Keeps after) :
    before.Keeps (after.completeUnion key kind members discriminator) where
  toExtends := h.toExtends.completeUnion hnew
  owners name owner howner :=
    (lookup_completeUnion_of_ne (ne_of_owner hnew howner)).trans (h.owners name owner howner)
  distinct := h.distinct

theorem leave {pointer : Pointer} (h : (before.enter pointer).Keeps after) :
    before.Keeps after.leave :=
  ⟨h.toExtends.leave, h.owners, h.distinct⟩

end Keeps

end Context

variable {setting : Setting} {convert : Converter} {view : View} {loc : Option LocationCode}

/-- Wherever a conversion by the given converter leads, it keeps what was there. -/
def KeepsAll (convert : Converter) : Prop :=
  ∀ view loc before after, (convert view loc).Leads false before after → before.Keeps after

theorem Course.keeps {returning : Bool} {opened : Option Label} {before after : Context}
    (hconvert : KeepsAll convert)
    (hcourse : Course setting convert view loc returning opened before after) :
    before.Keeps after := by
  induction hcourse with
  | done => exact .refl _
  | andThen _ _ ihFirst ihSecond => exact ihFirst.trans ihSecond
  | note _ => exact .note _ _
  | report _ => exact .record _ _
  | convert _ hcalled => exact hconvert _ _ _ _ ⟨hcalled.1, nofun⟩
  | enumEntry hname _ => exact .addEnum hname.2
  | typeOpened hname _ _ _ ih => exact (Context.Keeps.addType hname.2).trans ih
  | typeEntry hname _ _ _ _ _ ihStart ih =>
      exact .completeType hname.2 (((Context.Keeps.addType hname.2).trans ihStart).trans ih)
  | unionOpened hname _ _ ih => exact (Context.Keeps.addUnion hname.2).trans ih
  | unionEntry hname _ _ _ _ ihStart ih =>
      exact .completeUnion hname.2 (((Context.Keeps.addUnion hname.2).trans ihStart).trans ih)

theorem Conversion.keeps {before after : Context} (hconvert : KeepsAll convert)
    (hconversion : Conversion setting convert view loc before after) : before.Keeps after := by
  induction hconversion with
  | done => exact .refl _
  | andThen _ _ ihFirst ihSecond => exact ihFirst.trans ihSecond
  | definition _ hcalled => exact (Context.Keeps.visit _ _).trans (hconvert _ _ _ _ hcalled)
  | within _ hcourse => exact .leave ((Context.Keeps.note _ _).trans (hcourse.keeps hconvert))

theorem convertWithin_keeps (setting : Setting) (depth : Nat) :
    KeepsAll (convertWithin setting depth) := by
  induction depth with
  | zero =>
      rintro _ _ _ _ ⟨rfl, -⟩
      exact .refl _
  | succ depth ih =>
      rintro _ _ _ _ ⟨rfl, -⟩
      exact (conversion_step _ _ _ _ _).keeps ih

/-- What a property does to the state is done by the conversion of its schema. -/
theorem property_leads (entry : Schema.Entry) (before : Context) :
    (convert entry.view (some entry.code)).Leads false before
      ((property setting convert entry).run.run before).2 := by
  apply Action.Ensures.ended
  rw [property, Action.ensures_bind]
  refine (Action.ensures_leads fun _ => trivial).imp (fun converted after hreturns => ?_)
    fun _ _ hfailed => hfailed.1
  have hleads := hreturns.leads false
  -- Neither the rules nor whether it is required have to do with the state.
  simp only [Action.ensures_bind, Action.ensures_lift, Action.ensures_pure]
  exact ⟨fun _ _ => ⟨fun _ _ => hleads, fun _ _ => hleads⟩, fun _ _ => hleads⟩

/-- Whatever the state is in which a schema or a property is converted, and whether the
conversion returns or fails: entries and violations are added after those that were there,
which stay as they are, the chain is the same, and violations that were all different
still are. -/
theorem convert_keeps (setting : Setting) (before : Context) :
    (∀ view loc, before.Keeps ((Analysis.convert setting view loc).run.run before).2) ∧
      ∀ entry, before.Keeps ((convertProperty setting entry).run.run before).2 :=
  ⟨fun view loc => convertWithin_keeps setting _ view loc _ _ ⟨rfl, nofun⟩,
    fun entry => convertWithin_keeps setting _ _ _ _ _ (property_leads entry before)⟩

end Schemata.Analysis
