import Schemata.Proofs.Action
import Schemata.Proofs.RelocatedSchemas

/-!
# Runs in another layout

The state of a conversion is relocated by moving the ranges of its entries, violations and
log. Violations that were different stay different, so that what was recorded before is
still told from what was not. An action mirrors another one if it does, from every relocated
state, what the other one does, up to relocation.
-/

namespace Schemata.Analysis

open Schema Source

/-! ### States -/

namespace Registry

variable {α β : Type}

/-- The registry of the changed values. -/
def map (f : α → β) (registry : Registry α) : Registry β :=
  ⟨registry.entries.map fun entry => (entry.1, f entry.2), by
    simpa [Function.comp_def] using registry.nodup⟩

theorem ext_entries {registry other : Registry α} (h : registry.entries = other.entries) :
    registry = other := by
  cases registry
  cases other
  cases h
  rfl

@[simp] theorem names_map (f : α → β) (registry : Registry α) :
    (registry.map f).names = registry.names := by
  simp [map, names, Function.comp_def]

@[simp] theorem values_map (f : α → β) (registry : Registry α) :
    (registry.map f).values = registry.values.map f := by
  simp [map, values, Function.comp_def]

@[simp] theorem get?_map (f : α → β) (registry : Registry α) (name : Str) :
    (registry.map f).get? name = (registry.get? name).map f := by
  simp [map, get?, List.find?_map, Function.comp_def]

theorem modify_map {f : α → β} {change : α → α} {otherChange : β → β}
    (h : ∀ value, otherChange (f value) = f (change value)) (registry : Registry α)
    (name : Str) :
    (registry.map f).modify name otherChange = (registry.modify name change).map f := by
  apply ext_entries
  simp only [modify, map, changed, List.map_map]
  apply List.map_congr_left
  intro entry _
  simp only [Function.comp_apply]
  split
  · rw [h]
  · rfl

theorem insert_map (f : α → β) (registry : Registry α) (name : Str) (value : α) :
    (registry.map f).insert name (f value) = (registry.insert name value).map f := by
  by_cases htaken : name ∈ registry.names
  · have htaken' : name ∈ (registry.map f).names := by rwa [names_map]
    rw [insert, dif_pos htaken', insert, dif_pos htaken]
    apply modify_map
    intro _
    rfl
  · have hnew : name ∉ (registry.map f).names := by rwa [names_map]
    apply ext_entries
    rw [entries_insert _ hnew]
    simp [map, entries_insert _ htaken]

end Registry

section Parts

variable (change : LocationCode → LocationCode)

def Event.relocate : Event → Event
  | recorded violation => .recorded (violation.relocate change)
  | event => event

def Entry.relocate : Entry → Entry
  | type found => .type (found.relocate change)
  | enumeration found => .enumeration (found.relocate change)
  | union found => .union (found.relocate change)

def Converted.relocate (converted : Converted) : Converted :=
  ⟨converted.type.relocate change, converted.inherited.map (Label.relocate change)⟩

def Alternative.relocate (move : Relocation) (alternative : Alternative) : Alternative :=
  ⟨alternative.view.relocate move, alternative.type.relocate move.code⟩

def UnionBody.relocate (body : UnionBody) : UnionBody :=
  ⟨body.kind, body.members.map (ValueType.relocate change),
    body.discriminator.map (Label.relocate change)⟩

end Parts

def Context.relocate (move : Relocation) (context : Context) : Context where
  typeRegistry := context.typeRegistry.map (ObjectType.relocate move.code)
  enumRegistry := context.enumRegistry.map (EnumType.relocate move.code)
  unionRegistry := context.unionRegistry.map (UnionType.relocate move.code)
  violations := context.violations.map (Violation.relocate move.code)
  chain := context.chain
  visited := context.visited
  log := context.log.map (Event.relocate move.code)

def Setting.relocate (move : Relocation) (setting : Setting) : Setting :=
  { setting with document := setting.document.relocate move }

variable {move : Relocation}

@[simp] theorem Setting.options_relocate (setting : Setting) :
    (setting.relocate move).options = setting.options :=
  rfl

@[simp] theorem Setting.document_relocate (setting : Setting) :
    (setting.relocate move).document = setting.document.relocate move :=
  rfl

@[simp] theorem Entry.source_relocate (entry : Entry) :
    (entry.relocate move.code).source = entry.source := by
  cases entry with
  | type | enumeration | union => rfl

/-- Violations that differ do so in every layout. -/
theorem violation_relocate_injective : Function.Injective (Violation.relocate move.code) := by
  intro violation other heq
  obtain ⟨code, message, severity, range, path⟩ := violation
  obtain ⟨otherCode, otherMessage, otherSeverity, otherRange, otherPath⟩ := other
  simp only [Violation.relocate, Violation.mk.injEq] at heq ⊢
  exact ⟨heq.1, heq.2.1, heq.2.2.1, Option.map_injective move.injective heq.2.2.2.1,
    heq.2.2.2.2⟩

namespace Context

@[simp] theorem chain_relocate (context : Context) :
    (context.relocate move).chain = context.chain :=
  rfl

@[simp] theorem visited_relocate (context : Context) :
    (context.relocate move).visited = context.visited :=
  rfl

theorem enter_relocate (context : Context) (pointer : Pointer) :
    (context.relocate move).enter pointer = (context.enter pointer).relocate move :=
  rfl

theorem lookup_relocate (context : Context) (name : Str) :
    (context.relocate move).lookup name = (context.lookup name).map (Entry.relocate move.code) := by
  simp only [lookup, relocate, Registry.get?_map]
  cases context.typeRegistry.get? name with
  | some found => rfl
  | none => cases context.enumRegistry.get? name with
    | some found => rfl
    | none => cases context.unionRegistry.get? name with
      | some found | none => rfl

theorem record_relocate (context : Context) (violation : Violation) :
    (context.relocate move).record (violation.relocate move.code) =
      (context.record violation).relocate move := by
  -- An equal violation is recorded in one layout exactly if it is in the other.
  have hmem : violation.relocate move.code ∈ (context.relocate move).violations ↔
      violation ∈ context.violations :=
    List.mem_map_of_injective violation_relocate_injective
  unfold record
  by_cases hold : violation ∈ context.violations
  · rw [if_pos hold, if_pos (hmem.mpr hold)]
  · rw [if_neg hold, if_neg fun hmoved => hold (hmem.mp hmoved)]
    simp [relocate, note, Event.relocate]

theorem addType_relocate (context : Context) (type : ObjectType) :
    (context.relocate move).addType (type.relocate move.code) =
      (context.addType type).relocate move := by
  unfold addType
  rw [relocate, relocate, ← Registry.insert_map]
  rfl

theorem addEnum_relocate (context : Context) (type : EnumType) :
    (context.relocate move).addEnum (type.relocate move.code) =
      (context.addEnum type).relocate move := by
  unfold addEnum
  rw [relocate, relocate, ← Registry.insert_map]
  rfl

theorem addUnion_relocate (context : Context) (type : UnionType) :
    (context.relocate move).addUnion (type.relocate move.code) =
      (context.addUnion type).relocate move := by
  unfold addUnion
  rw [relocate, relocate, ← Registry.insert_map]
  rfl

theorem completeType_relocate (context : Context) (name : Str) (properties : List Property)
    (rules : List Rule) :
    (context.relocate move).completeType name (properties.map (Property.relocate move.code))
      (rules.map (Rule.relocate move.code)) =
        (context.completeType name properties rules).relocate move := by
  simp only [completeType, relocate, mk.injEq, and_true]
  apply Registry.modify_map
  intro _
  rfl

theorem completeUnion_relocate (context : Context) (name : Str) (body : UnionBody) :
    (context.relocate move).completeUnion name (body.relocate move.code).kind
      (body.relocate move.code).members (body.relocate move.code).discriminator =
        (context.completeUnion name body.kind body.members body.discriminator).relocate move := by
  simp only [completeUnion, relocate, mk.injEq, and_true, true_and]
  apply Registry.modify_map
  intro _
  rfl

end Context

/-! ### Actions -/

namespace Action

variable {α β γ δ : Type}

/-- From every relocated state, the second action does what the first one does, up to
relocation. -/
def Mirrors (move : Relocation) (change : α → β) (action : Action α) (other : Action β) : Prop :=
  ∀ before, other.run.run (before.relocate move) =
    ((action.run.run before).1.map change, (action.run.run before).2.relocate move)

namespace Mirrors

variable {change : α → β} {lastChange : γ → δ}

theorem pure {value : α} {other : β} (h : other = change value) :
    Mirrors move change (Pure.pure value) (Pure.pure other) := by
  subst h
  exact fun _ => rfl

theorem bind {action : Action α} {other : Action β} {next : α → Action γ}
    {otherNext : β → Action δ} (h : Mirrors move change action other)
    (hnext : ∀ value, Mirrors move lastChange (next value) (otherNext (change value))) :
    Mirrors move lastChange (action >>= next) (other >>= otherNext) := by
  intro before
  have hrun := h before
  simp only [ExceptT.run_bind, StateT.run_bind] at hrun ⊢
  rw [hrun]
  rcases action.run.run before with ⟨failure | value, after⟩
  · rfl
  · exact hnext value after

theorem lift {result : Except Failure α} {other : Except Failure β}
    (h : other = result.map change) :
    Mirrors move change (liftM result : Action α) (liftM other : Action β) := by
  subst h
  cases result with
  | error | ok => exact fun _ => rfl

/-- What is read the same is the same. -/
theorem read {result other : Except Failure α} (h : other = result) :
    Mirrors move id (liftM result : Action α) (liftM other : Action α) := by
  subst h
  cases other with
  | error | ok => exact fun _ => rfl

theorem throw (failure : Failure) :
    Mirrors move change (MonadExcept.throw failure) (MonadExcept.throw failure) :=
  fun _ => rfl

theorem get : Mirrors move (Context.relocate move) (MonadState.get : Action Context)
    (MonadState.get : Action Context) :=
  fun _ => rfl

theorem modify {f g : Context → Context}
    (h : ∀ before, g (before.relocate move) = (f before).relocate move) :
    Mirrors move id (modify f : Action Unit) (modify g : Action Unit) := by
  intro before
  exact Prod.ext rfl (h before)

theorem note {event other : Event} (h : other = event.relocate move.code) :
    Mirrors move id (note event) (note other) := by
  subst h
  exact modify fun _ => rfl

theorem report {setting : Setting} {problem : Problem} {range other : Option LocationCode}
    (h : other = range.map move.code) :
    Mirrors move id (report setting problem range)
      (report (setting.relocate move) problem other) := by
  subst h
  exact modify fun before => before.record_relocate (problem.violation range setting.sourcePath)

theorem within {action : Action α} {other : Action β} (pointer : Pointer)
    (h : Mirrors move change action other) :
    Mirrors move change (within pointer action) (within pointer other) := by
  intro before
  rw [run_within, run_within, Context.enter_relocate, h (before.enter pointer)]
  rfl

theorem claim (setting : Setting) (name : Label) (view : View) :
    Mirrors move id (claim setting name view)
      (claim (setting.relocate move) (name.relocate move.code) (view.relocate move)) := by
  apply bind get
  intro before
  rw [Context.lookup_relocate, Label.value_relocate]
  cases before.lookup name.value with
  | none => exact pure rfl
  | some owner =>
      dsimp only [Option.map_some]
      rw [Entry.source_relocate, View.pointer_relocate, Setting.options_relocate]
      have hrange : ((name.relocate move.code).loc.or
          (((view.relocate move).memberCode? "title").or (view.relocate move).code)) =
            (name.loc.or ((view.memberCode? "title").or view.code)).map move.code := by
        simp [Label.relocate]
      split
      · exact bind (report hrange) fun _ => pure rfl
      · exact pure rfl

theorem named {setting : Setting} {view : View} {declare otherDeclare : Label → Action Unit}
    (h : ∀ name, Mirrors move id (declare name) (otherDeclare (name.relocate move.code))) :
    Mirrors move (ValueType.relocate move.code) (named setting view declare)
      (named (setting.relocate move) (view.relocate move) otherDeclare) := by
  apply bind (lift (Naming.infer_relocate setting.naming view))
  intro found
  cases found with
  | none => exact pure rfl
  | some name =>
      apply bind (claim setting name view)
      intro claimed
      cases claimed with
      | true => exact bind (h name) fun _ => pure rfl
      | false => exact pure rfl

end Mirrors

end Action

end Schemata.Analysis
