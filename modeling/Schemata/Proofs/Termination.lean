import Schemata.Proofs.Depth

/-!
# Termination

A conversion that is not too deep comes to the same at every greater depth. No document
takes a conversion deeper than the bound that is computed from it, so the bound has no
part in any outcome.
-/

namespace Schemata.Analysis

open Schema Source

/-- Unless it is too deep, an action does what another one does. -/
def Action.Agrees {α : Type} (action deeper : Action α) : Prop :=
  ∀ before, (action.run.run before).1 ≠ .error .tooDeep →
    deeper.run.run before = action.run.run before

namespace Action.Agrees

variable {α β : Type}

theorem refl (action : Action α) : action.Agrees action :=
  fun _ _ => rfl

theorem trans {action deeper deepest : Action α} (h : action.Agrees deeper)
    (h' : deeper.Agrees deepest) : action.Agrees deepest := by
  intro before hshallow
  have hrun := h before hshallow
  rw [h' before (by rwa [hrun]), hrun]

theorem bind {action deeper : Action β} {next deeperNext : β → Action α}
    (h : action.Agrees deeper) (hnext : ∀ value, (next value).Agrees (deeperNext value)) :
    (action >>= next).Agrees (deeper >>= deeperNext) := by
  intro before hshallow
  have hrun := h before
  simp only [ExceptT.run_bind, StateT.run_bind] at hshallow ⊢
  -- If the first part fails, so do both, and not for their depth.
  rcases hresult : action.run.run before with ⟨failure | value, after⟩
  · rw [hresult] at hrun hshallow
    rw [hrun fun heq => hshallow (congrArg Except.error (Except.error.inj heq))]
    rfl
  · rw [hresult] at hrun hshallow
    rw [hrun nofun]
    exact hnext value after hshallow

theorem within {action deeper : Action α} (pointer : Pointer) (h : action.Agrees deeper) :
    (within pointer action).Agrees (within pointer deeper) := by
  intro before hshallow
  rw [run_within] at hshallow
  rw [run_within, run_within, h (before.enter pointer) hshallow]

end Action.Agrees

variable (setting : Setting)

/-- Unless it is too deep, each conversion comes to the same. -/
def Converter.Agrees (convert deeper : Converter) : Prop :=
  ∀ view loc, (convert view loc).Agrees (deeper view loc)

section Steps

variable {convert deeper : Converter} (h : convert.Agrees deeper)

include h

theorem agrees_property (entry : Schema.Entry) :
    (property setting convert entry).Agrees (property setting deeper entry) :=
  .bind (h _ _) fun _ => .refl _

theorem agrees_propertyList (entries : List Schema.Entry) :
    (propertyList setting convert entries).Agrees (propertyList setting deeper entries) := by
  induction entries with
  | nil => exact .refl _
  | cons entry rest ih =>
      exact .bind (agrees_property setting h entry) fun _ => .bind ih fun _ => .refl _

theorem agrees_objectBody (view : View) :
    (objectBody setting convert view).Agrees (objectBody setting deeper view) :=
  .bind (agrees_propertyList setting h _) fun _ => .refl _

theorem agrees_mergedProperties (before : List Property) (parts : List View) :
    (mergedProperties setting convert before parts).Agrees
      (mergedProperties setting deeper before parts) := by
  induction parts generalizing before with
  | nil => exact .refl _
  | cons part rest ih => exact .bind (agrees_propertyList setting h _) fun _ => ih _

theorem agrees_intersectionBody (view : View) :
    (intersectionBody setting convert view).Agrees (intersectionBody setting deeper view) :=
  .bind (.refl _) fun _ => .bind (agrees_mergedProperties setting h _ _) fun _ => .refl _

theorem agrees_typeBody (view : View) (shape : Shape) :
    (typeBody setting convert view shape).Agrees (typeBody setting deeper view shape) := by
  cases shape with
  | intersection => exact agrees_intersectionBody setting h view
  | _ => exact agrees_objectBody setting h view

omit h in
theorem agrees_named {view : View} {declare deeperDeclare : Label → Action Unit}
    (hdeclare : ∀ name, (declare name).Agrees (deeperDeclare name)) :
    (Action.named setting view declare).Agrees (Action.named setting view deeperDeclare) := by
  refine .bind (.refl _) fun found => ?_
  cases found with
  | none => exact .refl _
  | some name =>
      refine .bind (.refl _) fun claimed => ?_
      cases claimed with
      | true => exact .bind (hdeclare name) fun _ => .refl _
      | false => exact .refl _

omit h in
theorem agrees_typeEntry {body deeperBody : Action TypeBody} (hbody : body.Agrees deeperBody)
    (origin : Origin) (view : View) (loc : Option LocationCode) :
    (typeEntry setting origin body view loc).Agrees
      (typeEntry setting origin deeperBody view loc) :=
  agrees_named setting fun _ =>
    .bind (.refl _) fun _ => .bind (.refl _) fun _ => .bind hbody fun _ => .refl _

theorem agrees_object (view : View) (loc : Option LocationCode) :
    (object setting convert view loc).Agrees (object setting deeper view loc) :=
  agrees_typeEntry setting (agrees_objectBody setting h view) _ _ _

theorem agrees_alternatives (members : List View) :
    (alternatives convert members).Agrees (alternatives deeper members) := by
  induction members with
  | nil => exact .refl _
  | cons member rest ih => exact .bind (h _ _) fun _ => .bind ih fun _ => .refl _

theorem agrees_union (view : View) (loc : Option LocationCode) :
    (union setting convert view loc).Agrees (union setting deeper view loc) :=
  agrees_named setting fun _ => .bind (.refl _) fun _ => .bind (.refl _) fun _ =>
    .bind (.bind (agrees_alternatives h _) fun _ => .refl _) fun _ => .refl _

theorem agrees_array (view : View) :
    (array setting convert view).Agrees (array setting deeper view) := by
  unfold array
  split
  · exact .refl _
  · exact .bind (h _ _) fun _ => .refl _
  · exact .refl _

theorem agrees_enumeration (view : View) (loc : Option LocationCode) :
    (enumeration setting convert view loc).Agrees (enumeration setting deeper view loc) := by
  have htype : ∀ shape, (byType setting convert view loc shape).Agrees
      (byType setting deeper view loc shape) := by
    intro shape
    cases shape with
    | object => exact agrees_object setting h view loc
    | array => exact agrees_array setting h view
    | _ => exact .refl _
  refine .bind (.refl _) fun isString => ?_
  cases isString with
  | true =>
      rw [if_pos rfl, if_pos rfl]
      exact .refl _
  | false =>
      dsimp only
      split
      · contradiction
      · split
        · exact .bind (.refl _) fun _ => .bind (.refl _) htype
        · exact .bind (.refl _) htype

theorem agrees_byShape (view : View) (loc : Option LocationCode) (shape : Shape) :
    (byShape setting convert view loc shape).Agrees
      (byShape setting deeper view loc shape) := by
  cases shape with
  | intersection =>
      exact agrees_typeEntry setting (agrees_intersectionBody setting h view) _ _ _
  | union => exact agrees_union setting h view loc
  | enumeration => exact agrees_enumeration setting h view loc
  | object => exact agrees_object setting h view loc
  | array => exact agrees_array setting h view
  | anyOf | typeList | reference | primitive => exact .refl _

theorem agrees_follow (view reference : View) (loc : Option LocationCode) :
    (follow setting convert view reference loc).Agrees
      (follow setting deeper view reference loc) := by
  rw [follow_eq, follow_eq]
  refine .bind (.refl _) fun found => ?_
  cases found with
  | none => exact .refl _
  | some target =>
      have hcall : (convertTarget convert view loc target).Agrees
          (convertTarget deeper view loc target) :=
        .bind (h _ _) fun _ => .refl _
      refine .bind (.refl _) fun state => ?_
      split
      · refine .bind (.refl _) fun shape => ?_
        cases shape.isNamed with
        | true => exact hcall
        | false => exact .refl _
      · exact hcall

theorem agrees_dispatch (view : View) (loc : Option LocationCode) :
    (dispatch setting convert view loc).Agrees (dispatch setting deeper view loc) := by
  refine .bind (.refl _) fun shape => .bind (.refl _) fun _ => ?_
  split
  · exact agrees_follow setting h _ _ _
  · exact .bind (agrees_byShape setting h _ _ _) fun _ => .refl _

theorem agrees_visitDefinitions (entries : List Schema.Entry) :
    (visitDefinitions setting convert entries).Agrees
      (visitDefinitions setting deeper entries) := by
  induction entries with
  | nil => exact .refl _
  | cons entry rest ih =>
      refine .bind (.refl _) fun state => ?_
      split
      · exact ih
      · exact .bind (.refl _) fun _ => .bind (h _ _) fun _ => ih

theorem agrees_step : (step setting convert).Agrees (step setting deeper) := fun view loc =>
  .bind (agrees_visitDefinitions setting h _) fun _ =>
    .within _ (agrees_dispatch setting h view loc)

end Steps

theorem agrees_convertWithin_succ (depth : Nat) :
    (convertWithin setting depth).Agrees (convertWithin setting (depth + 1)) := by
  induction depth with
  | zero => exact fun _ _ _ hshallow => absurd rfl hshallow
  | succ depth ih => exact agrees_step setting ih

theorem agrees_convertWithin_add (depth extra : Nat) :
    (convertWithin setting depth).Agrees (convertWithin setting (depth + extra)) := by
  induction extra with
  | zero => exact fun _ _ => .refl _
  | succ extra ih =>
      exact fun view loc => (ih view loc).trans (agrees_convertWithin_succ setting _ view loc)

/-- The conversion of a schema is not too deep, and comes to the same however much deeper
it might go. -/
theorem convertWithin_depth_add {view : View} (hview : Reachable setting.document view)
    (loc : Option LocationCode) (context : Context) (extra : Nat) :
    ((convert setting view loc).run.run context).1 ≠ .error .tooDeep ∧
      (convertWithin setting (setting.depth + extra) view loc).run.run context =
        (convert setting view loc).run.run context := by
  -- What is not too deep agrees with everything deeper.
  have hshallow := convertWithin_ne_tooDeep loc hview (needed_le_depth hview context)
  exact ⟨hshallow, agrees_convertWithin_add setting _ _ view loc context hshallow⟩

/-- The conversion of a document ends. A descent goes no deeper than the bound that is
computed from the size of the document, and every greater bound yields the same outcome. -/
theorem analyze_terminates (extra : Nat) :
    (analyze setting).1 ≠ .error .tooDeep ∧
      (convertWithin setting (setting.depth + extra) (View.root setting.document)
        (some (View.root setting.document).code)).run.run {} = analyze setting :=
  convertWithin_depth_add setting (.root _) _ _ extra

end Schemata.Analysis
