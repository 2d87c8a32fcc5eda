import Schemata.Analysis.Step

/-!
# Look-ups do not descend

Only the conversion of a schema by another one descends. Whatever else a conversion
does on the way never fails because the descent is too deep.
-/

namespace Schemata

/-- The result is not that a descent was too deep. -/
def Shallow {α : Type} (result : Except Failure α) : Prop :=
  result ≠ .error .tooDeep

namespace Shallow

variable {α β : Type}

@[simp] theorem ok (value : α) : Shallow (.ok value) :=
  nofun

@[simp] theorem pure (value : α) : Shallow (Pure.pure value) :=
  nofun

theorem bind {result : Except Failure α} {next : α → Except Failure β}
    (hresult : Shallow result) (hnext : ∀ value, Shallow (next value)) :
    Shallow (result >>= next) := by
  cases result with
  | ok value => exact hnext value
  | error failure => exact fun h => hresult (by cases h; rfl)

theorem map {result : Except Failure α} (change : α → β) (hresult : Shallow result) :
    Shallow (result.map change) := by
  cases result with
  | ok value => exact nofun
  | error failure => exact fun h => hresult (by cases h; rfl)

end Shallow

namespace Schema

namespace View

theorem shallow_scalar (view : View) : Shallow view.scalar := by
  unfold View.scalar
  split <;> exact nofun

theorem shallow_hasType (view : View) (name : Str) : Shallow (view.hasType name) := by
  unfold hasType
  split
  · exact .map _ (shallow_scalar _)
  · exact nofun

theorem shallow_hasNumericType (view : View) : Shallow view.hasNumericType :=
  .bind (shallow_hasType view _) fun _ => .bind (shallow_hasType view _) fun _ => .pure _

theorem shallow_hasFamily (view : View) (family : Family) : Shallow (view.hasFamily family) := by
  cases family with
  | numbers => exact shallow_hasNumericType view
  | strings | arrays | objects => exact shallow_hasType view _

theorem shallow_shapeOfType (view : View) : Shallow view.shapeOfType := by
  refine .bind (shallow_hasType view _) fun isObject => ?_
  cases isObject with
  | true => exact .pure _
  | false =>
      refine .bind (shallow_hasType view _) fun isArray => ?_
      cases isArray with
      | true => exact .pure _
      | false => exact .pure _

theorem shallow_shape (view : View) : Shallow view.shape := by
  unfold shape
  repeat' split
  all_goals first | exact shallow_shapeOfType view | exact .ok _

theorem shallow_isStringEnum (view : View) : Shallow view.isStringEnum := by
  unfold isStringEnum
  split
  · exact nofun
  · exact shallow_hasType view _

theorem shallow_conversionShape (view : View) : Shallow view.conversionShape := by
  refine .bind (shallow_shape view) fun shape => ?_
  cases shape with
  | enumeration =>
      refine .bind (shallow_isStringEnum view) fun isString => ?_
      cases isString with
      | true => exact .pure _
      | false => exact shallow_shapeOfType view
  | _ => exact .pure _

end View

theorem shallow_selectItem (items : List Json.Node) (segment : Str) :
    Shallow (selectItem items segment) := by
  unfold selectItem
  repeat' split
  all_goals exact nofun

theorem shallow_select (node : Json.Node) (segment : Str) :
    Shallow (select node segment) := by
  unfold select
  split
  · exact .map _ (shallow_selectItem _ _)
  all_goals exact nofun

theorem shallow_follow (node : Json.Node) (path : List Str) : Shallow (follow node path) := by
  induction path generalizing node with
  | nil => exact nofun
  | cons segment rest ih =>
      refine .bind (shallow_select node segment) fun selection => ?_
      cases selection with
      | some selected => exact ih _
      | none => exact nofun

theorem shallow_lastKey (node : Json.Node) (last : Option Json.Key) (path : List Str) :
    Shallow (lastKey node last path) := by
  induction path generalizing node last with
  | nil => exact nofun
  | cons segment rest ih =>
      refine .bind (shallow_select node segment) fun selection => ?_
      match selection with
      | some (.item _) => exact ih _ _
      | some (.member _) => exact ih _ _
      | none => exact nofun

theorem shallow_resolve (document : Json.Node) (pointer : Pointer) :
    Shallow (resolve document pointer) := by
  unfold resolve
  repeat' split
  · exact nofun
  · exact .map _ (shallow_follow _ _)
  · exact nofun

theorem shallow_resolveSegments (document : Json.Node) (segments : List Str) :
    Shallow (resolveSegments document segments) := by
  unfold resolveSegments
  split
  · exact shallow_resolve _ _
  · exact nofun

theorem shallow_isRequired (document : Json.Node) (pointer : Pointer) :
    Shallow (isRequired document pointer) := by
  unfold isRequired
  split
  · split
    · refine .bind ?_ fun _ => .pure _
      simp only [ancestor]
      split
      · exact nofun
      · exact shallow_resolveSegments _ _
    · exact nofun
  · exact nofun

theorem shallow_rules (view : View) (facets : List Facet) : Shallow (Facet.rules view facets) := by
  induction facets with
  | nil => exact nofun
  | cons facet rest ih =>
      refine .bind ?_ fun _ => .bind ih fun _ => .pure _
      unfold Facet.rule?
      split
      · exact nofun
      · exact .map _ (View.shallow_hasFamily view _)

namespace Naming

variable (naming : Naming)

theorem shallow_ownerLabel (path : List Str) {pathLabel : Except Failure (Option Label)}
    (hpath : Shallow pathLabel) : Shallow (naming.ownerLabel path pathLabel) := by
  refine .bind (shallow_follow _ _) fun owner => ?_
  cases owner with
  | none => exact nofun
  | some node =>
      dsimp only
      split
      · exact nofun
      · exact hpath

theorem shallow_ofPath (path : List Str) : Shallow (naming.ofPath path) := by
  have hkey : ∀ path owner last, Shallow (do
      let key ← lastKey naming.document none path
      Pure.pure (some (partLabel owner key last)) : Except Failure (Option Label)) :=
    fun _ _ _ => .bind (shallow_lastKey _ _ _) fun _ => .pure _
  fun_induction ofPath naming path with
  | case1 => exact nofun
  | case2 => exact .bind (shallow_ownerLabel naming _ nofun) fun _ => hkey _ _ _
  | case3 => exact .bind (.pure _) fun _ => hkey _ _ _
  | case4 => exact .bind (shallow_lastKey _ _ _) fun _ => .pure _
  | case5 last keyword outer hkeyword _ _ ih =>
      exact .bind (shallow_ownerLabel naming _ ih) fun _ => hkey _ _ _
  | case6 last keyword outer hkeyword _ _ ih =>
      exact .bind (shallow_ownerLabel naming _ ih) fun _ => hkey _ _ _

theorem shallow_ofSegments (segments : List Str) : Shallow (naming.ofSegments segments) := by
  refine .bind (shallow_resolveSegments _ _) fun owner => ?_
  cases owner with
  | none => exact nofun
  | some view =>
      dsimp only
      split
      · exact nofun
      · exact shallow_ofPath naming _

theorem shallow_ofForeignPath (first : Str) (path : List Str) :
    Shallow (naming.ofForeignPath first path) := by
  unfold ofForeignPath
  split
  · exact nofun
  · split
    · exact .bind (shallow_ofSegments naming _) fun _ => .pure _
    · exact .bind (.pure _) fun _ => .pure _
  · split
    · exact .pure _
    · exact .bind (shallow_ofSegments naming _) fun _ => .pure _

theorem shallow_infer (view : View) : Shallow (naming.infer view) := by
  unfold infer ofPointer
  repeat' split
  · exact nofun
  · exact nofun
  · exact shallow_ofPath naming _
  · exact shallow_ofForeignPath naming _ _

end Naming

end Schema

namespace Analysis

theorem shallow_isObject (target : Option Schema.View) : Shallow (isObject target) := by
  cases target with
  | none => exact nofun
  | some part => exact part.shallow_hasType _

end Analysis

end Schemata
