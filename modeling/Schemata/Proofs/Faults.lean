import Schemata.Proofs.PartNames

/-!
# Why look-ups fail

What a conversion looks up in a document is there or is not, and mostly that is no failure. Two
things are refused: a single type that is no scalar, and a segment of a pointer that is taken
for the index of an item and cannot be read as one. Names, and what is required, are looked up
along the pointer of a schema, so that these fail only where the pointer itself cannot be
followed.
-/

namespace Schemata

/-- A result is a failure only if that is blamed on something. -/
def FailsOnly {α : Type} (blamed : Failure → Prop) (result : Except Failure α) : Prop :=
  ∀ failure, result = .error failure → blamed failure

namespace FailsOnly

variable {α β : Type} {blamed : Failure → Prop}

@[simp] theorem ok (value : α) : FailsOnly blamed (.ok value) :=
  nofun

@[simp] theorem pure (value : α) : FailsOnly blamed (Pure.pure value) :=
  nofun

theorem bind {result : Except Failure α} {next : α → Except Failure β}
    (hresult : FailsOnly blamed result)
    (hnext : ∀ value, result = .ok value → FailsOnly blamed (next value)) :
    FailsOnly blamed (result >>= next) := by
  intro failure hfailure
  rcases bind_eq_error.mp hfailure with h | ⟨value, hvalue, h⟩
  · exact hresult failure h
  · exact hnext value hvalue failure h

theorem map {result : Except Failure α} (change : α → β) (hresult : FailsOnly blamed result) :
    FailsOnly blamed (result.map change) := by
  cases result with
  | ok value => exact nofun
  | error found => exact fun failure h => hresult failure (by cases h; rfl)

theorem imp {blamedToo : Failure → Prop} {result : Except Failure α}
    (h : FailsOnly blamed result) (himp : ∀ failure, blamed failure → blamedToo failure) :
    FailsOnly blamedToo result :=
  fun failure hfailure => himp failure (h failure hfailure)

end FailsOnly

namespace Schema

open Json

namespace View

/-- A schema declares a single type that is no scalar, and a failure says where. -/
def Untypable (view : View) (failure : Failure) : Prop :=
  ∃ type, view.type? = some (.one type) ∧ type.scalar? = none ∧ failure = .notScalar type.pointer

theorem failsOnly_hasType (view : View) (name : Str) :
    FailsOnly view.Untypable (view.hasType name) := by
  unfold hasType
  split
  next type htype =>
    refine .map _ fun failure hfailure => ?_
    unfold View.scalar at hfailure
    split at hfailure
    · exact absurd hfailure nofun
    next hscalar => exact ⟨type, htype, hscalar, (Except.error.inj hfailure).symm⟩
  next => exact .ok _

theorem failsOnly_hasFamily (view : View) (family : Family) :
    FailsOnly view.Untypable (view.hasFamily family) := by
  cases family with
  | numbers =>
      exact .bind (failsOnly_hasType view _) fun _ _ =>
        .bind (failsOnly_hasType view _) fun _ _ => .pure _
  | strings | arrays | objects => exact failsOnly_hasType view _

theorem failsOnly_rules (view : View) (facets : List Facet) :
    FailsOnly view.Untypable (Facet.rules view facets) := by
  induction facets with
  | nil => exact .ok _
  | cons facet rest ih =>
      refine .bind ?_ fun _ _ => .bind ih fun _ _ => .pure _
      unfold Facet.rule?
      split
      · exact .ok _
      · exact .map _ (failsOnly_hasFamily view _)

theorem failsOnly_shapeOfType (view : View) : FailsOnly view.Untypable view.shapeOfType := by
  refine .bind (failsOnly_hasType view _) fun isObject _ => ?_
  cases isObject with
  | true => exact .pure _
  | false =>
      refine .bind (failsOnly_hasType view _) fun isArray _ => ?_
      cases isArray with
      | true => exact .pure _
      | false => exact .pure _

theorem failsOnly_isStringEnum (view : View) : FailsOnly view.Untypable view.isStringEnum := by
  unfold isStringEnum
  split
  · exact .ok _
  · exact failsOnly_hasType view _

/-- A schema without a keyword that composes it of other ones. -/
structure Plain (view : View) : Prop where
  reference : view.reference? = none
  allOf : view.allOf? = none
  anyOf : view.anyOf? = none
  oneOf : view.oneOf? = none

/-- The type counts only where no composition does. -/
theorem plain_of_shape {view : View}
    (h : ∀ shape, view.shape = .ok shape →
      shape ≠ .reference ∧ shape ≠ .intersection ∧ shape ≠ .anyOf ∧ shape ≠ .union) :
    view.Plain := by
  unfold shape at h
  split at h
  · exact absurd rfl (h _ rfl).1
  · split at h
    · exact absurd rfl (h _ rfl).2.1
    · split at h
      · exact absurd rfl (h _ rfl).2.2.1
      · split at h
        · exact absurd rfl (h _ rfl).2.2.2
        · constructor <;> simp_all

theorem failsOnly_shape (view : View) :
    FailsOnly (fun failure => view.Plain ∧ view.Untypable failure) view.shape := by
  intro failure hfailure
  refine ⟨plain_of_shape fun shape hshape => absurd (hfailure.symm.trans hshape) nofun, ?_⟩
  unfold shape at hfailure
  repeat' split at hfailure
  all_goals first
    | exact failsOnly_shapeOfType view failure hfailure
    | exact absurd hfailure nofun

theorem failsOnly_conversionShape (view : View) :
    FailsOnly (fun failure => view.Plain ∧ view.Untypable failure) view.conversionShape := by
  refine .bind (failsOnly_shape view) fun shape hshape => ?_
  cases shape with
  | enumeration =>
      have hplain : view.Plain := plain_of_shape fun other hother => by
        obtain rfl := Except.ok.inj (hshape.symm.trans hother)
        simp
      refine .bind ((failsOnly_isStringEnum view).imp fun _ h => ⟨hplain, h⟩) fun isString _ => ?_
      cases isString with
      | true => exact .pure _
      | false => exact (failsOnly_shapeOfType view).imp fun _ h => ⟨hplain, h⟩
  | _ => exact .pure _

end View

/-! ### Pointers -/

theorem resolve_eq_error_iff {document : Node} {pointer : Pointer} {path : List Str}
    (hsegments : pointer.segments = Pointer.root :: path) {failure : Failure} :
    resolve document pointer = .error failure ↔ follow document path = .error failure := by
  simp only [resolve, hsegments, if_true]
  cases follow document path with
  | ok found => exact ⟨nofun, nofun⟩
  | error found => exact ⟨fun h => by cases h; rfl, fun h => by cases h; rfl⟩

/-- A segment among those given is taken for an index and not read as one. -/
inductive Misread (segments : List Str) : Failure → Prop
  | intro {segment : Str} {fault : Text.NumeralFault} (hmem : segment ∈ segments)
      (hnumber : Text.isNumber segment = true)
      (hread : Text.readInteger segment.chars = .error fault) :
      Misread segments (.badIndex segment fault)

theorem Misread.mono {segments others : List Str} {failure : Failure}
    (h : Misread segments failure) (hsubset : segments ⊆ others) : Misread others failure := by
  cases h with
  | intro hmem hnumber hread => exact .intro (hsubset hmem) hnumber hread

theorem failsOnly_select (node : Node) (segment : Str) :
    FailsOnly (Misread [segment]) (select node segment) := by
  unfold select
  split
  · refine .map _ fun failure hfailure => ?_
    unfold selectItem at hfailure
    split at hfailure
    next hnumber =>
      split at hfailure
      · exact absurd hfailure nofun
      next fault hread =>
        obtain rfl := Except.error.inj hfailure
        exact .intro List.mem_cons_self hnumber hread
    · exact absurd hfailure nofun
  all_goals exact .ok _

theorem failsOnly_follow (node : Node) (path : List Str) :
    FailsOnly (Misread path) (follow node path) := by
  induction path generalizing node with
  | nil => exact .ok _
  | cons segment rest ih =>
      have hsegment : FailsOnly (Misread (segment :: rest)) (select node segment) :=
        (failsOnly_select node segment).imp fun _ h => h.mono (by simp)
      refine .bind hsegment fun selection _ => ?_
      cases selection with
      | some selected => exact (ih _).imp fun _ h => h.mono (List.subset_cons_self _ _)
      | none => exact .pure _

theorem failsOnly_resolve (document : Node) (pointer : Pointer) :
    FailsOnly (Misread pointer.segments) (resolve document pointer) := by
  unfold resolve
  split
  · exact .ok _
  next first path hsegments =>
    rw [hsegments]
    split
    · exact .map _ ((failsOnly_follow document path).imp fun _ h =>
        h.mono (List.subset_cons_self _ _))
    · exact .ok _

/-- The last key along a path is lost where the path is. -/
theorem follow_of_lastKey {node : Node} {last : Option Key} {path : List Str}
    {failure : Failure} (h : lastKey node last path = .error failure) :
    follow node path = .error failure := by
  induction path generalizing node last with
  | nil => exact absurd h nofun
  | cons segment rest ih =>
      refine bind_eq_error.mpr ?_
      rcases bind_eq_error.mp h with hselect | ⟨selection, hselect, hrest⟩
      · exact .inl hselect
      · refine .inr ⟨selection, hselect, ?_⟩
        match selection with
        | some (.item _) => exact ih hrest
        | some (.member _) => exact ih hrest
        | none => exact absurd hrest nofun

theorem follow_append_of_error {node : Node} {path : List Str} {failure : Failure}
    (h : follow node path = .error failure) (rest : List Str) :
    follow node (path ++ rest) = .error failure := by
  induction path generalizing node with
  | nil => exact absurd h nofun
  | cons segment others ih =>
      refine bind_eq_error.mpr ?_
      rcases bind_eq_error.mp h with hselect | ⟨selection, hselect, hrest⟩
      · exact .inl hselect
      · refine .inr ⟨selection, hselect, ?_⟩
        cases selection with
        | some selected => exact ih hrest
        | none => exact absurd hrest nofun

namespace Naming

variable (naming : Naming)

theorem failsOnly_ownerLabel {blamed : Failure → Prop} (path : List Str)
    {pathLabel : Except Failure (Option Label)}
    (hpath : FailsOnly blamed (follow naming.document path.reverse))
    (hlabel : FailsOnly blamed pathLabel) :
    FailsOnly blamed (naming.ownerLabel path pathLabel) := by
  refine .bind hpath fun owner _ => ?_
  cases owner with
  | none => exact .pure _
  | some node =>
      dsimp only
      split
      · exact .pure _
      · exact hlabel

/-- Whatever is looked up for a name lies on the way to the named schema. -/
theorem failsOnly_ofPath (path : List Str) :
    FailsOnly (fun failure => follow naming.document path.reverse = .error failure)
      (naming.ofPath path) := by
  have hkey : ∀ path owner last, FailsOnly
      (fun failure => follow naming.document path = .error failure) (do
        let key ← lastKey naming.document none path
        Pure.pure (some (partLabel owner key last)) : Except Failure (Option Label)) :=
    fun _ _ _ => .bind (fun _ => follow_of_lastKey) fun _ _ => .pure _
  fun_induction ofPath naming path with
  | case1 => exact .ok _
  | case2 => exact .bind (failsOnly_ownerLabel naming [] (.ok _) (.ok _)) fun _ _ => hkey _ _ _
  | case3 => exact .bind (.pure _) fun _ _ => hkey _ _ _
  | case4 => exact .bind (fun _ => follow_of_lastKey) fun _ _ => .pure _
  | case5 last keyword outer hkeyword _ _ ih =>
      have hprefix : ∀ failure, follow naming.document (keyword :: outer).reverse = .error failure →
          follow naming.document (last :: keyword :: outer).reverse = .error failure := by
        intro failure h
        rw [List.reverse_cons]
        exact follow_append_of_error h _
      exact .bind (failsOnly_ownerLabel naming _ hprefix (ih.imp hprefix)) fun _ _ => hkey _ _ _
  | case6 last keyword outer hkeyword _ _ ih =>
      have hprefix : ∀ failure, follow naming.document outer.reverse = .error failure →
          follow naming.document (last :: keyword :: outer).reverse = .error failure := by
        intro failure h
        rw [List.reverse_cons, List.reverse_cons, List.append_assoc]
        exact follow_append_of_error h _
      exact .bind (failsOnly_ownerLabel naming _ hprefix (ih.imp hprefix)) fun _ _ => hkey _ _ _

/-- A name is inferred if the pointer of the schema can be followed. -/
theorem failsOnly_infer {view : View} {path : List Str}
    (hsegments : view.pointer.segments = Pointer.root :: path) :
    FailsOnly (fun failure => resolve naming.document view.pointer = .error failure)
      (naming.infer view) := by
  unfold infer
  split
  · exact .ok _
  · simp only [ofPointer, hsegments, if_true]
    refine (failsOnly_ofPath naming _).imp fun failure h => ?_
    rw [List.reverse_reverse] at h
    exact (resolve_eq_error_iff hsegments).mpr h

end Naming

theorem segments_join (pointer : Pointer) (keys : List Str) :
    (pointer.join keys).segments = pointer.segments ++ keys := by
  induction keys generalizing pointer with
  | nil => simp [Pointer.join]
  | cons key rest ih =>
      rw [Pointer.join, List.foldl_cons, ← Pointer.join, ih, Pointer.segments_child,
        List.append_assoc, List.singleton_append]

/-- Whether a schema is required is known if its pointer can be followed. -/
theorem failsOnly_isRequired {document : Node} {pointer : Pointer} {path : List Str}
    (hsegments : pointer.segments = Pointer.root :: path) :
    FailsOnly (fun failure => resolve document pointer = .error failure)
      (isRequired document pointer) := by
  unfold isRequired
  split
  next key keyword owner outer hreverse =>
    split
    case isFalse => exact .ok _
    refine .bind (fun failure hfailure => ?_) fun _ _ => .pure _
    have hlength := congrArg List.length hreverse
    simp only [List.length_reverse, List.length_cons, hsegments] at hlength
    -- The owner is looked up along the pointer without its last two segments.
    have howner : pointer.segments.take (pointer.segments.length - 2) =
        Pointer.root :: path.take (path.length - 2) := by
      rw [hsegments, List.length_cons, List.take_cons (by omega)]
      congr 2
    have hresolve : resolve document (Pointer.join .root (path.take (path.length - 2))) =
        .error failure := by
      have hkept : (((pointer.segments.length : Int) - 2).toNat) = pointer.segments.length - 2 := by
        omega
      have hdeep : ¬ (pointer.segments.length : Int) ≤ 2 := by
        rw [hsegments, List.length_cons]
        omega
      simpa [ancestor, hdeep, hkept, howner, resolveSegments, Pointer.ofSegments?] using hfailure
    have hjoined : (Pointer.join .root (path.take (path.length - 2))).segments =
        Pointer.root :: path.take (path.length - 2) := by
      rw [segments_join, Pointer.segments_root]
      rfl
    have hfollow := (resolve_eq_error_iff hjoined).mp hresolve
    rw [resolve_eq_error_iff hsegments, ← List.take_append_drop (path.length - 2) path]
    exact follow_append_of_error hfollow _
  · exact .ok _

end Schema

end Schemata
