import Mathlib.Algebra.Order.BigOperators.Group.List
import Mathlib.Algebra.Order.Ring.Nat
import Mathlib.Logic.Relation
import Schemata.Proofs.Steps

/-!
# Places in a document

A view holds the views of the members and items of its value. All views below a view
are listed, as many as its value has parts. Looking up a pointer never leaves the
values of the document.
-/

namespace Schemata.Schema

open Json

/-- A view holds the view of a member or of an item. -/
inductive Holds : View → View → Prop
  | member {view : View} {found : Member Node} (hfound : found ∈ view.node.members) :
      Holds view ⟨found.value, view.pointer.child found.key.name⟩
  | item {view : View} {node : Node} {index : Nat}
      (hitem : view.node.items[index]? = some node) :
      Holds view ⟨node, view.pointer.item index⟩

/-- A view lies at or below another one. -/
abbrev Below : View → View → Prop :=
  Relation.ReflTransGen Holds

mutual

/-- The view of a value and those below it. -/
def viewsBelow : Node → Pointer → List View
  | .object range members, pointer =>
      ⟨.object range members, pointer⟩ :: memberViews pointer members
  | .array range items, pointer => ⟨.array range items, pointer⟩ :: itemViews pointer 0 items
  | .scalar range value raw, pointer => [⟨.scalar range value raw, pointer⟩]

def memberViews (pointer : Pointer) : List (Member Node) → List View
  | [] => []
  | ⟨key, value⟩ :: rest =>
      viewsBelow value (pointer.child key.name) ++ memberViews pointer rest

/-- The views at and below items, the first of which has the given index. -/
def itemViews (pointer : Pointer) (index : Nat) : List Node → List View
  | [] => []
  | item :: rest => viewsBelow item (pointer.item index) ++ itemViews pointer (index + 1) rest

end

mutual

theorem length_viewsBelow (node : Node) (pointer : Pointer) :
    (viewsBelow node pointer).length = node.size := by
  match node with
  | .object _ members => simp [viewsBelow, Node.size, length_memberViews pointer members]
  | .array _ items => simp [viewsBelow, Node.size, length_itemViews pointer 0 items]
  | .scalar _ _ _ => rfl

theorem length_memberViews (pointer : Pointer) (members : List (Member Node)) :
    (memberViews pointer members).length = membersSize members := by
  match members with
  | [] => rfl
  | ⟨key, value⟩ :: rest =>
      simp [memberViews, membersSize, length_viewsBelow value, length_memberViews pointer rest]

theorem length_itemViews (pointer : Pointer) (index : Nat) (items : List Node) :
    (itemViews pointer index items).length = itemsSize items := by
  match items with
  | [] => rfl
  | item :: rest =>
      simp [itemViews, itemsSize, length_viewsBelow item, length_itemViews pointer _ rest]

end

theorem self_mem_viewsBelow (view : View) : view ∈ viewsBelow view.node view.pointer := by
  obtain ⟨node, pointer⟩ := view
  cases node with
  | object | array => exact List.mem_cons_self
  | scalar => exact List.mem_singleton_self _

theorem viewsBelow_subset_memberViews {pointer : Pointer} {members : List (Member Node)}
    {found : Member Node} (hfound : found ∈ members) :
    viewsBelow found.value (pointer.child found.key.name) ⊆ memberViews pointer members := by
  induction members with
  | nil => exact absurd hfound List.not_mem_nil
  | cons first rest ih =>
      rcases List.mem_cons.mp hfound with rfl | hrest
      · exact List.subset_append_left _ _
      · exact List.Subset.trans (ih hrest) (List.subset_append_right _ _)

theorem viewsBelow_subset_itemViews (pointer : Pointer) (first : Nat) {items : List Node}
    {node : Node} {index : Nat} (hitem : items[index]? = some node) :
    viewsBelow node (pointer.item (first + index)) ⊆ itemViews pointer first items := by
  induction items generalizing first index with
  | nil => simp at hitem
  | cons item rest ih =>
      cases index with
      | zero =>
          obtain rfl : item = node := by simpa using hitem
          exact List.subset_append_left _ _
      | succ index =>
          have hrest : rest[index]? = some node := by simpa using hitem
          rw [Nat.add_succ, ← Nat.succ_add]
          exact List.Subset.trans (ih _ hrest) (List.subset_append_right _ _)

theorem Holds.viewsBelow_subset {view part : View} (h : Holds view part) :
    viewsBelow part.node part.pointer ⊆ viewsBelow view.node view.pointer := by
  obtain ⟨node, pointer⟩ := view
  cases h with
  | member hfound =>
      cases node with
      | object range members =>
          exact List.Subset.trans (viewsBelow_subset_memberViews hfound) (List.subset_cons_self _ _)
      | array | scalar => exact absurd hfound List.not_mem_nil
  | item hitem =>
      cases node with
      | array range items =>
          have hsubset := viewsBelow_subset_itemViews pointer 0 hitem
          rw [Nat.zero_add] at hsubset
          exact List.Subset.trans hsubset (List.subset_cons_self _ _)
      | object | scalar => simp [Node.items] at hitem

theorem Below.viewsBelow_subset {base view : View} (h : Below base view) :
    viewsBelow view.node view.pointer ⊆ viewsBelow base.node base.pointer := by
  induction h with
  | refl => exact List.Subset.refl _
  | tail _ hpart ih => exact List.Subset.trans hpart.viewsBelow_subset ih

/-- Every view below another one is listed. -/
theorem Below.mem_viewsBelow {base view : View} (h : Below base view) :
    view ∈ viewsBelow base.node base.pointer :=
  h.viewsBelow_subset (self_mem_viewsBelow view)

theorem size_pos (node : Node) : 0 < node.size := by
  cases node with
  | object | array => exact Nat.succ_pos _
  | scalar => exact Nat.one_pos

theorem size_le_membersSize {members : List (Member Node)} {found : Member Node}
    (hfound : found ∈ members) : found.value.size ≤ membersSize members := by
  induction members with
  | nil => exact absurd hfound List.not_mem_nil
  | cons first rest ih =>
      rw [membersSize]
      rcases List.mem_cons.mp hfound with rfl | hrest
      · exact Nat.le_add_right _ _
      · exact Nat.le_trans (ih hrest) (Nat.le_add_left _ _)

theorem size_le_itemsSize {items : List Node} {node : Node} (hitem : node ∈ items) :
    node.size ≤ itemsSize items := by
  induction items with
  | nil => exact absurd hitem List.not_mem_nil
  | cons item rest ih =>
      rw [itemsSize]
      rcases List.mem_cons.mp hitem with rfl | hrest
      · exact Nat.le_add_right _ _
      · exact Nat.le_trans (ih hrest) (Nat.le_add_left _ _)

theorem Holds.size_lt {view part : View} (h : Holds view part) :
    part.node.size < view.node.size := by
  obtain ⟨node, pointer⟩ := view
  cases h with
  | member hfound =>
      cases node with
      | object range members => exact Nat.lt_succ_of_le (size_le_membersSize hfound)
      | array | scalar => exact absurd hfound List.not_mem_nil
  | item hitem =>
      cases node with
      | array range items =>
          exact Nat.lt_succ_of_le (size_le_itemsSize (List.mem_of_getElem? hitem))
      | object | scalar => simp [Node.items] at hitem

theorem Below.size_le {base view : View} (h : Below base view) :
    view.node.size ≤ base.node.size := by
  induction h with
  | refl => exact Nat.le_refl _
  | tail _ hpart ih => exact Nat.le_trans (Nat.le_of_lt hpart.size_lt) ih

theorem exists_of_mem_memberViews {pointer : Pointer} {members : List (Member Node)} {view : View}
    (h : view ∈ memberViews pointer members) :
    ∃ found ∈ members, view ∈ viewsBelow found.value (pointer.child found.key.name) := by
  induction members with
  | nil => exact absurd h List.not_mem_nil
  | cons first rest ih =>
      rcases List.mem_append.mp h with hfirst | hrest
      · exact ⟨first, List.mem_cons_self, hfirst⟩
      · obtain ⟨found, hfound, hview⟩ := ih hrest
        exact ⟨found, List.mem_cons_of_mem _ hfound, hview⟩

theorem exists_of_mem_itemViews {pointer : Pointer} {first : Nat} {items : List Node} {view : View}
    (h : view ∈ itemViews pointer first items) : ∃ index node, items[index]? = some node ∧
      view ∈ viewsBelow node (pointer.item (first + index)) := by
  induction items generalizing first with
  | nil => exact absurd h List.not_mem_nil
  | cons item rest ih =>
      rcases List.mem_append.mp h with hitem | hrest
      · exact ⟨0, item, rfl, hitem⟩
      · obtain ⟨index, node, hnode, hview⟩ := ih hrest
        exact ⟨index + 1, node, hnode, by rwa [Nat.add_succ, ← Nat.succ_add]⟩

/-- A view that is listed is that of the value itself or is listed for a part of it. -/
theorem exists_of_mem_viewsBelow {base view : View} (h : view ∈ viewsBelow base.node base.pointer) :
    view = base ∨ ∃ part, Holds base part ∧ view ∈ viewsBelow part.node part.pointer := by
  obtain ⟨node, pointer⟩ := base
  cases node with
  | object range members =>
      refine (List.mem_cons.mp h).imp id fun hmembers => ?_
      obtain ⟨found, hfound, hview⟩ := exists_of_mem_memberViews hmembers
      exact ⟨_, .member hfound, hview⟩
  | array range items =>
      refine (List.mem_cons.mp h).imp id fun hitems => ?_
      obtain ⟨index, node, hnode, hview⟩ := exists_of_mem_itemViews hitems
      exact ⟨_, .item hnode, by rwa [Nat.zero_add] at hview⟩
  | scalar => exact .inl (List.mem_singleton.mp h)

theorem below_of_mem_viewsBelow {base view : View} (h : view ∈ viewsBelow base.node base.pointer) :
    Below base view := by
  rcases exists_of_mem_viewsBelow h with rfl | ⟨part, hpart, hview⟩
  · exact .refl
  · exact .head hpart (below_of_mem_viewsBelow hview)
termination_by base.node.size
decreasing_by exact hpart.size_lt

/-! ### Keywords -/

theorem items_of_array? {node : Node} {items : List Node} (h : node.array? = some items) :
    node.items = items := by
  cases node with
  | array => exact Option.some.inj h
  | object | scalar => exact absurd h nofun

namespace View

variable {view part : View} {key : Str}

theorem holds_of_child? (h : view.child? key = some part) : Holds view part := by
  obtain ⟨found, hfound, rfl⟩ := Option.map_eq_some_iff.mp h
  have hkey : found.key.name = key := by simpa using List.find?_some hfound
  rw [← hkey]
  exact .member (List.mem_of_find?_eq_some hfound)

theorem holds_of_mem_entries {entry : Entry} (h : entry ∈ view.entries) :
    Holds view entry.view := by
  obtain ⟨found, hfound, rfl⟩ := List.mem_map.mp h
  exact .member hfound

/-- The items under a key are held by the array under that key. -/
theorem holds_of_mem_children? {parts : List View} (h : view.children? key = some parts)
    (hpart : part ∈ parts) : ∃ list, Holds view list ∧ Holds list part := by
  simp only [children?, Option.bind_eq_bind, Option.bind_eq_some_iff] at h
  obtain ⟨found, hfound, items, hitems, heq⟩ := h
  have hlist : view.child? key = some ⟨found.value, view.pointer.child key⟩ := by
    rw [child?, hfound]
    rfl
  obtain rfl := Option.some.inj heq
  obtain ⟨index, hindex, rfl⟩ := List.mem_mapIdx.mp hpart
  refine ⟨_, holds_of_child? hlist, .item ?_⟩
  rw [items_of_array? hitems]
  exact List.getElem?_eq_getElem hindex

theorem below_of_mem_children? {parts : List View} (h : view.children? key = some parts)
    (hpart : part ∈ parts) : Below view part := by
  obtain ⟨list, hlist, hitem⟩ := holds_of_mem_children? h hpart
  exact .tail (.single hlist) hitem

theorem child?_of_items? {item : View} (h : view.items? = some (.one item)) :
    view.child? "items" = some item := by
  unfold items? oneOrMany? at h
  split at h
  · simp at h
  · simpa using h

/-- The parts listed under a key, of which there are none if the list is missing. -/
theorem below_of_mem_getD_children? (hpart : part ∈ (view.children? key).getD []) :
    Below view part := by
  cases h : view.children? key with
  | none => exact absurd (h ▸ hpart) List.not_mem_nil
  | some parts => exact below_of_mem_children? h (by simpa [h] using hpart)

end View

/-! ### Lookups -/

/-- A value occurs somewhere in a document. -/
def Occurs (document node : Node) : Prop :=
  ∃ pointer, Below (View.root document) ⟨node, pointer⟩

/-- What a value holds does not depend on the pointer that leads to it. -/
theorem Holds.from_pointer {view part : View} (h : Holds view part) (pointer : Pointer) :
    ∃ partPointer, Holds ⟨view.node, pointer⟩ ⟨part.node, partPointer⟩ := by
  cases h with
  | member hfound => exact ⟨_, .member hfound⟩
  | item hitem => exact ⟨_, .item hitem⟩

namespace Occurs

variable {document node : Node} {view part : View}

theorem root (document : Node) : Occurs document document :=
  ⟨.root, .refl⟩

theorem holds (hview : Occurs document view.node) (h : Holds view part) :
    Occurs document part.node := by
  obtain ⟨pointer, hpointer⟩ := hview
  obtain ⟨partPointer, hpart⟩ := h.from_pointer pointer
  exact ⟨partPointer, hpointer.tail hpart⟩

theorem below (hview : Occurs document view.node) (h : Below view part) :
    Occurs document part.node := by
  induction h with
  | refl => exact hview
  | tail _ hpart ih => exact ih.holds hpart

theorem member {found : Member Node} (hnode : Occurs document node)
    (hfound : found ∈ node.members) : Occurs document found.value :=
  have hholds : Holds ⟨node, .root⟩ ⟨found.value, _⟩ := .member hfound
  holds hnode hholds

theorem size_le (h : Occurs document node) : node.size ≤ document.size :=
  h.choose_spec.size_le

end Occurs

theorem holds_of_select {node : Node} {segment : Str} {selection : Selection}
    (h : select node segment = .ok (some selection)) (pointer : Pointer) :
    ∃ partPointer, Holds ⟨node, pointer⟩ ⟨selection.node, partPointer⟩ := by
  cases node with
  | object range members =>
      simp only [select, Except.ok.injEq, Option.map_eq_some_iff] at h
      obtain ⟨found, hfound, rfl⟩ := h
      exact ⟨_, .member (List.mem_of_find?_eq_some hfound)⟩
  | array range items =>
      simp only [select, selectItem] at h
      split at h
      · split at h
        · simp only [Except.map, Except.ok.injEq, Option.map_eq_some_iff] at h
          obtain ⟨item, hitem, rfl⟩ := h
          exact ⟨_, .item hitem⟩
        · simp [Except.map] at h
      · simp [Except.map] at h
  | scalar => simp [select] at h

theorem member?_eq_some {node : Node} {key : Str} {found : Member Node}
    (h : node.member? key = some found) : found ∈ node.members ∧ found.key.name = key :=
  ⟨List.mem_of_find?_eq_some h, by simpa using List.find?_some h⟩

theorem member_of_select {node : Node} {found : Member Node} {segment : Str}
    (h : select node segment = .ok (some (.member found))) :
    found ∈ node.members ∧ found.key.name = segment := by
  cases node with
  | scalar => simp [select] at h
  | array range items =>
      obtain ⟨part, -, hpart⟩ := map_eq_ok.mp h
      simp at hpart
  | object range members => exact member?_eq_some (by simpa [select] using h)

theorem occurs_of_follow {document node target : Node} {path : List Str}
    (hnode : Occurs document node) (h : follow node path = .ok (some target)) :
    Occurs document target := by
  induction path generalizing node with
  | nil =>
      obtain rfl : node = target := by simpa [follow] using h
      exact hnode
  | cons segment rest ih =>
      obtain ⟨selected, hselected, h⟩ := bind_eq_ok.mp h
      cases selected with
      | none => simp [pure, Except.pure] at h
      | some selection =>
          obtain ⟨_, hpart⟩ := holds_of_select hselected .root
          exact ih (hnode.holds hpart) h

theorem occurs_of_resolve {document : Node} {pointer : Pointer} {target : View}
    (h : resolve document pointer = .ok (some target)) :
    Occurs document target.node ∧ target.pointer = pointer := by
  unfold resolve at h
  split at h
  · simp at h
  · split at h
    · obtain ⟨found, hfound, h⟩ := map_eq_ok.mp h
      simp only [Option.map_eq_some_iff] at h
      obtain ⟨node, rfl, rfl⟩ := h
      exact ⟨occurs_of_follow (.root document) hfound, rfl⟩
    · simp at h

/-- The last key along a path is one of a member, or the one that was given. -/
theorem member_of_lastKey {document node : Node} {last : Option Key} {path : List Str} {key : Key}
    (hnode : Occurs document node) (h : lastKey node last path = .ok (some key)) :
    last = some key ∨
      ∃ owner found, Occurs document owner ∧ found ∈ owner.members ∧ found.key = key := by
  induction path generalizing node last with
  | nil => exact .inl (Except.ok.inj h)
  | cons segment rest ih =>
      obtain ⟨selected, hselected, h⟩ := bind_eq_ok.mp h
      cases selected with
      | none => simp [pure, Except.pure] at h
      | some selection =>
          obtain ⟨pointer, hholds⟩ := holds_of_select hselected .root
          have hpart := hnode.holds hholds
          cases selection with
          | item part => exact ih hpart h
          | member found =>
              rcases ih hpart h with hlast | hother
              · obtain rfl := Option.some.inj hlast
                exact .inr ⟨node, found, hnode, (member_of_select hselected).1, rfl⟩
              · exact .inr hother

/-- The strings among the values of a document. -/
def strings (document : Node) : List Str :=
  (viewsBelow document .root).filterMap View.string?

theorem mem_strings {document : Node} {view : View} {text : Str}
    (hview : Occurs document view.node) (htext : view.string? = some text) :
    text ∈ strings document := by
  obtain ⟨pointer, hpointer⟩ := hview
  exact List.mem_filterMap.mpr ⟨_, hpointer.mem_viewsBelow, htext⟩

theorem exists_of_mem_strings {document : Node} {text : Str} (h : text ∈ strings document) :
    ∃ view : View, Occurs document view.node ∧ view.string? = some text := by
  obtain ⟨view, hview, htext⟩ := List.mem_filterMap.mp h
  exact ⟨view, ⟨view.pointer, below_of_mem_viewsBelow hview⟩, htext⟩

theorem length_strings_le (document : Node) : (strings document).length ≤ document.size := by
  rw [← length_viewsBelow document .root]
  exact List.length_filterMap_le _ _

end Schemata.Schema

namespace Schemata.Analysis

open Schema

variable {setting : Setting} {view part : View}

theorem ListsItem.holds {item : View} (h : ListsItem view item) : Holds view item :=
  View.holds_of_child? (View.child?_of_items? h.2)

theorem exists_map_of_mem_propertyEntries {entry : Schema.Entry}
    (h : entry ∈ propertyEntries view) : ∃ map, Holds view map ∧ entry ∈ map.entries := by
  have hentry := (List.mem_filter.mp h).1
  cases hproperties : view.properties? with
  | none => simp [hproperties] at hentry
  | some map =>
      exact ⟨map, View.holds_of_child? hproperties, by simpa [hproperties] using hentry⟩

theorem exists_map_of_mem_definitionEntries {entry : Schema.Entry}
    (h : entry ∈ definitionEntries view) : ∃ map, Holds view map ∧ entry ∈ map.entries := by
  obtain ⟨map, hmap, hentry⟩ := List.mem_flatMap.mp h
  obtain ⟨keyword, -, hkeyword⟩ := List.mem_filterMap.mp hmap
  exact ⟨map, View.holds_of_child? hkeyword, hentry⟩

theorem below_of_mem_propertyEntries {entry : Schema.Entry} (h : entry ∈ propertyEntries view) :
    Below view entry.view := by
  obtain ⟨map, hmap, hentry⟩ := exists_map_of_mem_propertyEntries h
  exact .tail (.single hmap) (View.holds_of_mem_entries hentry)

theorem below_of_mem_definitionEntries {entry : Schema.Entry}
    (h : entry ∈ definitionEntries view) : Below view entry.view := by
  obtain ⟨map, hmap, hentry⟩ := exists_map_of_mem_definitionEntries h
  exact .tail (.single hmap) (View.holds_of_mem_entries hentry)

/-! ### The schemas that a conversion may meet -/

/-- What a pointer leads to. -/
def target? (document : Json.Node) (pointer : Pointer) : Option View :=
  (resolve document pointer).toOption.join

theorem target?_eq_some_iff {document : Json.Node} {pointer : Pointer} {target : View} :
    target? document pointer = some target ↔ resolve document pointer = .ok (some target) := by
  unfold target?
  cases resolve document pointer with
  | ok found => simp [Except.toOption]
  | error => simp [Except.toOption]

/-- The root of a document and everything that its strings lead to when they are taken
as pointers. -/
def bases (document : Json.Node) : List View :=
  View.root document :: (strings document).filterMap (target? document)

/-- The schemas that a conversion may meet, as often as there are ways to them. -/
def reachableViews (document : Json.Node) : List View :=
  (bases document).flatMap fun base => viewsBelow base.node base.pointer

/-- A conversion may meet a schema: it lies below the root or below what a string of
the document leads to. -/
def Reachable (document : Json.Node) (view : View) : Prop :=
  ∃ base ∈ bases document, Below base view

namespace Reachable

variable {document : Json.Node}

theorem root (document : Json.Node) : Reachable document (View.root document) :=
  ⟨_, List.mem_cons_self, .refl⟩

theorem below (hview : Reachable document view) (h : Below view part) :
    Reachable document part := by
  obtain ⟨base, hbase, hbelow⟩ := hview
  exact ⟨base, hbase, hbelow.trans h⟩

theorem mem_reachableViews (h : Reachable document view) : view ∈ reachableViews document := by
  obtain ⟨base, hbase, hbelow⟩ := h
  exact List.mem_flatMap.mpr ⟨base, hbase, hbelow.mem_viewsBelow⟩

theorem occurs (h : Reachable document view) : Occurs document view.node := by
  obtain ⟨base, hbase, hbelow⟩ := h
  refine Occurs.below ?_ hbelow
  rcases List.mem_cons.mp hbase with rfl | htarget
  · exact .root document
  · obtain ⟨pointer, -, hpointer⟩ := List.mem_filterMap.mp htarget
    exact (occurs_of_resolve (target?_eq_some_iff.mp hpointer)).1

end Reachable

theorem Reachable.refersTo {target : View} (hview : Reachable setting.document view)
    (h : RefersTo setting view target) :
    Reachable setting.document target ∧ target.pointer ∈ strings setting.document := by
  obtain ⟨reference, pointer, hreference, hpointer, htarget⟩ := h
  have hoccurs := hview.occurs.holds (View.holds_of_child? hreference)
  have hstring := mem_strings hoccurs hpointer
  refine ⟨⟨target, List.mem_cons_of_mem _ ?_, .refl⟩, ?_⟩
  · exact List.mem_filterMap.mpr ⟨pointer, hstring, target?_eq_some_iff.mpr htarget⟩
  · rw [(occurs_of_resolve htarget).2]
    exact hstring

theorem Reachable.takesOver (hview : Reachable setting.document view)
    (h : TakesOver setting view part) : Reachable setting.document part := by
  obtain ⟨⟨member, hmember, hother⟩, -⟩ := h
  have hreachable := hview.below (View.below_of_mem_getD_children? hmember)
  rcases hother with ⟨-, rfl⟩ | htarget
  · exact hreachable
  · exact (hreachable.refersTo htarget).1

theorem Reachable.hasPart {code : Source.LocationCode} (hview : Reachable setting.document view)
    (h : HasPart setting view part code) : Reachable setting.document part := by
  cases h with
  | property _ hentry => exact hview.below (below_of_mem_propertyEntries hentry)
  | inherited _ hpart hentry =>
      exact (hview.takesOver hpart).below (below_of_mem_propertyEntries hentry)
  | member _ hmember => exact hview.below (View.below_of_mem_getD_children? hmember)

theorem length_reachableViews_le (document : Json.Node) :
    (reachableViews document).length ≤ (document.size + 1) * document.size := by
  have hbase : ∀ base ∈ bases document,
      (viewsBelow base.node base.pointer).length ≤ document.size := by
    intro base hmem
    rw [length_viewsBelow]
    exact (Reachable.occurs ⟨base, hmem, .refl⟩).size_le
  have hbases : (bases document).length ≤ document.size + 1 := by
    have hfilter := List.length_filterMap_le (target? document) (strings document)
    have hstrings := length_strings_le document
    rw [bases, List.length_cons]
    omega
  -- No base holds more schemas than the document, and there is one for each string at most.
  rw [reachableViews, List.length_flatMap]
  refine Nat.le_trans (List.sum_le_card_nsmul _ document.size ?_) ?_
  · simpa using hbase
  · rw [List.length_map, Nat.nsmul_eq_mul]
    exact Nat.mul_le_mul_right _ hbases

end Schemata.Analysis
