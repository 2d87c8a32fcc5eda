import Schemata.Proofs.Layouts
import Schemata.Proofs.Places

/-!
# Where parts begin

Every key, member and item of a document begins in a place of its own. So a range tells
what it is the range of: the items of all lists have other ranges than members and their
values, and no two items of a list share one.
-/

namespace Schemata.Source

/-- The range between two offsets in the first line of a text. -/
def Range.inFirstLine (first last : Int) : Range :=
  ⟨⟨1, first + 1, first⟩, ⟨1, last + 1, last⟩⟩

end Schemata.Source

namespace Schemata.Json

open Source

/-- What begins in a place. -/
inductive Mark
  | key
  | value
  | item
deriving DecidableEq

mutual

/-- The places in a value where parts of it begin, in the order of the text. -/
def Node.marks : Node → List (Mark × Position)
  | .object _ members => memberMarks members
  | .array _ items => itemMarks items
  | .scalar _ _ _ => []

def memberMarks : List (Member Node) → List (Mark × Position)
  | [] => []
  | ⟨key, value⟩ :: rest =>
      (.key, key.range.first) :: (.value, value.range.first) :: (value.marks ++ memberMarks rest)

def itemMarks : List Node → List (Mark × Position)
  | [] => []
  | item :: rest => (.item, item.range.first) :: (item.marks ++ itemMarks rest)

end

mutual

/-- What begins is an end, and a value begins before its parts. -/
theorem marks_sublist_ends (node : Node) :
    (node.range.first :: node.marks.map Prod.snd).Sublist node.ends := by
  match node with
  | .object range members =>
      exact ((memberMarks_sublist_ends members).trans (List.sublist_append_left _ _)).cons_cons _
  | .array range items =>
      exact ((itemMarks_sublist_ends items).trans (List.sublist_append_left _ _)).cons_cons _
  | .scalar range _ _ => exact (List.nil_sublist _).cons_cons _

theorem memberMarks_sublist_ends (members : List (Member Node)) :
    ((memberMarks members).map Prod.snd).Sublist (memberEnds members) := by
  match members with
  | [] => exact List.Sublist.refl _
  | ⟨key, value⟩ :: rest =>
      have hparts := (marks_sublist_ends value).append (memberMarks_sublist_ends rest)
      simp only [memberMarks, memberEnds, List.map_cons, List.map_append]
      exact (hparts.cons _).cons_cons _

theorem itemMarks_sublist_ends (items : List Node) :
    ((itemMarks items).map Prod.snd).Sublist (itemEnds items) := by
  match items with
  | [] => exact List.Sublist.refl _
  | item :: rest =>
      simp only [itemMarks, itemEnds, List.map_cons, List.map_append]
      exact (marks_sublist_ends item).append (itemMarks_sublist_ends rest)

end

/-- No two parts of a document begin in the same place. -/
def Node.Apart (document : Node) : Prop :=
  (document.marks.map Prod.snd).Nodup

theorem apart_of_read {text : String} {document : Node} (h : read text = .ok document) :
    document.Apart :=
  ((List.sublist_cons_self _ _).trans (marks_sublist_ends document)).nodup (nodup_ends h)

theorem mem_memberMarks {members : List (Member Node)} {member : Member Node}
    (h : member ∈ members) : (.key, member.key.range.first) ∈ memberMarks members ∧
      (.value, member.value.range.first) ∈ memberMarks members := by
  induction members with
  | nil => exact absurd h List.not_mem_nil
  | cons first rest ih =>
      rw [memberMarks]
      rcases List.mem_cons.mp h with rfl | hrest
      · simp
      · simp [ih hrest]

/-- Items begin in the order in which they are listed. -/
theorem sublist_itemMarks (items : List Node) :
    (items.map fun item => (Mark.item, item.range.first)).Sublist (itemMarks items) := by
  induction items with
  | nil => exact List.Sublist.refl _
  | cons item rest ih => exact (ih.trans (List.sublist_append_right _ _)).cons_cons _

theorem marks_sublist_memberMarks {members : List (Member Node)} {member : Member Node}
    (h : member ∈ members) : member.value.marks.Sublist (memberMarks members) := by
  induction members with
  | nil => exact absurd h List.not_mem_nil
  | cons first rest ih =>
      rw [memberMarks]
      rcases List.mem_cons.mp h with rfl | hrest
      · exact ((List.sublist_append_left _ _).cons _).cons _
      · exact (((ih hrest).trans (List.sublist_append_right _ _)).cons _).cons _

theorem marks_sublist_itemMarks {items : List Node} {item : Node} (h : item ∈ items) :
    item.marks.Sublist (itemMarks items) := by
  induction items with
  | nil => exact absurd h List.not_mem_nil
  | cons first rest ih =>
      rw [itemMarks]
      rcases List.mem_cons.mp h with rfl | hrest
      · exact (List.sublist_append_left _ _).cons _
      · exact ((ih hrest).trans (List.sublist_append_right _ _)).cons _

end Schemata.Json

namespace Schemata.Schema

open Json Source

mutual

/-- Values begin in the order in which they are listed. -/
theorem firsts_sublist_ends (node : Node) (pointer : Pointer) :
    ((viewsBelow node pointer).map fun view => view.node.range.first).Sublist node.ends := by
  match node with
  | .object _ members =>
      have hparts := memberFirsts_sublist_ends pointer members
      exact (hparts.trans (List.sublist_append_left _ _)).cons_cons _
  | .array _ items =>
      have hparts := itemFirsts_sublist_ends pointer 0 items
      exact (hparts.trans (List.sublist_append_left _ _)).cons_cons _
  | .scalar _ _ _ => exact (List.nil_sublist _).cons_cons _

theorem memberFirsts_sublist_ends (pointer : Pointer) (members : List (Member Node)) :
    ((memberViews pointer members).map fun view => view.node.range.first).Sublist
      (memberEnds members) := by
  match members with
  | [] => exact List.Sublist.refl _
  | ⟨key, value⟩ :: rest =>
      rw [memberViews, memberEnds, List.map_append]
      exact (((firsts_sublist_ends value _).append
        (memberFirsts_sublist_ends pointer rest)).cons _).cons _

theorem itemFirsts_sublist_ends (pointer : Pointer) (index : Nat) (items : List Node) :
    ((itemViews pointer index items).map fun view => view.node.range.first).Sublist
      (itemEnds items) := by
  match items with
  | [] => exact List.Sublist.refl _
  | item :: rest =>
      rw [itemViews, itemEnds, List.map_append]
      exact (firsts_sublist_ends item _).append (itemFirsts_sublist_ends pointer _ rest)

end

/-- A value of a document is known by the range that it is written in. -/
theorem eq_of_code {text : String} {document node other : Node} (hread : read text = .ok document)
    (hnode : Occurs document node) (hother : Occurs document other)
    (hcode : node.range.code = other.range.code) : node = other := by
  obtain ⟨pointer, hbelow⟩ := hnode
  obtain ⟨otherPointer, hotherBelow⟩ := hother
  have hnodup := (firsts_sublist_ends document .root).nodup (nodup_ends hread)
  have hfirst := congrArg Range.first (Range.code_injective hcode)
  have hview := List.inj_on_of_nodup_map hnodup hbelow.mem_viewsBelow hotherBelow.mem_viewsBelow
    hfirst
  exact congrArg View.node hview

variable {document : Node} {view part : View}

theorem Holds.marks_sublist (h : Holds view part) :
    part.node.marks.Sublist view.node.marks := by
  obtain ⟨node, pointer⟩ := view
  cases h with
  | member hfound =>
      cases node with
      | object => exact marks_sublist_memberMarks hfound
      | array | scalar => exact absurd hfound List.not_mem_nil
  | item hitem =>
      cases node with
      | array => exact marks_sublist_itemMarks (List.mem_of_getElem? hitem)
      | object | scalar => simp [Node.items] at hitem

theorem Occurs.marks_sublist {node : Node} (h : Occurs document node) :
    node.marks.Sublist document.marks := by
  obtain ⟨pointer, hbelow⟩ := h
  have hsublist : ∀ view, Below (View.root document) view →
      view.node.marks.Sublist document.marks := by
    intro view hview
    induction hview with
    | refl => exact List.Sublist.refl _
    | tail _ hpart ih => exact hpart.marks_sublist.trans ih
  exact hsublist _ hbelow

theorem mem_marks_of_member {node : Node} {member : Member Node} (hnode : Occurs document node)
    (h : member ∈ node.members) : (.key, member.key.range.first) ∈ document.marks ∧
      (.value, member.value.range.first) ∈ document.marks := by
  have hsubset := hnode.marks_sublist.subset
  cases node with
  | object => exact ⟨hsubset (mem_memberMarks h).1, hsubset (mem_memberMarks h).2⟩
  | array | scalar => exact absurd h List.not_mem_nil

/-- The beginnings of listed parts, all of which are items of one array. -/
theorem children?_marks_sublist (hview : Occurs document view.node) (key : Str) :
    ((((view.children? key).getD []).map fun part => (Mark.item, part.node.range.first))).Sublist
      document.marks := by
  cases hparts : view.children? key with
  | none => exact List.nil_sublist _
  | some parts =>
      simp only [View.children?, Option.bind_eq_bind, Option.bind_eq_some_iff] at hparts
      obtain ⟨found, hfound, items, hitems, heq⟩ := hparts
      obtain rfl := Option.some.inj heq
      have hlist : Holds view ⟨found.value, view.pointer.child found.key.name⟩ :=
        .member (List.mem_of_find?_eq_some hfound)
      have hmarks := (hview.holds hlist).marks_sublist
      cases hvalue : found.value with
      | array range others =>
          obtain rfl : others = items := by simpa [hvalue, Node.array?] using hitems
          rw [hvalue] at hmarks
          refine List.Sublist.trans ?_ hmarks
          -- The pointers of items have no part in where they begin.
          have hitems : (others.mapIdx fun index node =>
              (⟨node, (view.pointer.child key).item index⟩ : View)).map
                (fun part => (Mark.item, part.node.range.first)) =
              others.map fun item => (Mark.item, item.range.first) := by
            apply List.ext_getElem <;> simp
          exact hitems ▸ sublist_itemMarks others
      | object | scalar => simp [hvalue, Node.array?] at hitems

namespace Apart

variable (hapart : document.Apart) (hview : Occurs document view.node)

include hapart

/-- In one place only one thing begins. -/
theorem mark_unique {mark other : Mark} {position : Position}
    (hmark : (mark, position) ∈ document.marks) (hother : (other, position) ∈ document.marks) :
    mark = other :=
  congrArg Prod.fst (List.inj_on_of_nodup_map hapart hmark hother rfl)

include hview

/-- Listed parts have different ranges. -/
theorem nodup_codes (key : Str) : (((view.children? key).getD []).map View.code).Nodup := by
  have hnodup := ((children?_marks_sublist hview key).map Prod.snd).nodup hapart
  rw [List.map_map] at hnodup
  unfold List.Nodup at hnodup ⊢
  rw [List.pairwise_map] at hnodup ⊢
  refine hnodup.imp fun hfirst hcode => hfirst ?_
  exact congrArg Range.first (Range.code_injective hcode)

variable {key : Str} (hpart : part ∈ (view.children? key).getD []) {other : View}
  (hother : Occurs document other.node)

include hpart

omit hapart in
theorem item_mem_marks : (.item, part.node.range.first) ∈ document.marks :=
  (children?_marks_sublist hview key).subset (List.mem_map_of_mem hpart)

include hother

/-- The range of a listed part is not that of a member. -/
theorem memberCode?_ne_code (otherKey : Str) : other.memberCode? otherKey ≠ some part.code := by
  intro hcode
  obtain ⟨member, hmember, heq⟩ := Option.map_eq_some_iff.mp hcode
  have hrange : member.range = part.node.range := Range.code_injective heq
  have hfirst : member.key.range.first = part.node.range.first := by
    rw [← hrange]
    rfl
  have hkey := (mem_marks_of_member hother (List.mem_of_find?_eq_some hmember)).1
  rw [hfirst] at hkey
  exact absurd (mark_unique hapart hkey (item_mem_marks hview hpart)) nofun

/-- The range of a listed part is not that of the value of a member. -/
theorem code_ne_of_child? {otherKey : Str} {child : View}
    (hchild : other.child? otherKey = some child) : child.code ≠ part.code := by
  intro hcode
  obtain ⟨member, hmember, rfl⟩ := Option.map_eq_some_iff.mp hchild
  have hfirst : member.value.range.first = part.node.range.first :=
    congrArg Range.first (Range.code_injective hcode)
  have hvalue := (mem_marks_of_member hother (List.mem_of_find?_eq_some hmember)).2
  rw [hfirst] at hvalue
  exact absurd (mark_unique hapart hvalue (item_mem_marks hview hpart)) nofun

end Apart

end Schemata.Schema
