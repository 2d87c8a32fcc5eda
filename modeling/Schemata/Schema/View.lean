import Schemata.Json.Node
import Schemata.Model.Violation

/-!
# Views of a document

A view is a value of a document together with a pointer that leads to it. Going
to a part of the value extends the pointer, so views reached from the root carry
pointers that resolve to their values. Of repeated keys the first counts.
-/

namespace Schemata.Schema

open Json Source

/-- A value of a document and the pointer it was reached by. -/
structure View where
  node : Node
  pointer : Pointer

/-- A member of an object, with the view of its value. -/
structure Entry where
  key : Key
  view : View

namespace View

/-- The view of a whole document. -/
def root (document : Node) : View :=
  ⟨document, .root⟩

/-- The written range of the value. -/
def code (view : View) : LocationCode :=
  view.node.range.code

/-- The value under a key. -/
def child? (view : View) (key : Str) : Option View :=
  (view.node.member? key).map fun member => ⟨member.value, view.pointer.child key⟩

/-- The items of the array under a key. -/
def children? (view : View) (key : Str) : Option (List View) := do
  let member ← view.node.member? key
  let items ← member.value.array?
  let base := view.pointer.child key
  return items.mapIdx fun index node => ⟨node, base.item index⟩

/-- The members of an object, repeated keys included. -/
def entries (view : View) : List Entry :=
  view.node.members.map fun member =>
    ⟨member.key, member.value, view.pointer.child member.key.name⟩

/-- The written range of the member under a key. -/
def memberCode? (view : View) (key : Str) : Option LocationCode :=
  (view.node.member? key).map fun member => member.range.code

def has (view : View) (key : Str) : Bool :=
  (view.node.member? key).isSome

/-- The scalar in view, if it is one. -/
def scalar? (view : View) : Option Scalar :=
  view.node.scalar?

/-- The scalar in view, which must be one. -/
def scalar (view : View) : Except Failure Scalar :=
  match view.scalar? with
  | some value => .ok value
  | none => .error (.notScalar view.pointer)

/-- The string in view, if it is one. -/
def string? (view : View) : Option Str :=
  view.scalar?.bind Scalar.string?

end View

namespace Entry

/-- The written range of a member, from its key to the end of its value. -/
def code (entry : Entry) : LocationCode :=
  Range.code ⟨entry.key.range.first, entry.view.node.range.last⟩

end Entry

end Schemata.Schema
