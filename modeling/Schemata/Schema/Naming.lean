import Schemata.Model.Label
import Schemata.Schema.Lookup

/-!
# Names of schemas

A schema with a title is named by it, and a definition by its key. Any other
schema is named after its owner and the last segment of its pointer, joined by an
underscore; the document itself has a given name.

Under `properties` and under other keywords the owner is two segments up, above
`items` one. Paths in this module are lists of segments, the last one first.
-/

namespace Schemata.Schema

open Json

/-- The title of a schema as its name. An empty title is none. -/
def titleLabel? (node : Node) : Option Label := do
  let title ← node.member? "title"
  let text ← title.value.scalar?.bind Scalar.string?
  if text = [] then none else some ⟨text, title.value.range.code⟩

/-- What names are inferred from: a document and the name of its root. -/
structure Naming where
  document : Node
  rootName : Str

namespace Naming

/-- The name of an owner and the last segment in one, leaving out empty ones. -/
def joined (owner : Option Label) (last : Str) : Str :=
  [.char '_'].intercalate ([(owner.map Label.value).getD [], last].filter (· ≠ []))

/-- The name of a part of an owner. The range is that of the key, given the last
key along the path, if the path ends in it. -/
def partLabel (owner : Option Label) (key : Option Key) (last : Str) : Label :=
  ⟨joined owner last, (key.filter fun key => key.name = last).map fun key => key.range.code⟩

/-- The name of the owner at the end of a path: its title, or else the name that
goes with the path. An owner that is missing has none. -/
def ownerLabel (naming : Naming) (path : List Str)
    (pathLabel : Except Failure (Option Label)) : Except Failure (Option Label) := do
  match ← follow naming.document path.reverse with
  | none => return none
  | some owner =>
      match titleLabel? owner with
      | some title => return some title
      | none => pathLabel

/-- The name that goes with a path below the root. -/
def ofPath (naming : Naming) : List Str → Except Failure (Option Label)
  | [] => .ok (some ⟨naming.rootName, none⟩)
  | [last] => do
      let owner ←
        if last = "items" then naming.ownerLabel [] (.ok (some ⟨naming.rootName, none⟩))
        else pure none
      let key ← lastKey naming.document none [last]
      return some (partLabel owner key last)
  | last :: keyword :: outer => do
      if keyword ∈ definitionKeywords then
        let key ← lastKey naming.document none (last :: keyword :: outer).reverse
        return key.map Key.label
      else
        let owner ←
          if keyword ≠ "properties" && last = "items" then
            naming.ownerLabel (keyword :: outer) (ofPath naming (keyword :: outer))
          else naming.ownerLabel outer (ofPath naming outer)
        let key ← lastKey naming.document none (last :: keyword :: outer).reverse
        return some (partLabel owner key last)

/-- The name of the schema that a list of segments resolves to. -/
def ofSegments (naming : Naming) (segments : List Str) : Except Failure (Option Label) := do
  match ← resolveSegments naming.document segments with
  | none => return none
  | some owner =>
      match titleLabel? owner.node with
      | some title => return some title
      | none => naming.ofPath (owner.pointer.segments.drop 1).reverse

/-- The name that goes with a path below anything but the root. Only its owner may
lie in the document. -/
def ofForeignPath (naming : Naming) (first : Str) :
    List Str → Except Failure (Option Label)
  | [] => .ok none
  | [last] => do
      let owner ← if last = "items" then naming.ofSegments [first] else pure none
      return some (partLabel owner none last)
  | last :: keyword :: outer => do
      if keyword ∈ definitionKeywords then return none
      else
        let path :=
          if keyword ≠ "properties" && last = "items" then keyword :: outer else outer
        let owner ← naming.ofSegments (first :: path.reverse)
        return some (partLabel owner none last)

/-- The name that goes with a pointer. -/
def ofPointer (naming : Naming) (pointer : Pointer) : Except Failure (Option Label) :=
  match pointer.segments with
  | [] => .ok none
  | first :: path =>
      if first = Pointer.root then naming.ofPath path.reverse
      else naming.ofForeignPath first path.reverse

/-- The name of a schema. -/
def infer (naming : Naming) (view : View) : Except Failure (Option Label) :=
  match titleLabel? view.node with
  | some title => .ok (some title)
  | none => naming.ofPointer view.pointer

end Naming

end Schemata.Schema
