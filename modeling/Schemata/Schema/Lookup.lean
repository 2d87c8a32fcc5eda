import Schemata.Schema.Keyword

/-!
# Looking up pointers

A pointer is followed from the root of a document, segment by segment. Pointers
that start anywhere else lead nowhere, as do those with a missing segment.

Two walks are made along a pointer: one for the value it leads to and one for
the last key it passes.
-/

namespace Schemata.Schema

open Json Source

/-- The part of a value that a segment selects. -/
inductive Selection
  | item (node : Node)
  | member (found : Member Node)

def Selection.node : Selection → Node
  | item node => node
  | member found => found.value

/-- The item that an index selects. Any run of digits is an index; one that is
not read as an integer is refused. -/
def selectItem (items : List Node) (segment : Str) : Except Failure (Option Node) :=
  if Text.isNumber segment then
    match Text.readInteger segment.chars with
    | .ok index => .ok items[index.toNat]?
    | .error fault => .error (.badIndex segment fault)
  else .ok none

/-- The part of a value that a segment selects, if there is one. -/
def select (node : Node) (segment : Str) : Except Failure (Option Selection) :=
  match node with
  | .array _ items => (selectItem items segment).map (·.map .item)
  | .object _ _ => .ok ((node.member? segment).map .member)
  | .scalar _ _ _ => .ok none

/-- The value at the end of a path. -/
def follow (node : Node) : List Str → Except Failure (Option Node)
  | [] => .ok (some node)
  | segment :: rest => do
      match ← select node segment with
      | some selection => follow selection.node rest
      | none => return none

/-- The last key along a path, or the given one if the path passes none. Indexes
have no key. -/
def lastKey (node : Node) (last : Option Key) : List Str → Except Failure (Option Key)
  | [] => .ok last
  | segment :: rest => do
      match ← select node segment with
      | some (.item node) => lastKey node last rest
      | some (.member found) => lastKey found.value (some found.key) rest
      | none => return none

/-- The view that a pointer leads to. It keeps the pointer as written. -/
def resolve (document : Node) (pointer : Pointer) : Except Failure (Option View) :=
  match pointer.segments with
  | [] => .ok none
  | first :: path =>
      if first = Pointer.root then
        (follow document path).map (·.map fun node => ⟨node, pointer⟩)
      else .ok none

/-- The last key along a pointer. -/
def keyAt (document : Node) (pointer : Pointer) : Except Failure (Option Key) :=
  match pointer.segments with
  | [] => .ok none
  | first :: path =>
      if first = Pointer.root then lastKey document none path else .ok none

/-- Resolve the pointer with the given segments. -/
def resolveSegments (document : Node) (segments : List Str) :
    Except Failure (Option View) :=
  match Pointer.ofSegments? segments with
  | some pointer => resolve document pointer
  | none => .error .noSegments

/-- The view `depth` segments above a pointer. A negative depth counts segments
from the root. -/
def ancestor (document : Node) (pointer : Pointer) (depth : Int) :
    Except Failure (Option View) :=
  let segments := pointer.segments
  if segments.length ≤ depth then .ok none
  else
    let kept : Int := if 0 < depth then segments.length - depth else -depth
    resolveSegments document (segments.take kept.toNat)

/-- Whether a list of required keys names a key. -/
def requires (required : List View) (key : Str) : Bool :=
  required.any fun name => name.scalar? = some (.string key)

/-- Whether a schema under `properties` is required by the schema that owns it. -/
def isRequired (document : Node) (pointer : Pointer) : Except Failure Bool :=
  match pointer.segments.reverse with
  | key :: keyword :: _ :: _ =>
      if keyword = "properties" then do
        let owner ← ancestor document pointer 2
        return (owner.bind View.required?).any (requires · key)
      else .ok false
  | _ => .ok false

end Schemata.Schema
