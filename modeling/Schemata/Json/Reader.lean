import Schemata.Json.Token

/-!
# Reading a text

Tokens are read one by one. Between two tokens the state says what may come next
and which containers are still open, so a text is refused at the first token
that cannot continue it. Strings and numbers get their values when their token
is read.
-/

namespace Schemata.Json

open Source

/-- An open container that waits for a value. What it holds so far is listed
newest first. -/
inductive Pending
  | item (first : Position) (items : List Node)
  | member (first : Position) (members : List (Member Node)) (key : Key)

/-- What may come next, inside the given open containers. -/
inductive State
  | nextValue (outer : List Pending)
  | firstItem (first : Position) (outer : List Pending)
  | firstKey (first : Position) (outer : List Pending)
  | nextKey (first : Position) (members : List (Member Node)) (outer : List Pending)
  | nextColon (first : Position) (members : List (Member Node)) (key : Key) (outer : List Pending)
  | afterItem (first : Position) (items : List Node) (outer : List Pending)
  | afterMember (first : Position) (members : List (Member Node)) (outer : List Pending)
  | done (root : Node)

namespace State

/-- Hand a finished value to the container that waits for it. -/
def deliver (node : Node) : List Pending → State
  | [] => done node
  | .item first items :: outer => afterItem first (node :: items) outer
  | .member first members key :: outer => afterMember first (⟨key, node⟩ :: members) outer

/-- Refuse a token. -/
def refuse (token : Token) (fault : Fault) : Except ReadError State :=
  .error (.malformed fault token.range.first)

/-- The value of a string token. -/
def stringOf (token : Token) : Except ReadError Str :=
  (unescape (token.text.drop 1).dropLast).mapError fun fault =>
    .malformed (.badEscape fault) token.range.first

/-- Read the token that starts a value. -/
def startValue (token : Token) (outer : List Pending) : Except ReadError State :=
  let finish (value : Scalar) : State :=
    deliver (.scalar token.range value (String.ofList token.text)) outer
  match token.kind with
  | .string => (stringOf token).map fun value => finish (.string value)
  | .number =>
      match readNumber token.text with
      | .ok number => .ok (finish (.number number))
      | .error fault => .error (.number fault)
  | .word value => .ok (finish value)
  | .mark c =>
      if c = '\x7b' then .ok (firstKey token.range.first outer)
      else if c = '[' then .ok (firstItem token.range.first outer)
      else refuse token (.unexpectedToken token.text)

/-- Read the key of a member. -/
def startMember (first : Position) (members : List (Member Node)) (outer : List Pending)
    (token : Token) : Except ReadError State :=
  if token.kind = .string then
    (stringOf token).map fun name =>
      nextColon first members ⟨name, String.ofList token.text, token.range⟩ outer
  else refuse token (.missingKey token.text)

/-- Read one token. -/
def step (state : State) (token : Token) : Except ReadError State :=
  match state with
  | nextValue outer => startValue token outer
  | firstItem first outer =>
      if token.kind = .mark ']' then
        .ok (deliver (.array ⟨first, token.range.last⟩ []) outer)
      else startValue token (.item first [] :: outer)
  | firstKey first outer =>
      if token.kind = .mark '\x7d' then
        .ok (deliver (.object ⟨first, token.range.last⟩ []) outer)
      else startMember first [] outer token
  | nextKey first members outer => startMember first members outer token
  | nextColon first members key outer =>
      if token.kind = .mark ':' then .ok (nextValue (.member first members key :: outer))
      else refuse token (.missingColon token.text)
  | afterItem first items outer =>
      if token.kind = .mark ']' then
        .ok (deliver (.array ⟨first, token.range.last⟩ items.reverse) outer)
      else if token.kind = .mark ',' then .ok (nextValue (.item first items :: outer))
      else refuse token (.unclosedArray token.text)
  | afterMember first members outer =>
      if token.kind = .mark '\x7d' then
        .ok (deliver (.object ⟨first, token.range.last⟩ members.reverse) outer)
      else if token.kind = .mark ',' then .ok (nextKey first members outer)
      else refuse token (.unclosedObject token.text)
  | done _ => refuse token (.trailingToken token.text)

/-- The tree of a text that ends here. -/
def finish (last : Position) : State → Except ReadError Node
  | done root => .ok root
  | _ => .error (.malformed .endOfInput last)

end State

/-- The tree of a JSON text. -/
def read (text : String) : Except ReadError Node := do
  let tokens ← tokens text.toList
  let state ← tokens.foldlM State.step (.nextValue [])
  state.finish (Position.start.past text.toList)

end Schemata.Json
