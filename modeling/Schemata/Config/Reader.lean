import Schemata.Config.Token

/-!
# Reading a configuration

Tokens are read one by one, in a state that says what may come next. A fault is
found at the first token that does not fit, or at the end of the text.
-/

namespace Schemata.Config

open Json (Value)
open Source

/-- Give a name its value, in the place of its entry or, if it has none, at the end. -/
def setEntry (name : Str) (value : Value) : List (Str × Value) → List (Str × Value)
  | [] => [(name, value)]
  | entry :: rest =>
      if entry.1 = name then (name, value) :: rest else entry :: setEntry name value rest

/-- The table of some entries. Of repeated entries the last counts, in the place of the first. -/
def table (entries : List (Str × Value)) : Value :=
  .object (entries.foldl (fun found entry => setEntry entry.1 entry.2 found) [])

/-- A list or table that waits for a value, with what it holds so far, newest
first. -/
inductive Pending
  | item (items : List Value)
  | entry (entries : List (Str × Value)) (key : Str)

/-- What may come next, inside the given lists and tables. -/
inductive State
  | nextValue (outer : List Pending)
  | firstItem (outer : List Pending)
  | firstKey (outer : List Pending)
  | nextKey (entries : List (Str × Value)) (outer : List Pending)
  | nextColon (entries : List (Str × Value)) (key : Str) (outer : List Pending)
  | afterItem (items : List Value) (outer : List Pending)
  | afterEntry (entries : List (Str × Value)) (outer : List Pending)
  | done (value : Value)

namespace State

/-- What is amiss when something else comes next. -/
def complaint : State → Fault
  | nextValue _ | firstItem _ => .expectedValue
  | firstKey _ | nextKey _ _ => .expectedKey
  | nextColon _ _ _ => .expectedColon
  | afterItem _ _ | afterEntry _ _ => .expectedComma
  | done _ => .extraData

/-- Hand a finished value to the list or table that waits for it. -/
def deliver (value : Value) : List Pending → State
  | [] => done value
  | .item items :: outer => afterItem (value :: items) outer
  | .entry entries key :: outer => afterEntry ((key, value) :: entries) outer

/-- Refuse a token. -/
def refuse (state : State) (token : Token) : Except Stop State :=
  .error (.fault state.complaint token.left)

/-- Read the token that starts a value. -/
def startValue (token : Token) (outer : List Pending) : Except Stop State :=
  match token.kind with
  | .mark c =>
      if c = '[' then .ok (firstItem outer)
      else if c = '\x7b' then .ok (firstKey outer)
      else refuse (nextValue outer) token
  | .string text => text.map fun text => deliver (.string text) outer
  | .scalar value => value.map fun value => deliver value outer
  | .unknown => refuse (nextValue outer) token

/-- Read the key of an entry. -/
def startEntry (entries : List (Str × Value)) (outer : List Pending) (token : Token) :
    Except Stop State :=
  match token.kind with
  | .string text => text.map fun text => nextColon entries text outer
  | _ => refuse (nextKey entries outer) token

/-- Read one token. -/
def step (state : State) (token : Token) : Except Stop State :=
  match state with
  | nextValue outer => startValue token outer
  | firstItem outer =>
      if token.isMark ']' then .ok (deliver (.array []) outer)
      else startValue token (.item [] :: outer)
  | firstKey outer =>
      if token.isMark '\x7d' then .ok (deliver (.object []) outer)
      else startEntry [] outer token
  | nextKey entries outer => startEntry entries outer token
  | nextColon entries key outer =>
      if token.isMark ':' then .ok (nextValue (.entry entries key :: outer))
      else refuse state token
  | afterItem items outer =>
      if token.isMark ']' then .ok (deliver (.array items.reverse) outer)
      else if token.isMark ',' then .ok (nextValue (.item items :: outer))
      else refuse state token
  | afterEntry entries outer =>
      if token.isMark '\x7d' then .ok (deliver (table entries.reverse) outer)
      else if token.isMark ',' then .ok (nextKey entries outer)
      else refuse state token
  | done _ => refuse state token

/-- The value of a text that ends here. -/
def finish : State → Except Stop Value
  | done value => .ok value
  | state => .error (.fault state.complaint [])

end State

/-- Why a configuration is not read: it is malformed at a position, or a number in
it has no value. -/
inductive ReadError
  | malformed (fault : Fault) (position : Position)
  | number (fault : Json.NumberFault)
deriving DecidableEq, Repr

def ReadError.message : ReadError → String
  | malformed fault position =>
      fault.message ++ ": line " ++ Text.integerText position.line ++
        " column " ++ Text.integerText position.column ++
        " (char " ++ Text.integerText position.offset ++ ")"
  | number fault => fault.message

/-- The error of a text whose reading stops. -/
def Stop.error (text : List Char) : Stop → ReadError
  | .fault cause left =>
      .malformed cause (Position.start.past (text.take (text.length - left.length)))
  | .number cause => .number cause

/-- Read the tokens of a text, which must not start with a byte order mark. -/
def readCharacters (text : List Char) : Except Stop Value :=
  if text.head? = some '\uFEFF' then .error (.fault .byteOrderMark text)
  else do
    let state ← (tokens text).foldlM State.step (.nextValue [])
    state.finish

/-- The value that a configuration holds. -/
def read (text : String) : Except ReadError Value :=
  (readCharacters text.toList).mapError (Stop.error text.toList)

end Schemata.Config
