import Schemata.Json.Lexeme
import Schemata.Json.Value

/-!
# Tokens of a configuration

A configuration is written in JSON, with the words `NaN`, `Infinity` and `-Infinity`
for what JSON lacks. What starts no token is kept as one of its own kind, so that
every text has its tokens and only the reader finds fault with them. A token holds
the text from its start to the end, which tells where it is.
-/

namespace Schemata.Config

open Json (Value)

/-! ### Faults -/

/-- What is wrong with a configuration. -/
inductive Fault
  | byteOrderMark
  | expectedValue
  | expectedKey
  | expectedColon
  | expectedComma
  | extraData
  | unterminatedString
  | controlCharacter
  | unknownEscape
  | escapeNumber
deriving DecidableEq, Repr

def Fault.message : Fault → String
  | byteOrderMark => "Unexpected UTF-8 BOM (decode using utf-8-sig)"
  | expectedValue => "Expecting value"
  | expectedKey => "Expecting property name enclosed in double quotes"
  | expectedColon => "Expecting ':' delimiter"
  | expectedComma => "Expecting ',' delimiter"
  | extraData => "Extra data"
  | unterminatedString => "Unterminated string starting at"
  | controlCharacter => "Invalid control character at"
  | unknownEscape => Json.EscapeFault.unknown.message
  | escapeNumber => Json.EscapeFault.number.message

/-- Why reading stops: at a fault, with the text from there on, or at a number
without a value. -/
inductive Stop
  | fault (fault : Fault) (left : List Char)
  | number (fault : Json.NumberFault)
deriving DecidableEq, Repr

/-! ### Tokens -/

/-- The characters and 16-bit units that a string stands for, and how many
characters it takes after its opening quote. `start` is the text from that quote
on. -/
def stringUnits (start : List Char) : List Char → Except Stop (Str × Nat)
  | [] => .error (.fault .unterminatedString start)
  | '"' :: _ => .ok ([], 1)
  | ['\\'] => .error (.fault .unterminatedString start)
  | '\\' :: 'u' :: a :: b :: c :: d :: rest =>
      match rest, Text.hexQuad? a b c d with
      | _ :: _, some unit =>
          (stringUnits start rest).map fun (units, length) => (.ofNat unit :: units, length + 6)
      | _, _ => .error (.fault .escapeNumber ('u' :: a :: b :: c :: d :: rest))
  | '\\' :: 'u' :: rest => .error (.fault .escapeNumber ('u' :: rest))
  | '\\' :: c :: rest =>
      match Json.namedEscape? c with
      | some named =>
          (stringUnits start rest).map fun (units, length) => (.char named :: units, length + 2)
      | none => .error (.fault .unknownEscape ('\\' :: c :: rest))
  | c :: rest =>
      if c < ' ' then .error (.fault .controlCharacter (c :: rest))
      else (stringUnits start rest).map fun (units, length) => (.char c :: units, length + 1)

/-- What a token is. A scalar other than a string may have no value. -/
inductive TokenKind
  | mark (c : Char)
  | string (text : Except Stop Str)
  | scalar (value : Except Stop Value)
  | unknown

structure Token where
  kind : TokenKind
  left : List Char

/-- Whether a token is the given mark. -/
def Token.isMark (token : Token) (c : Char) : Bool :=
  match token.kind with
  | .mark other => other = c
  | _ => false

/-- The words of a configuration and their values. -/
def words : List (List Char × Value) :=
  [(['n', 'u', 'l', 'l'], .null), (['t', 'r', 'u', 'e'], .bool true),
    (['f', 'a', 'l', 's', 'e'], .bool false), (['N', 'a', 'N'], .nan),
    (['I', 'n', 'f', 'i', 'n', 'i', 't', 'y'], .number (.float (.infinite false))),
    (['-', 'I', 'n', 'f', 'i', 'n', 'i', 't', 'y'], .number (.float (.infinite true)))]

/-- The value of a written number. -/
def numberValue (numeral : Json.Numeral) : Except Stop Value :=
  (numeral.number.mapError .number).map .number

/-- The kind of the token that a text starts with, and how many characters it has
after the first. -/
def kindAt (c : Char) (rest : List Char) : TokenKind × Nat :=
  if Json.isMark c then (.mark c, 0)
  else if c = '"' then
    match stringUnits (c :: rest) rest with
    | .ok (units, length) => (.string (.ok (Json.joinPairs units)), length)
    | .error stop => (.string (.error stop), rest.length)
  else
    match words.find? fun word => word.1.isPrefixOf (c :: rest) with
    | some (word, value) => (.scalar (.ok value), word.length - 1)
    | none =>
        match Json.Numeral.split? Json.isAsciiDigit (c :: rest) with
        | some (numeral, _) => (.scalar (numberValue numeral), numeral.text.length - 1)
        | none => (.unknown, rest.length)

/-- The tokens of a text. -/
def tokens : List Char → List Token
  | [] => []
  | c :: rest =>
      if Json.isJsonBlank c then tokens rest
      else ⟨(kindAt c rest).1, c :: rest⟩ :: tokens (rest.drop (kindAt c rest).2)
termination_by text => text.length
decreasing_by
  · simp only [List.length_cons]
    omega
  · simp only [List.length_drop, List.length_cons]
    omega

end Schemata.Config
