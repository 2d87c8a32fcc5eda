import Schemata.Json.Escape
import Schemata.Json.Lexeme
import Schemata.Json.Node
import Schemata.Text.Printable

/-!
# Tokens and faults of a text

Tokens are the lexemes that are not blank, each with its range. A text that does
not fall into lexemes completely is refused at the first character that belongs
to none, whatever stands before it.
-/

namespace Schemata.Json

open Source

structure Token where
  kind : TokenKind
  text : List Char
  range : Range

/-- Why a text is not a JSON text. The texts are those of the token at fault. -/
inductive Fault
  | unexpectedCharacter (c : Char)
  | unexpectedToken (text : List Char)
  | missingKey (found : List Char)
  | missingColon (found : List Char)
  | unclosedObject (found : List Char)
  | unclosedArray (found : List Char)
  | trailingToken (text : List Char)
  | endOfInput
  | badEscape (fault : EscapeFault)
deriving DecidableEq, Repr

/-- Why a text is not read: it is malformed at a position, or a number in it has
no value. -/
inductive ReadError
  | malformed (fault : Fault) (position : Position)
  | number (fault : NumberFault)
deriving DecidableEq, Repr

def Fault.message : Fault → String
  | unexpectedCharacter c => "Unexpected character " ++ Text.quoted (Str.ofChars [c])
  | unexpectedToken text => "Unexpected token " ++ Text.quoted (Str.ofChars text)
  | missingKey found => "Expected a string key but found " ++ Text.quoted (Str.ofChars found)
  | missingColon found => "Expected ':' but found " ++ Text.quoted (Str.ofChars found)
  | unclosedObject found =>
      "Expected ',' or '\x7d' but found " ++ Text.quoted (Str.ofChars found)
  | unclosedArray found => "Expected ',' or ']' but found " ++ Text.quoted (Str.ofChars found)
  | trailingToken text => "Unexpected trailing token " ++ Text.quoted (Str.ofChars text)
  | endOfInput => "Unexpected end of input"
  | badEscape fault => "Invalid string literal: " ++ fault.message

def ReadError.message : ReadError → String
  | malformed fault position =>
      fault.message ++ " (line " ++ Text.integerText position.line ++
        ", column " ++ Text.integerText position.column ++ ")"
  | number fault => fault.message

/-- Give every token its range, for lexemes that start at the given position. -/
def place (position : Position) : List Lexeme → List Token
  | [] => []
  | .blank text :: rest => place (position.past text) rest
  | .token kind text :: rest =>
      ⟨kind, text, ⟨position, position.past text⟩⟩ :: place (position.past text) rest

/-- The tokens of a text. -/
def tokens (text : List Char) : Except ReadError (List Token) :=
  match scan text with
  | (lexemes, []) => .ok (place .start lexemes)
  | (lexemes, c :: _) =>
      .error (.malformed (.unexpectedCharacter c)
        (Position.start.past (lexemes.flatMap Lexeme.text)))

end Schemata.Json
