import Schemata.Text.Character

/-!
# Escapes in strings

Inside quotes a backslash starts an escape: a letter that names a character, or
`u` and the four hexadecimal digits of a 16-bit unit. Characters above U+FFFF
are written as two units, a high and a low surrogate. A surrogate without its
partner stands for itself.
-/

namespace Schemata.Json

/-- Why an escape has no meaning. -/
inductive EscapeFault
  | unknown
  | number
deriving DecidableEq, Repr

def EscapeFault.message : EscapeFault → String
  | .unknown => "Invalid \\escape"
  | .number => "Invalid \\uXXXX escape"

/-- The character that a letter after a backslash names. -/
def namedEscape? : Char → Option Char
  | '"' => some '"'
  | '\\' => some '\\'
  | '/' => some '/'
  | 'b' => some '\x08'
  | 'f' => some '\x0c'
  | 'n' => some '\n'
  | 'r' => some '\r'
  | 't' => some '\t'
  | _ => none

/-- The characters and 16-bit units that the text of a string stands for. -/
def units : List Char → Except EscapeFault Str
  | [] => .ok []
  | '\\' :: 'u' :: a :: b :: c :: d :: rest =>
      match Text.hexQuad? a b c d with
      | some unit => (units rest).map (.ofNat unit :: ·)
      | none => .error .number
  | '\\' :: 'u' :: _ => .error .number
  | '\\' :: c :: rest =>
      match namedEscape? c with
      | some named => (units rest).map (.char named :: ·)
      | none => .error .unknown
  | '\\' :: [] => .error .unknown
  | c :: rest => (units rest).map (.char c :: ·)

/-- The character of a high surrogate and a low one. -/
def pairOf? : CodePoint → CodePoint → Option Char
  | .surrogate high, .surrogate low =>
      if high.val < 0x400 ∧ 0x400 ≤ low.val then
        some (Char.ofNat (0x10000 + high.val * 0x400 + (low.val - 0x400)))
      else none
  | _, _ => none

/-- A string with its pairs of surrogates joined. -/
def joinPairs : Str → Str
  | [] => []
  | [c] => [c]
  | c :: next :: rest =>
      match pairOf? c next with
      | some paired => .char paired :: joinPairs rest
      | none => c :: joinPairs (next :: rest)

/-- The string that the text between the quotes stands for. -/
def unescape (text : List Char) : Except EscapeFault Str :=
  (units text).map joinPairs

/-- A 16-bit unit as an escape. -/
def numberedEscape (unit : Nat) : List Char :=
  '\\' :: 'u' :: Text.hex 4 unit

/-- A character in a string written with ASCII characters alone. -/
def escapeChar (c : Char) : List Char :=
  if c = '"' || c = '\\' then ['\\', c]
  else if c = '\n' then ['\\', 'n']
  else if c = '\r' then ['\\', 'r']
  else if c = '\t' then ['\\', 't']
  else if c = '\x08' then ['\\', 'b']
  else if c = '\x0c' then ['\\', 'f']
  else if ' ' ≤ c && c ≤ '~' then [c]
  else if c.toNat < 0x10000 then numberedEscape c.toNat
  else
    let offset := c.toNat - 0x10000
    numberedEscape (0xD800 + offset / 0x400) ++ numberedEscape (0xDC00 + offset % 0x400)

/-- A code point in a string written with ASCII characters alone. -/
def escapeCodePoint : CodePoint → List Char
  | .char c => escapeChar c
  | .surrogate index => numberedEscape (0xD800 + index)

/-- A string in quotes, written with ASCII characters alone. -/
def escape (text : Str) : List Char :=
  '"' :: text.flatMap escapeCodePoint ++ ['"']

end Schemata.Json
