import Schemata.Text.Character

/-!
# Lines and paragraphs

Files may end their lines with a carriage return, a line feed, or both in this order;
reading a file turns each of them into a line feed. A text falls into paragraphs at its
blank lines. A paragraph carries no blanks at its ends, and stretches of blanks alone are
no paragraphs.

Terminals take some texts as commands, to change colours for instance. Such a command is
an escape character and an opening bracket, then any digits, semicolons and question
marks, then an ASCII letter. Text that is shown where no terminal reads it goes without
commands.
-/

namespace Schemata.Text

/-! ### Line ends -/

/-- A text with line feeds for all line ends. -/
def lineFeeds : List Char → List Char
  | [] => []
  | '\r' :: '\n' :: rest => '\n' :: lineFeeds rest
  | '\r' :: rest => '\n' :: lineFeeds rest
  | c :: rest => c :: lineFeeds rest

/-- The text of a file whose lines may end in any way. -/
def unifyLines (text : String) : String :=
  String.ofList (lineFeeds text.toList)

/-! ### Paragraphs -/

/-- Whether a code point is a blank. -/
def isSpace (c : CodePoint) : Bool :=
  c.isIn isBlank

/-- The stretches of lines between blank lines. -/
def blocks (text : Str) : List (List Str) :=
  (text.splitOn (.char '\n')).splitOnP fun line => line.all isSpace

/-- The paragraphs of a text, in order. -/
def paragraphs (text : Str) : List Str :=
  ((blocks text).map fun lines => trim isSpace ([.char '\n'].intercalate lines)).filter
    fun paragraph => !paragraph.isEmpty

/-! ### Terminal commands -/

/-- Whether a character may stand inside a command. -/
def isStyleParameter (c : Char) : Bool :=
  c = ';' || c = '?' || ('0' ≤ c && c ≤ '9')

/-- Whether a character ends a command. -/
def isStyleEnd (c : Char) : Bool :=
  ('a' ≤ c && c ≤ 'z') || ('A' ≤ c && c ≤ 'Z')

/-- How long a command is from its bracket on, if the text starts with one. -/
def styleLength? : Str → Option Nat
  | .char '[' :: rest =>
      let parameters := rest.takeWhile (·.isIn isStyleParameter)
      match rest.drop parameters.length with
      | c :: _ => if c.isIn isStyleEnd then some (parameters.length + 2) else none
      | [] => none
  | _ => none

/-- A text without commands. -/
def plain : Str → Str
  | [] => []
  | c :: rest =>
      match if c = .char '\x1b' then styleLength? rest else none with
      | some length => plain (rest.drop length)
      | none => c :: plain rest
termination_by text => text.length
decreasing_by
  · simp only [List.length_drop, List.length_cons]
    omega
  · simp only [List.length_cons]
    omega

end Schemata.Text
