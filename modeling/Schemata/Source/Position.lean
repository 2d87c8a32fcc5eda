/-!
# Positions in a source text

Lines and columns count from one, offsets from zero, and all three count
characters. Only a line feed ends a line. A range that is read back from its
written form may hold any integers, so positions do too.
-/

namespace Schemata.Source

/-- A place between two characters of a text. -/
structure Position where
  line : Int
  column : Int
  offset : Int
deriving DecidableEq, Repr, Inhabited

namespace Position

/-- The start of a text. -/
def start : Position :=
  ⟨1, 1, 0⟩

/-- The position after one more character. -/
def after (position : Position) (c : Char) : Position :=
  if c = '\n' then ⟨position.line + 1, 1, position.offset + 1⟩
  else ⟨position.line, position.column + 1, position.offset + 1⟩

/-- The position after a stretch of text. -/
def past (position : Position) (text : List Char) : Position :=
  text.foldl after position

@[simp] theorem past_nil (position : Position) : position.past [] = position :=
  rfl

@[simp] theorem past_cons (position : Position) (c : Char) (text : List Char) :
    position.past (c :: text) = (position.after c).past text :=
  rfl

theorem past_append (position : Position) (text more : List Char) :
    position.past (text ++ more) = (position.past text).past more :=
  List.foldl_append

end Position

/-- The text from `first` up to `last`. -/
structure Range where
  first : Position
  last : Position
deriving DecidableEq, Repr, Inhabited

/-- The empty range at the start of a text. -/
def Range.start : Range :=
  ⟨.start, .start⟩

end Schemata.Source
