import Schemata.Source.Position
import Schemata.Text.Numeral

/-!
# Written locations

A location is a range in one of several sources. It is written as seven
integers with semicolons between them: the line and column of both ends, then
both offsets, then the number of the source.
-/

namespace Schemata.Source

/-- A range in the source of the given number. -/
structure Location where
  range : Range
  source : Int
deriving DecidableEq, Repr, Inhabited

/-- A location in its written form. -/
abbrev LocationCode := String

namespace Location

/-- The location that stands in for a missing or malformed one. -/
def start : Location :=
  ⟨.start, 0⟩

/-- The seven integers of a location in the order they are written. -/
def fields (location : Location) : List Int :=
  [location.range.first.line, location.range.first.column,
    location.range.last.line, location.range.last.column,
    location.range.first.offset, location.range.last.offset, location.source]

/-- The location with the given seven integers. -/
def ofFields? : List Int → Option Location
  | [line, column, lastLine, lastColumn, offset, lastOffset, source] =>
      some ⟨⟨⟨line, column, offset⟩, ⟨lastLine, lastColumn, lastOffset⟩⟩, source⟩
  | _ => none

/-- Write a location. -/
def code (location : Location) : LocationCode :=
  String.ofList ([';'].intercalate (location.fields.map Text.integer))

/-- Read a location that consists of exactly seven integers. -/
def ofCode? (code : LocationCode) : Option Location := do
  let fields ← (code.toList.splitOn ';').mapM fun field => (Text.readInteger field).toOption
  ofFields? fields

/-- Read a location, falling back to the start of the first source. -/
def ofCode (code : Option LocationCode) : Location :=
  (code.bind ofCode?).getD start

@[simp] theorem ofFields?_fields (location : Location) :
    ofFields? location.fields = some location :=
  rfl

end Location

/-- The written form of a range of the first source. -/
def Range.code (range : Range) : LocationCode :=
  Location.code ⟨range, 0⟩

end Schemata.Source
