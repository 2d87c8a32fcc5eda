import Schemata.Proofs.WrittenIntegers
import Schemata.Proofs.WrittenLocations

/-!
# Texts of locations

A location is read from exactly seven integers with semicolons between them, in more spellings
than it is written in. Any other text stands for the start of the first source. What is read is
read again from the spelling that it is written in.
-/

namespace Schemata.Source

open Text (WritesInteger)

/-- A text of seven fields stands for a location: both ends by line and column, then both offsets,
then the source. -/
def SpellsLocation (code : LocationCode) (location : Location) : Prop :=
  ∃ line column lastLine lastColumn offset lastOffset source : List Char,
    code.toList.splitOn ';' =
      [line, column, lastLine, lastColumn, offset, lastOffset, source] ∧
    WritesInteger line location.range.first.line ∧
    WritesInteger column location.range.first.column ∧
    WritesInteger lastLine location.range.last.line ∧
    WritesInteger lastColumn location.range.last.column ∧
    WritesInteger offset location.range.first.offset ∧
    WritesInteger lastOffset location.range.last.offset ∧
    WritesInteger source location.source

namespace Location

variable {code : LocationCode} {location : Location}

theorem mapM_readInteger_eq_some_iff {fields : List (List Char)} {values : List Int} :
    fields.mapM (fun field => (Text.readInteger field).toOption) = some values ↔
      List.Forall₂ WritesInteger fields values := by
  induction fields generalizing values with
  | nil => simp [eq_comm]
  | cons field rest ih =>
      have hfield : ∀ n, (Text.readInteger field).toOption = some n ↔ WritesInteger field n := by
        intro n
        rw [← Text.readInteger_eq_ok_iff]
        cases Text.readInteger field <;> simp [Except.toOption]
      simp only [List.mapM_cons, Option.bind_eq_bind, Option.bind_eq_some_iff, hfield, ih]
      constructor
      · rintro ⟨n, hn, others, hothers, heq⟩
        obtain rfl := Option.some.inj heq
        exact .cons hn hothers
      · intro h
        cases h with
        | cons hn hothers => exact ⟨_, hn, _, hothers, rfl⟩

theorem ofFields?_eq_some_iff {values : List Int} :
    ofFields? values = some location ↔ values = location.fields := by
  constructor
  · intro h
    unfold ofFields? at h
    split at h
    · obtain rfl := Option.some.inj h
      rfl
    · cases h
  · rintro rfl
    exact ofFields?_fields location

theorem ofCode?_eq_some_iff : ofCode? code = some location ↔ SpellsLocation code location := by
  simp only [ofCode?, Option.bind_eq_bind, Option.bind_eq_some_iff, mapM_readInteger_eq_some_iff,
    ofFields?_eq_some_iff, exists_eq_right, fields, List.forall₂_cons_right_iff,
    List.forall₂_nil_right_iff, SpellsLocation]
  grind

theorem ofCode_of_spells (h : SpellsLocation code location) : ofCode (some code) = location := by
  rw [ofCode, Option.bind_some, ofCode?_eq_some_iff.mpr h, Option.getD_some]

theorem ofCode_of_not_spells (h : ¬ ∃ location, SpellsLocation code location) :
    ofCode (some code) = start := by
  have hnone : ofCode? code = none :=
    Option.eq_none_iff_forall_ne_some.mpr fun location hlocation =>
      h ⟨location, ofCode?_eq_some_iff.mp hlocation⟩
  rw [ofCode, Option.bind_some, hnone, Option.getD_none]

/-- A location that is read can be written and read again. -/
theorem readable_of_spells (h : SpellsLocation code location) : location.Readable := by
  obtain ⟨line, column, lastLine, lastColumn, offset, lastOffset, source, -, hline, hcolumn,
    hlastLine, hlastColumn, hoffset, hlastOffset, hsource⟩ := h
  simp [Readable, fields, hline.natAbs_lt, hcolumn.natAbs_lt, hlastLine.natAbs_lt,
    hlastColumn.natAbs_lt, hoffset.natAbs_lt, hlastOffset.natAbs_lt, hsource.natAbs_lt]

end Location

/-- Locations are read back as they were written unless a number is too long, and are told apart
by what is written. A text that spells a location is read as that one, which is then also read
from the way that it is written; all other texts are read as the start of the first source. -/
theorem ofCode_inverse_code :
    (∀ location : Location, location.Readable →
      Location.ofCode (some location.code) = location) ∧
    Function.Injective Location.code ∧
    (∀ code location, SpellsLocation code location →
      Location.ofCode (some code) = location ∧
        Location.ofCode (some (Location.ofCode (some code)).code) =
          Location.ofCode (some code)) ∧
    ∀ code, (¬ ∃ location, SpellsLocation code location) →
      Location.ofCode (some code) = Location.start := by
  refine ⟨fun _ => Location.ofCode_code, Location.code_injective, fun code location h => ?_,
    fun _ => Location.ofCode_of_not_spells⟩
  rw [Location.ofCode_of_spells h]
  exact ⟨rfl, Location.ofCode_code (Location.readable_of_spells h)⟩

namespace LooseSpelling

/-- The location `1;2;3;4;5;-6;7`, spelled with blanks, a plus sign, leading zeros, an underscore
and a digit of another script. -/
def sample : LocationCode :=
  " 1;+2;03;\u0664;5;-0_6;7 "

def location : Location :=
  ⟨⟨⟨1, 2, 5⟩, ⟨3, 4, -6⟩⟩, 7⟩

theorem spells_sample : SpellsLocation sample location :=
  ⟨_, _, _, _, _, _, _, rfl, Text.readInteger_eq_ok_iff.mp rfl, Text.readInteger_eq_ok_iff.mp rfl,
    Text.readInteger_eq_ok_iff.mp rfl, Text.readInteger_eq_ok_iff.mp rfl,
    Text.readInteger_eq_ok_iff.mp rfl, Text.readInteger_eq_ok_iff.mp rfl,
    Text.readInteger_eq_ok_iff.mp rfl⟩

/-- A text with six fields spells nothing. -/
theorem not_spells_six : ¬ ∃ location, SpellsLocation "1;2;3;4;5;6" location := by
  rintro ⟨_, _, _, _, _, _, _, _, hsplit, -⟩
  have hlength : ("1;2;3;4;5;6".toList.splitOn ';').length = 6 := by decide +kernel
  rw [hsplit] at hlength
  exact absurd hlength (by simp)

theorem ofCode_looseSpelling :
    location.Readable ∧ Location.ofCode (some location.code) = location ∧
    SpellsLocation sample location ∧ Location.ofCode (some sample) = location ∧
    Location.ofCode (some (Location.ofCode (some sample)).code) = Location.ofCode (some sample) ∧
    (¬ ∃ location, SpellsLocation "1;2;3;4;5;6" location) ∧
    Location.ofCode (some "1;2;3;4;5;6") = Location.start := by
  obtain ⟨hwritten, -, hspelled, hother⟩ := ofCode_inverse_code
  have hreadable := Location.readable_of_spells spells_sample
  obtain ⟨hsample, hagain⟩ := hspelled sample location spells_sample
  exact ⟨hreadable, hwritten location hreadable, spells_sample, hsample, hagain, not_spells_six,
    hother _ not_spells_six⟩

end LooseSpelling

end Schemata.Source
