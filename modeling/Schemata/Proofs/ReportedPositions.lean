import Schemata.Proofs.Citations
import Schemata.Proofs.Positions
import Schemata.Proofs.WrittenLocations
import Schemata.Report

/-!
# Positions in a report

A report is made of every outcome, and each violation has a line of it. The line starts with the
path of the source and with the position of the violation, and the line and the column of that
position can be counted in the text.
-/

namespace Schemata.Analysis

open Schema Source Json

/-! ### Positions in the text -/

/-- The ranges of a document are exact in its text. -/
theorem exactRange_of_isRange {text : String} {document : Node} {range : Range}
    (hread : Json.read text = .ok document) (h : IsRange document range) :
    ExactRange text.toList range := by
  have hdocument := spells_of_read hread
  cases h with
  | value hnode => exact (hdocument.occurs hnode).range
  | member hnode hfound => exact (hdocument.occurs hnode).located.member _ hfound
  | key hnode hfound => exact (hdocument.occurs hnode).located.key _ hfound

theorem readable_of_exactRange {text : List Char} {range : Range} (h : ExactRange text range)
    (hlength : text.length + 1 < 10 ^ Text.digitLimit) : Location.Readable ⟨range, 0⟩ := by
  obtain ⟨hline, hcolumn, hoffset⟩ := h.1.natAbs_le
  obtain ⟨hlastLine, hlastColumn, hlastOffset⟩ := h.2.natAbs_le
  simp only [Location.Readable, Location.fields, List.forall_mem_cons, List.not_mem_nil]
  refine ⟨?_, ?_, ?_, ?_, ?_, ?_, ?_, fun _ h => h.elim⟩
  all_goals omega

/-- A range of the one source is shown by its path and by where the range starts. -/
theorem position_of_range {path : String} {range : Range} {code : LocationCode}
    (hcode : Location.ofCode (some code) = ⟨range, 0⟩) :
    Report.position (some code) [path] = .ok (path ++ ":" ++ Text.integerText range.first.line ++
      ":" ++ Text.integerText range.first.column) := by
  rw [Report.position, hcode]
  rfl

/-- Without a range, or with one that can be read back, there is a position to show. -/
theorem exists_position {path : String} {loc : Option LocationCode}
    (h : ∀ code ∈ loc, ∃ range, Location.ofCode (some code) = ⟨range, 0⟩) :
    ∃ place, Report.position loc [path] = .ok place := by
  cases loc with
  | none => exact ⟨_, rfl⟩
  | some code =>
      obtain ⟨range, hrange⟩ := h code rfl
      exact ⟨_, position_of_range hrange⟩

example : Report.position (some (Range.code ⟨⟨2, 2, 3⟩, ⟨2, 12, 13⟩⟩)) ["s.json"] =
    .ok "s.json:2:2" := by
  decide +kernel

/-! ### Lines of the report -/

theorem exists_mapM_eq_ok {α β : Type} {f : α → Except Failure β} {made : α → β → Prop}
    {values : List α} (h : ∀ value ∈ values, ∃ result, f value = .ok result ∧ made value result) :
    ∃ results, values.mapM f = .ok results ∧ List.Forall₂ made values results := by
  induction values with
  | nil => exact ⟨[], rfl, .nil⟩
  | cons value rest ih =>
      obtain ⟨⟨result, hresult, hmade⟩, hrest⟩ := List.forall_mem_cons.mp h
      obtain ⟨results, hresults, hall⟩ := ih hrest
      refine ⟨result :: results, ?_, .cons hmade hall⟩
      rw [List.mapM_cons, hresult, hresults]
      rfl

/-- If all types and violations have positions, a report is made, and each violation has a line
of it, that starts with the position. -/
theorem exists_report {outcome : Outcome} {placed : Violation → String → Prop}
    (htypes : ∀ type ∈ outcome.service.types,
      ∃ place, Report.position type.loc outcome.service.sourcePaths = .ok place)
    (hviolations : ∀ violation ∈ outcome.violations, ∃ place,
      Report.position violation.range outcome.service.sourcePaths = .ok place ∧
        placed violation place) :
    ∃ types lines, outcome.report = .ok (Report.entriesText outcome.service types ++
        Report.heading "Violations" outcome.violations.length ++ lines.flatten) ∧
      List.Forall₂ (fun violation (line : Str) => ∃ place, placed violation place ∧
        line = "  " ++ place ++ " " ++ violation.severity.name ++ " " ++ violation.code.name ++
          ": " ++ violation.message ++ "\n") outcome.violations lines := by
  have htypeLines : ∀ type ∈ outcome.service.types, ∃ line,
      Report.typeLines outcome.service.sourcePaths type = .ok line ∧ True := by
    intro type htype
    obtain ⟨place, hplace⟩ := htypes type htype
    exact ⟨_, by rw [Report.typeLines, hplace]; rfl, trivial⟩
  have hviolationLines : ∀ violation ∈ outcome.violations, ∃ line,
      Report.violationLine outcome.service.sourcePaths violation = .ok line ∧
        ∃ place, placed violation place ∧
          line = "  " ++ place ++ " " ++ violation.severity.name ++ " " ++ violation.code.name ++
            ": " ++ violation.message ++ "\n" := by
    intro violation hviolation
    obtain ⟨place, hplace, hplaced⟩ := hviolations violation hviolation
    exact ⟨_, by rw [Report.violationLine, hplace]; rfl, place, hplaced, rfl⟩
  obtain ⟨types, hmade, -⟩ := exists_mapM_eq_ok htypeLines
  obtain ⟨lines, hlines, hall⟩ := exists_mapM_eq_ok hviolationLines
  refine ⟨types, lines, ?_, hall⟩
  rw [Outcome.report, hmade, hlines]
  rfl

theorem mem_codes {outcome : Outcome} {code : LocationCode} :
    code ∈ outcome.codes ↔ .range code ∈ outcome.data := by
  simp only [Outcome.codes, List.mem_filterMap]
  constructor
  · rintro ⟨datum, hdatum, hcode⟩
    cases datum with
    | range other =>
        obtain rfl := Option.some.inj hcode
        exact hdatum
    | text | number => cases hcode
  · exact fun hdatum => ⟨_, hdatum, rfl⟩

theorem mem_codes_of_loc {outcome : Outcome} {type : ObjectType} {code : LocationCode}
    (htype : type ∈ outcome.service.types) (hcode : type.loc = some code) :
    code ∈ outcome.codes := by
  have hdata : .range code ∈ type.data := by simp [ObjectType.data, locData, hcode]
  have htypes := List.mem_flatMap.mpr ⟨type, htype, hdata⟩
  simp only [mem_codes, Outcome.data, Service.data, List.mem_append]
  exact .inl (.inl (.inl (.inr htypes)))

/-- Every written range of an outcome can be read back, and is then the range of a value, a
member or a key of the document, in the first source. Every violation has a range. The report is
made, and each violation has a line of it that starts with the path of the source, the line that
is one more than the line feeds before the range, and the column that is one more than the
characters since the last of them. A text is never so long that a position in it has more digits
than can be read. -/
theorem outcome_cites_document {text path : String} {options : Options} {outcome : Outcome}
    (houtcome : convertText text path options = .ok outcome)
    (hlength : text.length + 1 < 10 ^ Text.digitLimit) :
    ∃ document, Json.read text = .ok document ∧
      (∀ code ∈ outcome.codes, ∃ range, IsRange document range ∧
        Location.ofCode (some code) = ⟨range, 0⟩) ∧
      ∃ types lines, outcome.report = .ok (Report.entriesText outcome.service types ++
          Report.heading "Violations" outcome.violations.length ++ lines.flatten) ∧
        List.Forall₂ (fun violation (line : Str) => ∃ place : String,
          (∃ code range, violation.range = some code ∧ IsRange document range ∧
            Location.ofCode (some code) = ⟨range, 0⟩ ∧
            ∃ offset start : Nat, range.first.offset = offset ∧
              LineStart text.toList offset start ∧
              place = path ++ ":" ++
                Text.integerText (1 + (text.toList.take offset).count '\n') ++ ":" ++
                Text.integerText (offset - start + 1)) ∧
          line = "  " ++ place ++ " " ++ violation.severity.name ++ " " ++
            violation.code.name ++ ": " ++ violation.message ++ "\n") outcome.violations lines := by
  obtain ⟨document, converted, context, label, hread, hreturns, houtcomeOf⟩ :=
    convertText_eq_ok houtcome
  obtain ⟨hdata, hviolations⟩ := convertText_citing hread houtcome
  have hpaths : outcome.service.sourcePaths = [path] := by
    rw [houtcomeOf]
    rfl
  have hrange : ∀ code, Cited (Setting.naming ⟨document, path, options⟩) (.range code) →
      ∃ range, IsRange document range ∧ ExactRange text.toList range ∧
        Location.ofCode (some code) = ⟨range, 0⟩ := by
    rintro _ ⟨range, hrange, rfl⟩
    have hexact := exactRange_of_isRange hread hrange
    have hreadable := readable_of_exactRange hexact (by rwa [String.length_toList])
    exact ⟨range, hrange, hexact, Location.ofCode_code hreadable⟩
  refine ⟨document, hread, fun code hcode => ?_,
    exists_report (fun type htype => ?_) fun violation hviolation => ?_⟩
  · obtain ⟨range, hisRange, -, hlocation⟩ := hrange code (hdata _ (mem_codes.mp hcode))
    exact ⟨range, hisRange, hlocation⟩
  · rw [hpaths]
    refine exists_position fun code hcode => ?_
    have hmem := mem_codes.mp (mem_codes_of_loc htype hcode)
    obtain ⟨range, -, -, hlocation⟩ := hrange code (hdata _ hmem)
    exact ⟨range, hlocation⟩
  · obtain ⟨code, hcode, hcited⟩ := hviolations violation hviolation
    obtain ⟨range, hisRange, ⟨hfirst, -⟩, hlocation⟩ := hrange code hcited
    obtain ⟨offset, start, -, hstart, hfirst⟩ := hfirst
    refine ⟨_, ?_, code, range, hcode, hisRange, hlocation, offset, start, by rw [hfirst], hstart,
      rfl⟩
    rw [hcode, hpaths, position_of_range hlocation, hfirst]

namespace AnyOfOnSecondLine

/-- A schema that is not converted, with the keyword for that on the second line. -/
def text : String :=
  "\x7b\n \"anyOf\":[]\n\x7d"

/-- The keyword with its value. -/
def member : Member Node :=
  ⟨⟨"anyOf", "\"anyOf\"", ⟨⟨2, 2, 3⟩, ⟨2, 9, 10⟩⟩⟩, .array ⟨⟨2, 10, 11⟩, ⟨2, 12, 13⟩⟩ []⟩

def tree : Node :=
  .object ⟨⟨1, 1, 0⟩, ⟨3, 2, 15⟩⟩ [member]

theorem read_text : Json.read text = .ok tree := by
  cbv

theorem length_text : text.length + 1 < 10 ^ Text.digitLimit := by
  decide +kernel

/-- The one violation is reported at the keyword. -/
theorem exists_outcome : ∃ outcome, convertText text "s.json" = .ok outcome ∧
    outcome.violations = [Problem.anyOf.violation (some member.range.code) "s.json"] :=
  exists_convertText read_text (by decide +kernel)

theorem outcome_cites_document_anyOf : ∃ outcome, ∃ report : Str, ∃ violation code range,
    convertText text "s.json" = .ok outcome ∧ text.length + 1 < 10 ^ Text.digitLimit ∧
      outcome.violations = [violation] ∧ violation.range = some code ∧ IsRange tree range ∧
      Location.ofCode (some code) = ⟨range, 0⟩ ∧
      ∃ offset start : Nat, range.first.offset = offset ∧ LineStart text.toList offset start ∧
        outcome.report = .ok (report ++ "  " ++ Str.ofString ("s.json" ++ ":" ++
          Text.integerText (1 + (text.toList.take offset).count '\n') ++ ":" ++
          Text.integerText (offset - start + 1)) ++ " " ++ violation.severity.name ++ " " ++
          violation.code.name ++ ": " ++ violation.message ++ "\n") := by
  obtain ⟨outcome, houtcome, hviolations⟩ := exists_outcome
  obtain ⟨document, hread, -, types, lines, hreport, hlines⟩ :=
    outcome_cites_document houtcome length_text
  obtain rfl : tree = document := Except.ok.inj (read_text.symm.trans hread)
  rw [hviolations] at hlines
  obtain _ | ⟨hline, _ | -⟩ := hlines
  obtain ⟨place, ⟨code, range, hcode, hrange, hlocation, offset, start, hoffset, hstart, rfl⟩,
    rfl⟩ := hline
  refine ⟨outcome, Report.entriesText outcome.service types ++
    Report.heading "Violations" outcome.violations.length, _, code, range, houtcome, length_text,
    hviolations, hcode, hrange, hlocation, offset, start, hoffset, hstart, ?_⟩
  rw [hreport]
  simp only [List.flatten_cons, List.flatten_nil, List.append_nil, List.append_assoc]

end AnyOfOnSecondLine

end Schemata.Analysis
