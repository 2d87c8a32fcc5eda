import Schemata.Proofs.Citations
import Schemata.Proofs.ConfiguredOptions
import Schemata.Proofs.EncodedData
import Schemata.Proofs.ReadFaults

/-!
# Outcomes as they are printed

The command prints an outcome as the text of its value, and that is a JSON text of the value
exactly if all numbers are finite: JSON has no text for an infinite number, nor for the value that
is no number. No written value holds an escape character, so there are no terminal commands to
leave out, and none holds a surrogate, so it can be put out.
-/

namespace Schemata

open Json Grammar Source

/-! ### Terminal commands -/

theorem Text.plain_of_notMem {text : Str} (h : .char '\x1b' ∉ text) : Text.plain text = text := by
  fun_induction Text.plain text with
  | case1 => rfl
  | case2 c rest length hlength _ =>
      have hc : c ≠ .char '\x1b' := fun heq => h (heq ▸ List.mem_cons_self)
      rw [dif_neg hc] at hlength
      cases hlength
  | case3 c rest _ ih => rw [ih fun hrest => h (List.mem_cons_of_mem c hrest)]

namespace Json.Grammar

theorem Blank.escape_notMem {text : List Char} (h : Blank text) : '\x1b' ∉ text := by
  intro hmem
  have hblank := h _ hmem
  simp at hblank

theorem Units.escape_notMem {text : List Char} {units : Str} (h : Units text units) :
    '\x1b' ∉ text := by
  induction h with
  | nil => exact List.not_mem_nil
  | @plain c rest _ hc _ _ _ ih =>
      refine List.not_mem_cons_of_ne_of_not_mem ?_ ih
      rintro rfl
      exact absurd hc (by decide)
  | @named letter c rest _ hletter _ ih =>
      have hne : '\x1b' ≠ letter := by
        rintro rfl
        cases hletter
      simp [hne, ih]
  | @numbered a b c d _ rest _ hunit _ ih =>
      have hdigits : '\x1b' ≠ a ∧ '\x1b' ≠ b ∧ '\x1b' ≠ c ∧ '\x1b' ≠ d := by
        refine ⟨?_, ?_, ?_, ?_⟩
        all_goals
          rintro rfl
          simp [Text.hexQuad?, Text.hexDigit?] at hunit
      simp [hdigits, ih]

theorem inQuotes_escape_notMem {body : List Char} {characters : Str}
    (h : Characters body characters) : '\x1b' ∉ inQuotes body := by
  obtain ⟨units, hunits, -⟩ := h
  simp [inQuotes, hunits.escape_notMem]

theorem IsScalar.escape_notMem {limit : Nat} {text : List Char} {value : Scalar}
    (h : IsScalar limit text value) : '\x1b' ∉ text := by
  cases h with
  | null | true | false => decide
  | number hnumber =>
      intro hmem
      rcases mem_isNumber hnumber hmem with hdigit | hmark
      · exact absurd hdigit (by decide)
      · simp [IsNumberMark] at hmark
  | string hbody => exact inQuotes_escape_notMem hbody

end Json.Grammar

/-! ### Numbers that are not finite -/

namespace Json

/-- A scalar that can be read is read from its own text, unless it is an infinite number. -/
theorem isScalar_or_infinite {limit : Nat} {value : Scalar} (hlimit : 0 < limit)
    (h : (Value.scalar value).Readable limit) :
    (IsScalar limit value.write.toList value ∧ (Value.scalar value).isFinite = true) ∨
      ∃ negative, value = .number (.float (.infinite negative)) := by
  cases hfinite : (Value.scalar value).isFinite with
  | true => exact .inl ⟨isScalar_write hlimit h hfinite, rfl⟩
  | false =>
      unfold Value.isFinite at hfinite
      split at hfinite
      next heq => cases heq
      next negative heq => exact .inr ⟨negative, Value.scalar.inj heq⟩
      next => cases hfinite

/-- What a scan leaves of a text. -/
def unscanned (text : List Char) : List Char :=
  (scan text).2

section Unscanned

variable {text rest space : List Char}

theorem unscanned_of_lexes {tokens : List Token} (h : Lexes .start text rest tokens) :
    unscanned (text ++ rest) = unscanned rest :=
  (congrArg Prod.snd h :)

theorem unscanned_mark {c : Char} (hc : isMark c = true) (rest : List Char) :
    unscanned (c :: rest) = unscanned rest :=
  unscanned_of_lexes (lexes_mark hc .start rest)

theorem unscanned_blank (h : Blank space) (rest : List Char) :
    unscanned (space ++ rest) = unscanned rest := by
  have hlex : lex .start (space ++ rest) = lex (Position.start.past space) rest := lex_blank h rest
  exact (congrArg Prod.snd hlex :)

theorem unscanned_key {name : Str} (hname : name.PairFree) (rest : List Char) :
    unscanned (escape name ++ rest) = unscanned rest :=
  unscanned_of_lexes (lexes_token (splitLexeme?_string (characters_escape hname) rest))

theorem unscanned_scalar {limit : Nat} {value : Scalar} (h : IsScalar limit text value)
    (hrest : Stops rest) : unscanned (text ++ rest) = unscanned rest := by
  have hlexes : ∃ tokens, Lexes .start text rest tokens :=
    let ⟨_, hlexes, _⟩ := lexes_scalar h hrest
    ⟨_, hlexes⟩
  obtain ⟨tokens, htokens⟩ := hlexes
  exact unscanned_of_lexes htokens

theorem unscanned_ne_nil (hne : text ≠ []) (hnone : splitLexeme? text = none) :
    unscanned text ≠ [] := by
  rw [unscanned, scan]
  split
  · exact hne
  next hfound =>
    rw [hnone] at hfound
    cases hfound

/-- No token starts at an infinite number. -/
theorem unscanned_infinite (negative : Bool) (rest : List Char) :
    unscanned ((Number.textWith "Infinity" (.float (.infinite negative))).toList ++ rest) ≠ [] := by
  cases negative with
  | false => exact unscanned_ne_nil (List.cons_ne_nil _ _) rfl
  | true => exact unscanned_ne_nil (List.cons_ne_nil _ _) rfl

/-- No token starts at the value that is no number. -/
theorem unscanned_nan (depth : Nat) (rest : List Char) :
    unscanned ((Value.nan.writeAt depth).toList ++ rest) ≠ [] := by
  rw [Value.writeAt]
  exact unscanned_ne_nil (List.cons_ne_nil _ _) rfl

/-- If a text is scanned to its end, these parts of a value are finite, and what follows is scanned
to its end. -/
def ScansFinite (text : List Char) (leaves : List Value) : Prop :=
  ∀ rest, Stops rest → unscanned (text ++ rest) = [] →
    (∀ leaf ∈ leaves, leaf.isFinite = true) ∧ unscanned rest = []

variable {more : List Char} {leaves others : List Value}

theorem scansFinite_nil : ScansFinite [] [] := fun _ _ hscan =>
  ⟨List.forall_mem_nil _, hscan⟩

theorem ScansFinite.append (h : ScansFinite text leaves) (hmore : ScansFinite more others)
    (hstops : ∀ {rest}, Stops (more ++ rest)) : ScansFinite (text ++ more) (leaves ++ others) := by
  intro rest hrest hscan
  rw [List.append_assoc] at hscan
  obtain ⟨hleaves, hscan⟩ := h _ hstops hscan
  obtain ⟨hothers, hscan⟩ := hmore rest hrest hscan
  exact ⟨List.forall_mem_append.mpr ⟨hleaves, hothers⟩, hscan⟩

theorem ScansFinite.mark {c : Char} (hc : isMark c = true) (h : ScansFinite text leaves) :
    ScansFinite (c :: text) leaves := by
  intro rest hrest hscan
  rw [List.cons_append, unscanned_mark hc] at hscan
  exact h rest hrest hscan

theorem ScansFinite.blank (hspace : Blank space) (h : ScansFinite text leaves) :
    ScansFinite (space ++ text) leaves := by
  intro rest hrest hscan
  rw [List.append_assoc, unscanned_blank hspace] at hscan
  exact h rest hrest hscan

theorem scansFinite_member {name : Str} (hname : name.PairFree) (h : ScansFinite text leaves) :
    ScansFinite (escape name ++ ':' :: ' ' :: text) (.string name :: leaves) := by
  intro rest hrest hscan
  rw [List.append_assoc, unscanned_key hname] at hscan
  have hspace : Blank [' '] := by simp [Blank]
  obtain ⟨hleaves, hscan⟩ := (h.blank hspace).mark (c := ':') rfl rest hrest hscan
  exact ⟨List.forall_mem_cons.mpr ⟨rfl, hleaves⟩, hscan⟩

theorem scansFinite_scalar {limit : Nat} {value : Scalar} (hlimit : 0 < limit)
    (h : (Value.scalar value).Readable limit) :
    ScansFinite value.write.toList [.scalar value] := by
  intro rest hrest hscan
  rcases isScalar_or_infinite hlimit h with ⟨hscalar, hfinite⟩ | ⟨negative, rfl⟩
  · rw [unscanned_scalar hscalar hrest] at hscan
    exact ⟨List.forall_mem_singleton.mpr hfinite, hscan⟩
  · exact absurd hscan (unscanned_infinite negative rest)

theorem stops_items (depth : Nat) (items : List Value) :
    Stops ((writeItems (depth + 1) items).toList ++ (newline depth).toList ++ [']'] ++ rest) := by
  simp only [List.append_assoc]
  cases items with
  | nil =>
      have hclosing := stops_mark (c := ']') rfl rest
      simpa [writeItems] using hclosing.blank_append (blank_newline depth)
  | cons item others =>
      simp only [writeItems, String.toList_append, List.append_assoc]
      exact stops_mark (c := ',') rfl _

theorem stops_members (depth : Nat) (members : List (Str × Value)) :
    Stops ((writeMembers (depth + 1) members).toList ++ (newline depth).toList ++ ['\x7d'] ++
      rest) := by
  simp only [List.append_assoc]
  cases members with
  | nil =>
      have hclosing := stops_mark (c := '\x7d') rfl rest
      simpa [writeMembers] using hclosing.blank_append (blank_newline depth)
  | cons member others =>
      simp only [writeMembers, String.toList_append, List.append_assoc]
      exact stops_mark (c := ',') rfl _

end Unscanned

section Values

variable {limit : Nat}

-- The text of items and that of members go on to the closing bracket, so that what follows a
-- value in them is never nothing, and stops it whatever comes after the container.
mutual

theorem scansFinite_value (value : Value) (hlimit : 0 < limit) (h : value.AllReadable limit)
    (depth : Nat) : ScansFinite (value.writeAt depth).toList value.leaves := by
  match value with
  | .scalar value => exact scansFinite_scalar hlimit (every_scalar.mp h)
  | .nan => exact fun rest _ hscan => absurd hscan (unscanned_nan depth rest)
  | .array [] =>
      have hclosing := scansFinite_nil.mark (c := ']') rfl
      simpa [Value.writeAt, Value.leaves, itemLeaves] using hclosing.mark (c := '[') rfl
  | .array (first :: rest) =>
      obtain ⟨hvalue, hothers⟩ := everyItem_cons.mp h
      have hfirst := scansFinite_value first hlimit hvalue (depth + 1)
      have hrest := scansFinite_items rest hlimit hothers depth
      have hparts :=
        (hfirst.append hrest (stops_items depth rest)).blank (blank_newline (depth + 1))
      simpa [Value.writeAt, Value.leaves, itemLeaves] using hparts.mark (c := '[') rfl
  | .object [] =>
      have hclosing := scansFinite_nil.mark (c := '\x7d') rfl
      simpa [Value.writeAt, Value.leaves, memberLeaves] using hclosing.mark (c := '\x7b') rfl
  | .object ((name, first) :: rest) =>
      obtain ⟨hname, hvalue, hothers⟩ := everyMember_cons.mp h
      have hfirst := scansFinite_member hname (scansFinite_value first hlimit hvalue (depth + 1))
      have hrest := scansFinite_members rest hlimit hothers depth
      have hparts :=
        (hfirst.append hrest (stops_members depth rest)).blank (blank_newline (depth + 1))
      simpa [Value.writeAt, Scalar.write, Value.leaves, memberLeaves] using
        hparts.mark (c := '\x7b') rfl

theorem scansFinite_items (items : List Value) (hlimit : 0 < limit)
    (h : EveryItem (Value.Readable limit) items) (depth : Nat) :
    ScansFinite ((writeItems (depth + 1) items).toList ++ (newline depth).toList ++ [']'])
      (itemLeaves items) := by
  match items with
  | [] => exact (scansFinite_nil.mark (c := ']') rfl).blank (blank_newline depth)
  | item :: rest =>
      obtain ⟨hvalue, hothers⟩ := everyItem_cons.mp h
      have hitem := scansFinite_value item hlimit hvalue (depth + 1)
      have hrest := scansFinite_items rest hlimit hothers depth
      have hparts := (hitem.append hrest (stops_items depth rest)).blank (blank_newline (depth + 1))
      simpa [writeItems, itemLeaves] using hparts.mark (c := ',') rfl

theorem scansFinite_members (members : List (Str × Value)) (hlimit : 0 < limit)
    (h : EveryMember (Value.Readable limit) members) (depth : Nat) :
    ScansFinite ((writeMembers (depth + 1) members).toList ++ (newline depth).toList ++ ['\x7d'])
      (memberLeaves members) := by
  match members with
  | [] => exact (scansFinite_nil.mark (c := '\x7d') rfl).blank (blank_newline depth)
  | (name, value) :: rest =>
      obtain ⟨hname, hvalue, hothers⟩ := everyMember_cons.mp h
      have hmember := scansFinite_member hname (scansFinite_value value hlimit hvalue (depth + 1))
      have hrest := scansFinite_members rest hlimit hothers depth
      have hparts :=
        (hmember.append hrest (stops_members depth rest)).blank (blank_newline (depth + 1))
      simpa [writeMembers, Scalar.write, memberLeaves] using hparts.mark (c := ',') rfl

end

theorem newline_escape_notMem (depth : Nat) : '\x1b' ∉ (newline depth).toList :=
  (blank_newline depth).escape_notMem

theorem key_escape_notMem {name : Str} (h : name.PairFree) : '\x1b' ∉ escape name :=
  inQuotes_escape_notMem (characters_escape h)

mutual

theorem escape_notMem_value (value : Value) (hlimit : 0 < limit) (h : value.AllReadable limit)
    (depth : Nat) : '\x1b' ∉ (value.writeAt depth).toList := by
  match value with
  | .scalar value =>
      rcases isScalar_or_infinite hlimit (every_scalar.mp h) with ⟨hscalar, -⟩ | ⟨negative, rfl⟩
      · exact hscalar.escape_notMem
      · cases negative <;> simp [Value.writeAt, Scalar.write, Number.textWith, Binary64.text]
  | .nan => simp [Value.writeAt]
  | .array [] => simp [Value.writeAt]
  | .array (first :: rest) =>
      obtain ⟨hvalue, hothers⟩ := everyItem_cons.mp h
      have hfirst := escape_notMem_value first hlimit hvalue (depth + 1)
      have hrest := escape_notMem_items rest hlimit hothers (depth + 1)
      simp [Value.writeAt, newline_escape_notMem, hfirst, hrest]
  | .object [] => simp [Value.writeAt]
  | .object ((name, first) :: rest) =>
      obtain ⟨hname, hvalue, hothers⟩ := everyMember_cons.mp h
      have hkey := key_escape_notMem hname
      have hfirst := escape_notMem_value first hlimit hvalue (depth + 1)
      have hrest := escape_notMem_members rest hlimit hothers (depth + 1)
      simp [Value.writeAt, Scalar.write, newline_escape_notMem, hkey, hfirst, hrest]

theorem escape_notMem_items (items : List Value) (hlimit : 0 < limit)
    (h : EveryItem (Value.Readable limit) items) (depth : Nat) :
    '\x1b' ∉ (writeItems depth items).toList := by
  match items with
  | [] => exact List.not_mem_nil
  | item :: rest =>
      obtain ⟨hvalue, hothers⟩ := everyItem_cons.mp h
      have hitem := escape_notMem_value item hlimit hvalue depth
      have hrest := escape_notMem_items rest hlimit hothers depth
      simp [writeItems, newline_escape_notMem, hitem, hrest]

theorem escape_notMem_members (members : List (Str × Value)) (hlimit : 0 < limit)
    (h : EveryMember (Value.Readable limit) members) (depth : Nat) :
    '\x1b' ∉ (writeMembers depth members).toList := by
  match members with
  | [] => exact List.not_mem_nil
  | (name, value) :: rest =>
      obtain ⟨hname, hvalue, hothers⟩ := everyMember_cons.mp h
      have hkey := key_escape_notMem hname
      have hmember := escape_notMem_value value hlimit hvalue depth
      have hrest := escape_notMem_members rest hlimit hothers depth
      simp [writeMembers, Scalar.write, newline_escape_notMem, hkey, hmember, hrest]

end

end Values

section Read

variable {value : Value} (h : value.AllReadable Text.digitLimit)
include h

/-- Terminal commands are no part of a written value. -/
theorem plain_write :
    Text.plain (Str.ofString (value.write ++ "\n")) = Str.ofString (value.write ++ "\n") := by
  have hvalue := escape_notMem_value value (by decide) h 0
  refine Text.plain_of_notMem ?_
  simpa [Str.ofString, Value.write] using hvalue

theorem read_write_of_finite (hfinite : ∀ leaf ∈ value.leaves, leaf.isFinite = true) :
    ∃ root, read (value.write ++ "\n") = .ok root ∧ root.value = value :=
  read_write fun leaf hleaf => ⟨h leaf hleaf, hfinite leaf hleaf⟩

theorem finite_of_read_write {root : Node} (hread : read (value.write ++ "\n") = .ok root) :
    ∀ leaf ∈ value.leaves, leaf.isFinite = true := by
  obtain ⟨found, hfound, -⟩ := read_eq_ok.mp hread
  have hscan : unscanned (value.write.toList ++ ['\n']) = [] := by
    have hall := congrArg Prod.snd (tokens_eq_ok_iff.mp hfound)
    rwa [String.toList_append] at hall
  have hline : Stops ['\n'] := .of_blank (by simp [Blank])
  exact (scansFinite_value value (by decide) h 0 _ hline hscan).1

end Read

end Json

/-! ### Runs of the command -/

theorem Analysis.hasText_of_isNumberOf {text : String} {document : Node} {number : Number}
    (hread : Json.read text = .ok document) (h : Schema.IsNumberOf document number) :
    HasText Text.digitLimit number := by
  obtain ⟨node, hnode, hscalar⟩ := h
  obtain ⟨_, body, _, -, hwritten⟩ := (spells_of_read hread).occurs hnode
  cases hwritten with
  | scalar hbody =>
      obtain rfl := Option.some.inj hscalar
      cases hbody with
      | number hnumber => exact ⟨body, hnumber⟩
  | emptyArray | array | emptyObject | object => cases hscalar

/-- What is taken from a document that was read can be read again, and so can the version. -/
theorem Analysis.readable_of_convertText {text path : String} {options : Options}
    {outcome : Outcome} (hoptions : options.Readable)
    (houtcome : convertText text path options = .ok outcome) :
    outcome.encode.AllReadable Text.digitLimit := by
  obtain ⟨document, _, _, _, hread, -, houtcomeOf⟩ := convertText_eq_ok houtcome
  have hnaming : (Setting.naming ⟨document, path, options⟩).PairFree := by
    refine ⟨pairFree_of_read hread, ?_⟩
    dsimp only [Setting.naming, Setting.rootName]
    split_ifs
    · exact hoptions.rootName
    · exact Str.pairFree_ofString _
    · exact Str.pairFree_ofString _
  refine readable_outcome (fun datum hdatum => ?_) ?_
  · have hcited := (convertText_citing hread houtcome).1 datum hdatum
    cases datum with
    | range => trivial
    | text => exact hcited hnaming
    | number => exact hasText_of_isNumberOf hread hcited
  · rw [houtcomeOf]
    exact hoptions.majorVersion

namespace Cli

open Analysis

/-- The text that a run shows or writes to a file. -/
def Ending.printed (ending : Ending) : String :=
  match ending.written with
  | some (_, text) => text
  | none => ending.stdout

@[simp] theorem encode_ofString (text : String) : encode text = .ok text := by
  have hnone : (Str.ofString text).dropWhile CodePoint.isChar = [] := by
    simp [List.dropWhile_eq_nil_iff, CodePoint.isChar, CodePoint.char?, Str.ofString]
  rw [encode, hnone, Str.chars_ofString, String.ofList_toList]

namespace Command

variable {workspace : Workspace} {command : Command} {text : String} {options : Options}
  {outcome : Outcome}

/-- A run whose schema is converted ends as its outcome is printed. -/
theorem run_of_convertText (htext : workspace.text command.path = .ok text)
    (hoptions : command.options workspace = .ok options)
    (houtcome : convertText (Text.unifyLines text) command.path options = .ok outcome) :
    ∃ log, command.run workspace = command.finish workspace log outcome := by
  obtain ⟨document, _, _, _, hread, -⟩ := convertText_eq_ok houtcome
  rw [convertText_of_read hread, mapError_eq_ok] at houtcome
  unfold Command.run
  simp only [bind, Except.bind, htext, hoptions, hread, houtcome]
  exact ⟨_, rfl⟩

theorem finish_json (hformat : command.format = .json)
    (hreadable : outcome.encode.AllReadable Text.digitLimit)
    (hwritable : ∀ path ∈ command.output, workspace.writeFault? path = none) (log : Str) :
    ∃ ending, command.finish workspace log outcome = .ok ending ∧
      ending.printed = outcome.encode.write ++ "\n" := by
  have htext : outputText command outcome = .ok (Str.ofString (outcome.encode.write ++ "\n")) := by
    rw [outputText, hformat, Str.ofString_append]
  unfold Command.finish
  rw [htext]
  dsimp only [bind, Except.bind]
  cases houtput : command.output with
  | none =>
      simp only [plain_write hreadable, encode_ofString]
      exact ⟨_, rfl, rfl⟩
  | some path =>
      simp only [hwritable path houtput, encode_ofString]
      exact ⟨_, rfl, rfl⟩

end Command

namespace ConstantProperty

/-- A schema of a property that is one number. -/
def text (numeral : String) : String :=
  "\x7b\"properties\":\x7b\"a\":\x7b\"const\":" ++ numeral ++ "\x7d\x7d,\"type\":\"object\"\x7d"

def workspace (numeral : String) : Workspace :=
  ⟨"/work", [("/work/s.json", .file (text numeral))]⟩

def command : Command :=
  ⟨"/work/s.json", none, none, none, .json, false, false⟩

theorem text_workspace (numeral : String) :
    (workspace numeral).text command.path = .ok (text numeral) :=
  rfl

theorem options_workspace (numeral : String) : command.options (workspace numeral) = .ok {} :=
  rfl

theorem writable (numeral : String) :
    ∀ path ∈ command.output, (workspace numeral).writeFault? path = none :=
  nofun

theorem exists_finite : ∃ outcome,
    convertText (Text.unifyLines (text "2.5")) "/work/s.json" = .ok outcome ∧
      outcome.encode.leaves.all Value.isFinite = true :=
  map_eq_ok.mp (by decide +kernel)

theorem exists_infinite : ∃ outcome,
    convertText (Text.unifyLines (text "1e400")) "/work/s.json" = .ok outcome ∧
      outcome.encode.leaves.all Value.isFinite = false :=
  map_eq_ok.mp (by decide +kernel)

end ConstantProperty

end Cli

end Schemata
