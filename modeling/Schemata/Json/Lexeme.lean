import Schemata.Json.Numeral
import Schemata.Json.Scalar

/-!
# Lexemes

A JSON text falls into lexemes: blank runs and tokens. At each place at most one
lexeme starts, and it is taken as long as possible. Numbers are recognized with
the decimal digits of all scripts after their first digit; whether such a number
has a value is decided when it is read.

Scanning stops at the first place where no lexeme starts, and what was scanned
and what is left make up the text.
-/

namespace Schemata.Json

/-- What a token is. Words carry the value they stand for. -/
inductive TokenKind
  | mark (c : Char)
  | word (value : Scalar)
  | number
  | string
deriving DecidableEq

/-- A piece of a JSON text. -/
inductive Lexeme
  | blank (text : List Char)
  | token (kind : TokenKind) (text : List Char)

def Lexeme.text : Lexeme → List Char
  | blank text => text
  | token _ text => text

def isJsonBlank (c : Char) : Bool :=
  c = ' ' || c = '\t' || c = '\r' || c = '\n'

/-- Brackets, the colon and the comma. -/
def isMark (c : Char) : Bool :=
  c = '\x7b' || c = '\x7d' || c = '[' || c = ']' || c = ':' || c = ','

/-- The words of JSON and their values. -/
def words : List (List Char × Scalar) :=
  [(['t', 'r', 'u', 'e'], .bool true), (['f', 'a', 'l', 's', 'e'], .bool false),
    (['n', 'u', 'l', 'l'], .null)]

/-- Split off the text of a string after its opening quote, closing quote
included. Control characters end the search, except after a backslash, where
only a line feed does. -/
def splitString? : List Char → Option (List Char × List Char)
  | [] => none
  | '"' :: rest => some (['"'], rest)
  | '\\' :: [] => none
  | '\\' :: c :: rest =>
      if c = '\n' then none
      else (splitString? rest).map fun (body, rest) => ('\\' :: c :: body, rest)
  | c :: rest =>
      if c < ' ' then none
      else (splitString? rest).map fun (body, rest) => (c :: body, rest)

/-- Split off one of the words. -/
def splitWord? (text : List Char) : Option (List Char × Scalar × List Char) :=
  (words.find? fun word => word.1.isPrefixOf text).map fun (word, value) =>
    (word, value, text.drop word.length)

/-- Split off the first lexeme of a text. -/
def splitLexeme? (text : List Char) : Option (Lexeme × List Char) :=
  match text with
  | [] => none
  | c :: rest =>
      if isJsonBlank c then
        some (.blank (c :: rest.takeWhile isJsonBlank), rest.dropWhile isJsonBlank)
      else if isMark c then some (.token (.mark c) [c], rest)
      else if c = '"' then
        (splitString? rest).map fun (body, rest) => (.token .string (c :: body), rest)
      else
        match splitWord? text with
        | some (word, value, rest) => some (.token (.word value) word, rest)
        | none =>
            (Numeral.split? Text.isDecimalDigit text).map fun (numeral, rest) =>
              (.token .number numeral.text, rest)

/-! ### Lexemes concatenate to the text -/

theorem splitString?_append {text body rest : List Char}
    (h : splitString? text = some (body, rest)) : body ++ rest = text := by
  fun_induction splitString? text generalizing body rest with
  | case1 => cases h
  | case2 => cases h; rfl
  | case3 => cases h
  | case4 => cases h
  | case5 c tail hc ih =>
    obtain ⟨⟨inner, after⟩, hinner, heq⟩ := Option.map_eq_some_iff.mp h
    cases heq
    simp [ih hinner]
  | case6 => cases h
  | case7 c tail _ _ _ hc ih =>
    obtain ⟨⟨inner, after⟩, hinner, heq⟩ := Option.map_eq_some_iff.mp h
    cases heq
    simp [ih hinner]

theorem splitWord?_append {text word rest : List Char} {value : Scalar}
    (h : splitWord? text = some (word, value, rest)) : word ++ rest = text ∧ word ≠ [] := by
  obtain ⟨⟨found, meaning⟩, hfound, heq⟩ := Option.map_eq_some_iff.mp h
  cases heq
  have hstart := List.find?_some hfound
  have hmem := List.mem_of_find?_eq_some hfound
  refine ⟨?_, ?_⟩
  · obtain ⟨after, hafter⟩ := List.isPrefixOf_iff_prefix.mp hstart
    simp [← hafter]
  · rintro rfl
    simp [words] at hmem

/-- A lexeme and what follows it make up the text. -/
theorem splitLexeme?_append {text rest : List Char} {lexeme : Lexeme}
    (h : splitLexeme? text = some (lexeme, rest)) :
    lexeme.text ++ rest = text ∧ lexeme.text ≠ [] := by
  unfold splitLexeme? at h
  split at h
  · cases h
  next c tail =>
    split at h
    · cases h
      simp [Lexeme.text]
    split at h
    · cases h
      simp [Lexeme.text]
    split at h
    · obtain ⟨⟨body, after⟩, hbody, heq⟩ := Option.map_eq_some_iff.mp h
      cases heq
      simp [Lexeme.text, splitString?_append hbody]
    split at h
    next word value after hword =>
      cases h
      exact splitWord?_append hword
    next =>
      obtain ⟨⟨numeral, after⟩, hnumeral, heq⟩ := Option.map_eq_some_iff.mp h
      cases heq
      refine ⟨Numeral.split?_append hnumeral, ?_⟩
      exact Numeral.text_ne_nil_of_split? hnumeral

/-- Split a text into lexemes as far as they go. -/
def scan (text : List Char) : List Lexeme × List Char :=
  match h : splitLexeme? text with
  | none => ([], text)
  | some (lexeme, rest) =>
      have : rest.length < text.length := by
        obtain ⟨happend, hne⟩ := splitLexeme?_append h
        have := List.length_pos_iff.mpr hne
        rw [← happend, List.length_append]
        omega
      let (lexemes, left) := scan rest
      (lexeme :: lexemes, left)
termination_by text.length

theorem scan_append (text : List Char) :
    (scan text).1.flatMap Lexeme.text ++ (scan text).2 = text := by
  fun_induction scan text with
  | case1 => rfl
  | case2 text lexeme rest h _ lexemes left hscan ih =>
    rw [hscan] at ih
    simp only [List.flatMap_cons, List.append_assoc, ih]
    exact (splitLexeme?_append h).1

end Schemata.Json
