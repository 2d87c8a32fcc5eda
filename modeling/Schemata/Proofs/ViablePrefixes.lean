import Schemata.Proofs.ReadFaults
import Schemata.Proofs.Stages

/-!
# Where a text is refused

A text that falls into tokens is refused at the first token that cannot continue a JSON text: the
tokens before it begin one, and together with it they begin none. A text that ends too early is
one whose tokens begin a longer JSON text. A text that does not fall into tokens is refused at the
first place where none starts, even if a token before it could not continue a JSON text.
-/

namespace Schemata.Json

open Grammar Source

def Token.symbol (token : Token) : Symbol :=
  (token.kind, token.text)

/-- These are the tokens of a JSON text whose integers keep to the limit. -/
def IsTokens (limit : Nat) (symbols : List Symbol) : Prop :=
  ∃ text root found, IsText limit text root ∧ tokens text = .ok found ∧
    found.map Token.symbol = symbols

/-- The strings of a token have characters and its numbers a value. -/
structure Token.Decodes (token : Token) : Prop where
  string : token.kind = .string →
    ∃ characters, unescape (token.text.drop 1).dropLast = .ok characters
  number : token.kind = .number → PlainNumber token.text

/-! ### Texts of given tokens -/

theorem Legible.split {kind : TokenKind} {text rest : List Char} (h : Legible kind text)
    (hrest : Stops rest) : splitLexeme? (text ++ rest) = some (.token kind text, rest) := by
  cases h with
  | mark hc => exact splitLexeme?_mark hc rest
  | word hword =>
      simp only [words, List.mem_cons, Prod.mk.injEq, List.not_mem_nil, or_false] at hword
      rcases hword with ⟨rfl, rfl⟩ | ⟨rfl, rfl⟩ | ⟨rfl, rfl⟩
      all_goals rfl
  | string hbody => exact splitLexeme?_string hbody rest
  | number hnumber => exact splitLexeme?_number hnumber hrest

/-- The text of tokens with a space after each. -/
def spaced (symbols : List Symbol) : List Char :=
  symbols.flatMap fun symbol => symbol.2 ++ [' ']

theorem lex_spaced {symbols : List Symbol} (h : ∀ symbol ∈ symbols, Legible symbol.1 symbol.2)
    (position : Position) :
    ∃ found, lex position (spaced symbols) = (found, []) ∧ found.map Token.symbol = symbols := by
  induction symbols generalizing position with
  | nil => exact ⟨[], by simp [spaced, lex, scan_nil, place], rfl⟩
  | cons symbol symbols ih =>
      obtain ⟨kind, text⟩ := symbol
      have hblank : Blank [' '] := by simp [Blank]
      have hstops : Stops ([' '] ++ spaced symbols) := by simp [Stops, isJsonBlank]
      obtain ⟨found, hfound, hsymbols⟩ :=
        ih (fun other hother => h other (List.mem_cons_of_mem _ hother))
          ((position.past text).past [' '])
      have hfirst : lex position (text ++ ([' '] ++ spaced symbols)) = _ :=
        lex_token ((h _ List.mem_cons_self).split hstops)
      rw [lex_blank hblank, hfound] at hfirst
      have htext : spaced ((kind, text) :: symbols) = text ++ ([' '] ++ spaced symbols) := by
        simp [spaced]
      rw [htext]
      exact ⟨_, hfirst, congrArg ((kind, text) :: ·) hsymbols⟩

/-- Tokens that have values and lead to the last stage are those of a JSON text. -/
theorem isTokens_of_run {symbols : List Symbol}
    (h : ∀ symbol ∈ symbols, Legible symbol.1 symbol.2)
    (hrun : (Stage.nextValue []).run (symbols.map Prod.fst) = some .done) :
    IsTokens Text.digitLimit symbols := by
  obtain ⟨found, hlex, rfl⟩ := lex_spaced h .start
  have hlegible : ∀ token ∈ found, Legible token.kind token.text := fun token htoken =>
    h token.symbol (List.mem_map_of_mem htoken)
  have hkinds : (found.map Token.symbol).map Prod.fst = found.map Token.kind := by
    rw [List.map_map]
    rfl
  have hrun : (State.nextValue []).stage.run (found.map Token.kind) = some .done := hkinds ▸ hrun
  obtain ⟨last, hfold, hlast⟩ := fold_of_run hlegible hrun
  obtain ⟨root, rfl⟩ := stage_eq_done hlast
  have htokens := tokens_eq_ok_iff.mpr hlex
  exact ⟨_, root, found, isText_of_reads (lexed_of_tokens htokens) hfold, htokens, rfl⟩

theorem run_of_isTokens {limit : Nat} {symbols : List Symbol} (h : IsTokens limit symbols) :
    (Stage.nextValue []).run (symbols.map Prod.fst) = some .done := by
  obtain ⟨text, root, found, htext, hfound, rfl⟩ := h
  rw [List.map_map]
  exact run_of_isText htext hfound

/-! ### Refused tokens -/

section Refused

variable {text : List Char} {found before after : List Token} {token : Token} {state : State}

theorem legible_of_decodes (hfound : tokens text = .ok found) (htoken : token ∈ found)
    (h : token.Decodes) : Legible token.kind token.text := by
  obtain ⟨rest, hsplit⟩ := splitLexeme?_of_mem_tokens hfound htoken
  have hkind := isToken_of_splitLexeme? hsplit
  obtain ⟨kind, text, range⟩ := token
  dsimp only at hkind hsplit ⊢
  cases hkind with
  | mark hc => exact .mark hc
  | word hword => exact .word hword
  | string hbody =>
      obtain ⟨characters, hcharacters⟩ := h.string rfl
      rw [drop_dropLast_inQuotes] at hcharacters
      exact .string (hbody.unescape_eq_ok_iff.mp hcharacters)
  | number =>
      obtain ⟨number, hnumber⟩ := isNumber_of_plainNumber hsplit (h.number rfl)
      exact .number hnumber

/-- Tokens that were read begin a JSON text. What completes it is that of the stage reached. -/
theorem isTokens_completion (hlegible : ∀ token ∈ found, Legible token.kind token.text)
    (hfold : found.foldlM State.step (.nextValue []) = .ok state) :
    IsTokens Text.digitLimit (found.map Token.symbol ++ state.stage.completion) := by
  apply isTokens_of_run
  · intro symbol hsymbol
    rcases List.mem_append.mp hsymbol with hread | hrest
    · obtain ⟨token, htoken, rfl⟩ := List.mem_map.mp hread
      exact hlegible token htoken
    · exact legible_completion _ symbol hrest
  · have hread : (Stage.nextValue []).run (found.map Token.kind) = some state.stage :=
      run_of_fold hlegible hfold
    rw [List.map_append, List.map_map, Stage.run_append]
    change ((Stage.nextValue []).run (found.map Token.kind)).bind _ = _
    rw [hread]
    exact run_completion state.stage

/-- A token that leads to no stage ends no beginning of a JSON text. -/
theorem not_isTokens_of_refused (hlegible : ∀ token ∈ before, Legible token.kind token.text)
    (hfold : before.foldlM State.step (.nextValue []) = .ok state)
    (hrefused : state.stage.step token.kind = none) (limit : Nat) (rest : List Symbol) :
    ¬ IsTokens limit (before.map Token.symbol ++ token.symbol :: rest) := by
  intro htokens
  have hread : (Stage.nextValue []).run (before.map Token.kind) = some state.stage :=
    run_of_fold hlegible hfold
  have hrun := run_of_isTokens htokens
  rw [List.map_append, List.map_map, Stage.run_append] at hrun
  change ((Stage.nextValue []).run (before.map Token.kind)).bind _ = _ at hrun
  rw [hread, List.map_cons, Option.bind_some, Stage.run_cons, Token.symbol, hrefused] at hrun
  cases hrun

end Refused

/-- The position is that of the first token that cannot continue a JSON text, whatever number of
digits its integers may have. -/
def FirstUnfit (found : List Token) (position : Position) : Prop :=
  ∃ before token after, found = before ++ token :: after ∧ position = token.range.first ∧
    (∃ rest, IsTokens Text.digitLimit (before.map Token.symbol ++ rest)) ∧
    ∀ limit rest, ¬ IsTokens limit (before.map Token.symbol ++ token.symbol :: rest)

theorem finish_eq_error {state : State} {last : Position} {error : ReadError}
    (h : state.finish last = .error error) :
    error = .malformed .endOfInput last ∧ state.stage ≠ .done := by
  cases state with
  | done => cases h
  | _ => cases h; exact ⟨rfl, nofun⟩

/-- A text of tokens with values is refused at the first token that cannot continue a JSON text,
or at its end if its tokens begin a longer one. -/
theorem refused_of_tokens {text : String} {found : List Token} {fault : Fault}
    {position : Position} (hfound : tokens text.toList = .ok found)
    (hdecodes : ∀ token ∈ found, token.Decodes)
    (hread : read text = .error (.malformed fault position)) :
    (fault ≠ .endOfInput ∧ FirstUnfit found position) ∨
      (fault = .endOfInput ∧ position = Position.start.past text.toList ∧
        ∃ rest, rest ≠ [] ∧ IsTokens Text.digitLimit (found.map Token.symbol ++ rest)) := by
  have hlegible : ∀ token ∈ found, Legible token.kind token.text := fun token htoken =>
    legible_of_decodes hfound htoken (hdecodes token htoken)
  rcases bind_eq_error.mp hread with hscan | ⟨other, hother, hrest⟩
  · rw [hfound] at hscan
    cases hscan
  obtain rfl : found = other := Except.ok.inj (hfound.symm.trans hother)
  rcases bind_eq_error.mp hrest with hfold | ⟨state, hfold, hfinish⟩
  · obtain ⟨before, token, after, state, rfl, hbefore, hstep⟩ := foldlM_step_eq_error_iff.mp hfold
    have hleft : ∀ other ∈ before, Legible other.kind other.text := fun other hother =>
      hlegible other (List.mem_append_left _ hother)
    have htoken := hlegible token (List.mem_append_right before List.mem_cons_self)
    obtain ⟨hfault, hposition, hrefused⟩ := stage_of_refused htoken hstep
    refine .inl ⟨hfault, before, token, after, rfl, hposition, ?_, ?_⟩
    · exact ⟨_, isTokens_completion hleft hbefore⟩
    · exact not_isTokens_of_refused hleft hbefore hrefused
  · obtain ⟨herror, hstage⟩ := finish_eq_error hfinish
    obtain ⟨rfl, rfl⟩ := ReadError.malformed.inj herror
    exact .inr ⟨rfl, rfl, _, completion_ne_nil hstage, isTokens_completion hlegible hfold⟩

/-! ### Texts that do not fall into tokens -/

/-- A text falls into lexemes, each taken off the front of what the ones before it leave. -/
inductive Scans : List Char → List Lexeme → List Char → Prop
  | stop {text : List Char} : Scans text [] text
  | lexeme {text rest left : List Char} {lexeme : Lexeme} {lexemes : List Lexeme}
      (hsplit : splitLexeme? text = some (lexeme, rest)) (hrest : Scans rest lexemes left) :
      Scans text (lexeme :: lexemes) left

/-- Scanning goes as far as lexemes can be taken off. -/
theorem scans_scan (text : List Char) :
    Scans text (scan text).1 (scan text).2 ∧ splitLexeme? (scan text).2 = none := by
  fun_induction scan text with
  | case1 text hnone => exact ⟨.stop, hnone⟩
  | case2 text lexeme rest hsplit _ lexemes left hscan ih =>
      rw [hscan] at ih
      exact ⟨.lexeme hsplit ih.1, ih.2⟩

theorem refused_of_scan {text : String} (h : ∀ found, tokens text.toList ≠ .ok found) :
    ∃ lexemes c rest, Scans text.toList lexemes (c :: rest) ∧ splitLexeme? (c :: rest) = none ∧
      read text = .error (.malformed (.unexpectedCharacter c)
        (Position.start.past (lexemes.flatMap Lexeme.text))) := by
  obtain ⟨hscans, hnone⟩ := scans_scan text.toList
  rcases hscan : scan text.toList with ⟨lexemes, left⟩
  rw [hscan] at hscans hnone
  cases left with
  | nil =>
      have hfound : tokens text.toList = .ok (place .start lexemes) := by
        rw [tokens, hscan]
      exact absurd hfound (h _)
  | cons c rest =>
      refine ⟨lexemes, c, rest, hscans, hnone, ?_⟩
      rw [read, tokens, hscan]
      rfl

/-- A text whose tokens have values is refused at the first token that cannot continue a JSON
text, or at its end if its tokens begin a longer JSON text. A text that does not fall into tokens
is refused at the first character where none starts. -/
theorem read_refuses_first (text : String) :
    (∀ found, tokens text.toList = .ok found → (∀ token ∈ found, token.Decodes) →
      ∀ fault position, read text = .error (.malformed fault position) →
        (fault ≠ .endOfInput ∧ FirstUnfit found position) ∨
          (fault = .endOfInput ∧ position = Position.start.past text.toList ∧
            ∃ rest, rest ≠ [] ∧ IsTokens Text.digitLimit (found.map Token.symbol ++ rest))) ∧
    ((∀ found, tokens text.toList ≠ .ok found) →
      ∃ lexemes c rest, Scans text.toList lexemes (c :: rest) ∧ splitLexeme? (c :: rest) = none ∧
        read text = .error (.malformed (.unexpectedCharacter c)
          (Position.start.past (lexemes.flatMap Lexeme.text)))) :=
  ⟨fun _ hfound hdecodes _ _ => refused_of_tokens hfound hdecodes, refused_of_scan⟩

namespace MissingComma

/-- A list without a comma between its items. -/
def text : String :=
  "[1 2]"

def found : List Token :=
  [⟨.mark '[', ['['], ⟨⟨1, 1, 0⟩, ⟨1, 2, 1⟩⟩⟩, ⟨.number, ['1'], ⟨⟨1, 2, 1⟩, ⟨1, 3, 2⟩⟩⟩,
    ⟨.number, ['2'], ⟨⟨1, 4, 3⟩, ⟨1, 5, 4⟩⟩⟩, ⟨.mark ']', [']'], ⟨⟨1, 5, 4⟩, ⟨1, 6, 5⟩⟩⟩]

theorem tokens_text : tokens text.toList = .ok found := by
  cbv

theorem decodes_found : ∀ token ∈ found, token.Decodes := by
  simp only [found, List.mem_cons, List.not_mem_nil, or_false, forall_eq_or_imp, forall_eq]
  refine ⟨⟨nofun, nofun⟩, ⟨nofun, fun _ => ?_⟩, ⟨nofun, fun _ => ?_⟩, nofun, nofun⟩
  all_goals
    refine ⟨?_, fun _ => by decide⟩
    simp only [List.mem_cons, List.not_mem_nil, or_false, forall_eq]
    decide

theorem read_text : read text = .error (.malformed (.unclosedArray ['2']) ⟨1, 4, 3⟩) := by
  cbv

/-- The closing bracket cannot start a text, but the character after it starts no token. -/
theorem tokens_unclean (found : List Token) : tokens "]#".toList ≠ .ok found := by
  have hunclean :
      tokens "]#".toList = .error (.malformed (.unexpectedCharacter '#') ⟨1, 2, 1⟩) := by
    cbv
  intro h
  rw [hunclean] at h
  cases h

/-- The second number is refused, and what is no token before what is out of place. -/
theorem refuses_second_number :
    (tokens text.toList = .ok found ∧ (∀ token ∈ found, token.Decodes) ∧
      read text = .error (.malformed (.unclosedArray ['2']) ⟨1, 4, 3⟩) ∧
      FirstUnfit found ⟨1, 4, 3⟩) ∧
    (∀ found, tokens "]#".toList ≠ .ok found) ∧
    ∃ lexemes c rest, Scans "]#".toList lexemes (c :: rest) ∧ splitLexeme? (c :: rest) = none ∧
      read "]#" = .error (.malformed (.unexpectedCharacter c)
        (Position.start.past (lexemes.flatMap Lexeme.text))) := by
  refine ⟨⟨tokens_text, decodes_found, read_text, ?_⟩, tokens_unclean,
    (read_refuses_first "]#").2 tokens_unclean⟩
  rcases (read_refuses_first text).1 found tokens_text decodes_found _ _ read_text with h | h
  · exact h.2
  · cases h.1

end MissingComma

end Schemata.Json
