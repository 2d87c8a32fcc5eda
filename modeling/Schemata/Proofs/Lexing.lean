import Schemata.Proofs.Scalars

/-!
# Tokens of a text

A text falls into tokens with blanks between them, and every token has the range of its text.
What the grammar writes next to each other falls into tokens piece by piece.
-/

namespace Schemata.Json

open Grammar Source

/-- The text of a token belongs to its kind. Which numbers have a value is decided later. -/
inductive IsToken : TokenKind → List Char → Prop
  | mark {c : Char} (hc : isMark c = true) : IsToken (.mark c) [c]
  | word {text : List Char} {value : Scalar} (hword : (text, value) ∈ words) :
      IsToken (.word value) text
  | string {body : List Char} (hbody : Closed body) : IsToken .string (inQuotes body)
  | number {text : List Char} : IsToken .number text

/-- A text that starts at a position consists of blanks and these tokens. -/
inductive Lexed : Position → List Char → List Token → Prop
  | blank {position : Position} {text : List Char} (hblank : Blank text) :
      Lexed position text []
  | token {position : Position} {blank rest : List Char} {token : Token} {tokens : List Token}
      (hblank : Blank blank) (htoken : IsToken token.kind token.text)
      (hrange : token.range =
        ⟨position.past blank, (position.past blank).past token.text⟩)
      (hrest : Lexed token.range.last rest tokens) :
      Lexed position (blank ++ token.text ++ rest) (token :: tokens)

theorem isJsonBlank_iff {c : Char} :
    isJsonBlank c = true ↔ c = ' ' ∨ c = '\t' ∨ c = '\n' ∨ c = '\r' := by
  simp only [isJsonBlank, Bool.or_eq_true, decide_eq_true_eq]
  tauto

theorem blank_nil : Blank [] :=
  fun _ hc => absurd hc List.not_mem_nil

theorem Grammar.Blank.append {text more : List Char} (h : Blank text) (hmore : Blank more) :
    Blank (text ++ more) := by
  intro c hc
  rcases List.mem_append.mp hc with hleft | hright
  · exact h c hleft
  · exact hmore c hright

/-! ### From texts to tokens -/

theorem Lexed.after_blank {position : Position} {blank text : List Char} {tokens : List Token}
    (hblank : Blank blank) (h : Lexed (position.past blank) text tokens) :
    Lexed position (blank ++ text) tokens := by
  cases h with
  | blank htext => exact .blank (hblank.append htext)
  | token hbefore htoken hrange hrest =>
      rw [← List.append_assoc, ← List.append_assoc]
      refine .token (hblank.append hbefore) htoken ?_ hrest
      rw [Position.past_append]
      exact hrange

theorem blank_of_splitLexeme? {text found rest : List Char}
    (h : splitLexeme? text = some (.blank found, rest)) : Blank found := by
  unfold splitLexeme? at h
  split at h
  · cases h
  next c tail =>
    split at h
    next hc =>
      cases h
      intro other hother
      rcases List.mem_cons.mp hother with rfl | htail
      · exact isJsonBlank_iff.mp hc
      · exact isJsonBlank_iff.mp (List.mem_takeWhile_imp htail)
    all_goals
      repeat' split at h
      all_goals simp [Option.map_eq_some_iff] at h

theorem isToken_of_splitLexeme? {text found rest : List Char} {kind : TokenKind}
    (h : splitLexeme? text = some (.token kind found, rest)) : IsToken kind found := by
  unfold splitLexeme? at h
  split at h
  · cases h
  split at h
  · cases h
  split at h
  next hmark =>
    cases h
    exact .mark hmark
  split at h
  next hquote =>
    obtain ⟨⟨body, after⟩, hbody, heq⟩ := Option.map_eq_some_iff.mp h
    obtain ⟨inner, rfl, hinner⟩ := closed_of_splitString? hbody
    cases heq
    rw [hquote]
    exact .string hinner
  split at h
  next word value after hword =>
    cases h
    obtain ⟨⟨_, _⟩, hfound, heq⟩ := Option.map_eq_some_iff.mp hword
    cases heq
    exact .word (List.mem_of_find?_eq_some hfound)
  next =>
    obtain ⟨⟨numeral, after⟩, -, heq⟩ := Option.map_eq_some_iff.mp h
    cases heq
    exact .number

/-- The tokens at a position and the text that belongs to none. -/
def lex (position : Position) (text : List Char) : List Token × List Char :=
  (place position (scan text).1, (scan text).2)

theorem scan_of_splitLexeme? {text rest : List Char} {lexeme : Lexeme}
    (h : splitLexeme? text = some (lexeme, rest)) :
    scan text = (lexeme :: (scan rest).1, (scan rest).2) := by
  rw [scan]
  split
  next hnone => simp [h] at hnone
  next found after hfound =>
    obtain ⟨rfl, rfl⟩ := Prod.mk.inj (Option.some.inj (hfound.symm.trans h))
    rfl

theorem scan_nil : scan [] = ([], []) := by
  rw [scan]
  rfl

theorem lexed_of_lex {position : Position} {text : List Char} (h : (lex position text).2 = []) :
    Lexed position text (lex position text).1 := by
  simp only [lex] at h ⊢
  fun_induction scan text generalizing position with
  | case1 text _ =>
      obtain rfl : text = [] := h
      exact .blank blank_nil
  | case2 text lexeme rest hsplit _ lexemes left hscan ih =>
      rw [hscan] at ih
      obtain ⟨rfl, -⟩ := splitLexeme?_append hsplit
      cases lexeme with
      | blank found => exact .after_blank (blank_of_splitLexeme? hsplit) (ih h)
      | token kind found =>
          let token : Token := ⟨kind, found, ⟨position, position.past found⟩⟩
          have htoken : IsToken token.kind token.text := isToken_of_splitLexeme? hsplit
          exact .token blank_nil htoken rfl (ih h)

/-! ### From the grammar to tokens -/

theorem lex_token {position : Position} {text rest : List Char} {kind : TokenKind}
    (h : splitLexeme? (text ++ rest) = some (.token kind text, rest)) :
    lex position (text ++ rest) = (⟨kind, text, ⟨position, position.past text⟩⟩ ::
      (lex (position.past text) rest).1, (lex (position.past text) rest).2) := by
  rw [lex, scan_of_splitLexeme? h]
  rfl

/-- The blanks at the start of a text move the position of what follows. -/
theorem lex_dropWhile (position : Position) (text : List Char) :
    lex position text =
      lex (position.past (text.takeWhile isJsonBlank)) (text.dropWhile isJsonBlank) := by
  cases text with
  | nil => rfl
  | cons c rest =>
      by_cases hc : isJsonBlank c = true
      · have hsplit : splitLexeme? (c :: rest) =
            some (.blank (c :: rest.takeWhile isJsonBlank), rest.dropWhile isJsonBlank) := by
          simp [splitLexeme?, hc]
        rw [lex, scan_of_splitLexeme? hsplit, List.takeWhile_cons_of_pos hc,
          List.dropWhile_cons_of_pos hc]
        rfl
      · rw [List.takeWhile_cons_of_neg hc, List.dropWhile_cons_of_neg hc]
        rfl

theorem lex_blank {position : Position} {blank : List Char} (hblank : Blank blank)
    (rest : List Char) : lex position (blank ++ rest) = lex (position.past blank) rest := by
  have hall : ∀ c ∈ blank, isJsonBlank c = true := fun c hc => isJsonBlank_iff.mpr (hblank c hc)
  rw [lex_dropWhile, lex_dropWhile _ rest, List.takeWhile_append_of_pos hall,
    List.dropWhile_append_of_pos hall, Position.past_append]

/-- A piece of text falls into these tokens when the given rest follows it. -/
def Lexes (position : Position) (text rest : List Char) (tokens : List Token) : Prop :=
  lex position (text ++ rest) = (tokens ++ (lex (position.past text) rest).1,
    (lex (position.past text) rest).2)

theorem Lexes.append {position : Position} {text more rest : List Char}
    {tokens others : List Token} (h : Lexes position text (more ++ rest) tokens)
    (hmore : Lexes (position.past text) more rest others) :
    Lexes position (text ++ more) rest (tokens ++ others) := by
  unfold Lexes at h hmore ⊢
  rw [List.append_assoc, h, hmore, Position.past_append, List.append_assoc]

/-- Blanks only move the tokens of what follows them. -/
theorem Lexes.blank {position : Position} {blank text rest : List Char} {tokens : List Token}
    (hblank : Blank blank) (h : Lexes (position.past blank) text rest tokens) :
    Lexes position (blank ++ text) rest tokens := by
  have hnone : Lexes position blank (text ++ rest) [] := lex_blank hblank (text ++ rest)
  exact hnone.append h

theorem lexes_token {position : Position} {text rest : List Char} {kind : TokenKind}
    (h : splitLexeme? (text ++ rest) = some (.token kind text, rest)) :
    Lexes position text rest [⟨kind, text, ⟨position, position.past text⟩⟩] :=
  lex_token h

theorem splitLexeme?_mark {c : Char} (hc : isMark c = true) (rest : List Char) :
    splitLexeme? ([c] ++ rest) = some (.token (.mark c) [c], rest) := by
  have hblank : isJsonBlank c = false := by
    simp only [isMark, Bool.or_eq_true, decide_eq_true_eq] at hc
    rcases hc with ((((rfl | rfl) | rfl) | rfl) | rfl) | rfl <;> rfl
  simp [splitLexeme?, hc, hblank]

theorem splitLexeme?_string {body : List Char} {characters : Str} (h : Characters body characters)
    (rest : List Char) :
    splitLexeme? (inQuotes body ++ rest) = some (.token .string (inQuotes body), rest) := by
  obtain ⟨units, hunits, -⟩ := h
  have hsplit := splitString?_of_units hunits rest
  simp [splitLexeme?, inQuotes, isJsonBlank, isMark, hsplit]

/-- A text that cannot continue the value before it: it starts with a blank or a mark. -/
def Stops (rest : List Char) : Prop :=
  ∀ c ∈ rest.head?, isJsonBlank c = true ∨ isMark c = true

theorem Stops.follows {rest : List Char} (h : Stops rest) : Follows Text.isDecimalDigit rest := by
  intro c hc
  have hstop := h c hc
  simp only [isJsonBlank, isMark, Bool.or_eq_true, decide_eq_true_eq] at hstop
  rcases hstop with (((rfl | rfl) | rfl) | rfl) | (((((rfl | rfl) | rfl) | rfl) | rfl) | rfl)
  all_goals decide

theorem head_of_isNumber {limit : Nat} {text : List Char} {number : Number}
    (h : IsNumber limit text number) :
    ∃ c rest, text = c :: rest ∧ (c = '-' ∨ c.isDigit = true) := by
  have hwhole : ∀ (negative : Bool) {whole : List Char} (rest : List Char), Whole whole →
      ∃ c tail, minusSign negative ++ whole ++ rest = c :: tail ∧ (c = '-' ∨ c.isDigit = true) := by
    intro negative whole rest hwhole
    cases negative with
    | true => exact ⟨'-', whole ++ rest, rfl, .inl rfl⟩
    | false =>
        cases whole with
        | nil => exact absurd rfl hwhole.ne_nil
        | cons c tail => exact ⟨c, tail ++ rest, rfl, .inr (hwhole.isDigit c List.mem_cons_self)⟩
  cases h with
  | @integer negative whole hinteger _ => simpa using hwhole negative [] hinteger
  | @float negative whole fraction _ exponent _ hinteger _ _ _ =>
      simpa using hwhole negative (fraction ++ exponent) hinteger

theorem splitLexeme?_number {limit : Nat} {text rest : List Char} {number : Number}
    (h : IsNumber limit text number) (hrest : Stops rest) :
    splitLexeme? (text ++ rest) = some (.token .number text, rest) := by
  obtain ⟨numeral, -, hsplit⟩ := Numeral.split?_of_isNumber h
  have hsplit := hsplit _ rest digitClass_isDecimalDigit hrest.follows
  have htext : numeral.text = text :=
    List.append_cancel_right (Numeral.split?_append hsplit)
  obtain ⟨c, tail, rfl, hc⟩ := head_of_isNumber h
  have hstart : isJsonBlank c = false ∧ isMark c = false ∧ c ≠ '"' ∧ c ≠ 't' ∧ c ≠ 'f' ∧
      c ≠ 'n' := by
    rcases hc with rfl | hdigit
    · decide
    · have hneither : ∀ other : Char, other.isDigit = false → c ≠ other := by
        rintro _ hother rfl
        simp [hother] at hdigit
      simp [isJsonBlank, isMark, hneither]
  obtain ⟨hblank, hmark, hquote, ht, hf, hn⟩ := hstart
  have hword : splitWord? (c :: tail ++ rest) = none := by
    simp [splitWord?, words, ht.symm, hf.symm, hn.symm]
  rw [List.cons_append] at hword hsplit ⊢
  simp [splitLexeme?, hblank, hmark, hquote, hword, hsplit, htext]

end Schemata.Json
