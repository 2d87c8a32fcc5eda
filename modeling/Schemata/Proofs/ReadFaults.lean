import Schemata.Proofs.Positions

/-!
# Numbers without a value

A number is recognized in the decimal digits of all scripts and with any count of digits, but it
has a value only in ASCII digits, and without fraction and exponent only up to the digit limit.
Those numbers alone make reading fail without a position, and only where a value may start.
-/

namespace Schemata.Json

open Grammar Source

/-! ### Tokens by themselves -/

theorem splitLexeme?_of_mem_scan {text : List Char} {lexeme : Lexeme}
    (h : lexeme ∈ (scan text).1) :
    ∃ rest, splitLexeme? (lexeme.text ++ rest) = some (lexeme, rest) := by
  fun_induction scan text with
  | case1 => exact absurd h List.not_mem_nil
  | case2 text first rest hsplit _ lexemes left hscan ih =>
      rcases List.mem_cons.mp h with rfl | htail
      · refine ⟨rest, ?_⟩
        rwa [(splitLexeme?_append hsplit).1]
      · apply ih
        rwa [hscan]

theorem mem_of_mem_place {position : Position} {lexemes : List Lexeme} {token : Token}
    (h : token ∈ place position lexemes) : .token token.kind token.text ∈ lexemes := by
  induction lexemes generalizing position with
  | nil => exact absurd h List.not_mem_nil
  | cons lexeme lexemes ih =>
      cases lexeme with
      | blank text => exact List.mem_cons_of_mem _ (ih h)
      | token kind text =>
          rcases List.mem_cons.mp h with rfl | htail
          · exact List.mem_cons_self
          · exact List.mem_cons_of_mem _ (ih htail)

/-- A token of a text is split off at its place. -/
theorem splitLexeme?_of_mem_tokens {text : List Char} {found : List Token} {token : Token}
    (hfound : tokens text = .ok found) (htoken : token ∈ found) :
    ∃ rest, splitLexeme? (token.text ++ rest) = some (.token token.kind token.text, rest) := by
  have hlex := tokens_eq_ok_iff.mp hfound
  obtain rfl : (lex .start text).1 = found := by rw [hlex]
  exact splitLexeme?_of_mem_scan (mem_of_mem_place htoken)

theorem split?_of_splitLexeme? {text rest : List Char}
    (h : splitLexeme? (text ++ rest) = some (.token .number text, rest)) :
    ∃ numeral : Numeral, numeral.text = text ∧
      Numeral.split? Text.isDecimalDigit (text ++ rest) = some (numeral, rest) := by
  unfold splitLexeme? at h
  split at h
  · cases h
  split at h
  · cases h
  split at h
  · cases h
  split at h
  · obtain ⟨_, -, heq⟩ := Option.map_eq_some_iff.mp h
    cases heq
  split at h
  · cases h
  next hcons _ =>
    obtain ⟨⟨numeral, after⟩, hnumeral, heq⟩ := Option.map_eq_some_iff.mp h
    cases heq
    exact ⟨numeral, rfl, hnumeral⟩

/-! ### Numbers with a value -/

/-- A number in ASCII digits. If it has neither fraction nor exponent, the count of its digits
keeps to the limit. -/
structure PlainNumber (text : List Char) : Prop where
  ascii : ∀ c ∈ text, Text.isDecimalDigit c = true → c.isDigit = true
  limit : (∀ c ∈ text, c ≠ '.' ∧ c ≠ 'e' ∧ c ≠ 'E') →
    (text.filter Char.isDigit).length ≤ Text.digitLimit

/-- The characters of a number that are no digits. -/
def IsNumberMark (c : Char) : Prop :=
  c = '-' ∨ c = '+' ∨ c = '.' ∨ c = 'e' ∨ c = 'E'

theorem not_isDecimalDigit_of_isNumberMark {c : Char} (h : IsNumberMark c) :
    Text.isDecimalDigit c = false := by
  rcases h with rfl | rfl | rfl | rfl | rfl
  all_goals decide

section Characters

variable {text decimals : List Char} {c : Char}

theorem mem_fraction (h : Fraction text decimals) (hc : c ∈ text) :
    c.isDigit = true ∨ IsNumberMark c := by
  cases h with
  | absent => exact absurd hc List.not_mem_nil
  | point hdigits =>
      rcases List.mem_cons.mp hc with rfl | hc
      · simp [IsNumberMark]
      · exact .inl (hdigits.isDigit c hc)

theorem mem_exponent {power : Int} (h : Exponent text power) (hc : c ∈ text) :
    c.isDigit = true ∨ IsNumberMark c := by
  have hmark : ∀ letter, letter = 'e' ∨ letter = 'E' → IsNumberMark letter := by
    simp [IsNumberMark]
  cases h with
  | absent => exact absurd hc List.not_mem_nil
  | unsigned hletter hdigits =>
      rcases List.mem_cons.mp hc with rfl | hc
      · exact .inr (hmark c hletter)
      · exact .inl (hdigits.isDigit c hc)
  | plus hletter hdigits | minus hletter hdigits =>
      rcases List.mem_cons.mp hc with rfl | hc
      · exact .inr (hmark c hletter)
      rcases List.mem_cons.mp hc with rfl | hc
      · simp [IsNumberMark]
      · exact .inl (hdigits.isDigit c hc)

theorem mem_minusSign_append {negative : Bool} {whole : List Char} (hwhole : Whole whole)
    (hc : c ∈ minusSign negative ++ whole) : c.isDigit = true ∨ c = '-' := by
  cases negative with
  | true =>
      rcases List.mem_cons.mp hc with rfl | hc
      · exact .inr rfl
      · exact .inl (hwhole.isDigit c hc)
  | false => exact .inl (hwhole.isDigit c hc)

theorem no_mark_of_whole {negative : Bool} {whole : List Char} (hwhole : Whole whole)
    (hc : c ∈ minusSign negative ++ whole) : c ≠ '.' ∧ c ≠ 'e' ∧ c ≠ 'E' := by
  rcases mem_minusSign_append hwhole hc with hdigit | rfl
  · refine ⟨?_, ?_, ?_⟩
    all_goals
      rintro rfl
      exact absurd hdigit (by decide)
  · decide

theorem mem_isNumber {limit : Nat} {number : Number} (h : IsNumber limit text number)
    (hc : c ∈ text) : c.isDigit = true ∨ IsNumberMark c := by
  cases h with
  | integer hwhole _ => exact (mem_minusSign_append hwhole hc).imp_right .inl
  | float hwhole hfraction hexponent _ =>
      rcases List.mem_append.mp hc with hc | hc
      · rcases List.mem_append.mp hc with hc | hc
        · exact (mem_minusSign_append hwhole hc).imp_right .inl
        · exact mem_fraction hfraction hc
      · exact mem_exponent hexponent hc

end Characters

theorem filter_isDigit_whole (negative : Bool) {whole : List Char} (hwhole : Whole whole) :
    (minusSign negative ++ whole).filter Char.isDigit = whole := by
  have hall : whole.filter Char.isDigit = whole := List.filter_eq_self.mpr hwhole.isDigit
  cases negative with
  | true => simpa [minusSign] using hall
  | false => exact hall

/-- A fraction or an exponent shows in the text of a number. -/
theorem exists_mark_of_float {whole fraction decimals exponent : List Char} {power : Int}
    (hfraction : Fraction fraction decimals) (hexponent : Exponent exponent power)
    (hpart : fraction ≠ [] ∨ exponent ≠ []) :
    ∃ c ∈ whole ++ fraction ++ exponent, c = '.' ∨ c = 'e' ∨ c = 'E' := by
  rcases hpart with hpart | hpart
  · cases hfraction with
    | absent => exact absurd rfl hpart
    | point => exact ⟨'.', by simp, .inl rfl⟩
  · cases hexponent with
    | absent => exact absurd rfl hpart
    | unsigned hletter | plus hletter | minus hletter => exact ⟨_, by simp, .inr hletter⟩

theorem plainNumber_of_isNumber {text : List Char} {number : Number}
    (h : IsNumber Text.digitLimit text number) : PlainNumber text where
  ascii c hc hdigit := by
    rcases mem_isNumber h hc with hascii | hmark
    · exact hascii
    · simp [not_isDecimalDigit_of_isNumberMark hmark] at hdigit
  limit hinteger := by
    cases h with
    | @integer negative whole hwhole hlimit => rwa [filter_isDigit_whole negative hwhole]
    | float _ hfraction hexponent hpart =>
        obtain ⟨c, hc, hmark⟩ := exists_mark_of_float hfraction hexponent hpart
        have hnone := hinteger c hc
        tauto

theorem isNumber_of_plainNumber {text rest : List Char}
    (hsplit : splitLexeme? (text ++ rest) = some (.token .number text, rest))
    (hplain : PlainNumber text) : ∃ number, IsNumber Text.digitLimit text number := by
  obtain ⟨numeral, rfl, hnumeral⟩ := split?_of_splitLexeme? hsplit
  obtain ⟨decimals, power, hwhole, hfraction, hexponent⟩ :=
    Numeral.parts_of_split? hnumeral hplain.ascii
  have htext : numeral.text = minusSign numeral.minus ++ numeral.whole ++ numeral.fraction ++
    numeral.exponent := rfl
  by_cases hinteger : numeral.fraction = [] ∧ numeral.exponent = []
  · rw [hinteger.1, hinteger.2, List.append_nil, List.append_nil] at htext
    rw [htext] at hplain ⊢
    have hlimit := hplain.limit fun c hc => no_mark_of_whole hwhole hc
    rw [filter_isDigit_whole _ hwhole] at hlimit
    exact ⟨_, .integer hwhole hlimit⟩
  · rw [htext]
    exact ⟨_, .float hwhole hfraction hexponent (not_and_or.mp hinteger)⟩

/-- A number token has a value exactly if it is plain. -/
theorem readNumber_eq_ok_iff_plain {text rest : List Char}
    (hsplit : splitLexeme? (text ++ rest) = some (.token .number text, rest)) :
    (∃ number, readNumber text = .ok number) ↔ PlainNumber text := by
  constructor
  · rintro ⟨number, hnumber⟩
    exact plainNumber_of_isNumber (readNumber_eq_ok_iff.mp hnumber)
  · intro hplain
    obtain ⟨number, hnumber⟩ := isNumber_of_plainNumber hsplit hplain
    exact ⟨number, readNumber_eq_ok_iff.mpr hnumber⟩

/-! ### The reader -/

/-- A state in which a scalar may come next. -/
def State.AwaitsValue : State → Prop
  | nextValue _ | firstItem _ _ => True
  | _ => False

section Step

variable {token : Token} {fault : NumberFault}

theorem stringOf_ne_number : State.stringOf token ≠ .error (.number fault) := by
  unfold State.stringOf
  cases unescape (token.text.drop 1).dropLast <;> nofun

theorem startValue_number_iff {outer : List Pending} :
    State.startValue token outer = .error (.number fault) ↔
      token.kind = .number ∧ readNumber token.text = .error fault := by
  unfold State.startValue
  dsimp only
  split
  next hkind =>
    rw [hkind, map_eq_error]
    exact ⟨fun h => absurd h stringOf_ne_number, fun h => absurd h.1 nofun⟩
  next hkind =>
    split
    next hnumber => simp [hnumber]
    next hnumber => simp [hkind, hnumber]
  next hkind => simp [hkind]
  next hkind =>
    split
    · simp [hkind]
    · split <;> simp [hkind, State.refuse]

theorem startMember_ne_number {first : Position} {members : List (Member Node)}
    {outer : List Pending} :
    State.startMember first members outer token ≠ .error (.number fault) := by
  unfold State.startMember
  split
  · rw [ne_eq, map_eq_error]
    exact stringOf_ne_number
  · nofun

/-- Only a number without a value is refused without a position. -/
theorem step_number_iff {state : State} :
    state.step token = .error (.number fault) ↔
      state.AwaitsValue ∧ token.kind = .number ∧ readNumber token.text = .error fault := by
  cases state with
  | nextValue => simp [State.step, State.AwaitsValue, startValue_number_iff]
  | firstItem =>
      rw [State.step]
      split
      next hclose => simp [hclose]
      next => simp [State.AwaitsValue, startValue_number_iff]
  | firstKey =>
      rw [State.step]
      split
      · simp [State.AwaitsValue]
      · simp [State.AwaitsValue, startMember_ne_number]
  | nextKey => simp [State.step, State.AwaitsValue, startMember_ne_number]
  | nextColon | afterItem | afterMember | done =>
      simp only [State.step, State.AwaitsValue, false_and, iff_false]
      repeat' split
      all_goals
        intro h
        cases h

end Step

/-- The numbers of a text all have a value. -/
def PlainNumbers (text : List Char) : Prop :=
  ∀ found, tokens text = .ok found → ∀ token ∈ found, token.kind = .number → PlainNumber token.text

theorem tokens_ne_number {text : List Char} {fault : NumberFault} :
    tokens text ≠ .error (.number fault) := by
  unfold tokens
  split <;> nofun

theorem finish_ne_number {state : State} {last : Position} {fault : NumberFault} :
    state.finish last ≠ .error (.number fault) := by
  cases state <;> nofun

/-- Reading fails without a position exactly at a number without a value, if it is met where a
value may start. -/
theorem read_number_iff (text : String) :
    (∃ fault, read text = .error (.number fault)) ↔
      ∃ before token after state, tokens text.toList = .ok (before ++ token :: after) ∧
        before.foldlM State.step (.nextValue []) = .ok state ∧ state.AwaitsValue ∧
        token.kind = .number ∧ ¬ PlainNumber token.text := by
  constructor
  · rintro ⟨fault, h⟩
    rcases bind_eq_error.mp h with hscan | ⟨found, hfound, h⟩
    · exact absurd hscan tokens_ne_number
    rcases bind_eq_error.mp h with hfold | ⟨state, -, hfinish⟩
    · obtain ⟨before, token, after, state, rfl, hbefore, hstep⟩ :=
        foldlM_step_eq_error_iff.mp hfold
      obtain ⟨hawaits, hkind, hread⟩ := step_number_iff.mp hstep
      obtain ⟨rest, hsplit⟩ :=
        splitLexeme?_of_mem_tokens hfound (List.mem_append_right before List.mem_cons_self)
      rw [hkind] at hsplit
      refine ⟨before, token, after, state, hfound, hbefore, hawaits, hkind, ?_⟩
      rw [← readNumber_eq_ok_iff_plain hsplit, hread]
      rintro ⟨number, hnumber⟩
      cases hnumber
    · exact absurd hfinish finish_ne_number
  · rintro ⟨before, token, after, state, hfound, hbefore, hawaits, hkind, hplain⟩
    obtain ⟨rest, hsplit⟩ :=
      splitLexeme?_of_mem_tokens hfound (List.mem_append_right before List.mem_cons_self)
    rw [hkind] at hsplit
    rw [← readNumber_eq_ok_iff_plain hsplit] at hplain
    cases hread : readNumber token.text with
    | ok number => exact absurd ⟨number, hread⟩ hplain
    | error fault =>
        have hstep := step_number_iff.mpr ⟨hawaits, hkind, hread⟩
        refine ⟨fault, bind_eq_error.mpr (.inr ⟨_, hfound, bind_eq_error.mpr (.inl ?_)⟩)⟩
        exact foldlM_step_eq_error_iff.mpr ⟨before, token, after, state, rfl, hbefore, hstep⟩

/-- A text in which every number has a value is read, or it is refused at a position that can be
counted in it. Reading fails without a position exactly at the numbers without a value, if they
are met where a value may start. -/
theorem read_faults (text : String) :
    (PlainNumbers text.toList → (∃ root, read text = .ok root) ∨
      ∃ fault position, read text = .error (.malformed fault position) ∧
        Exact text.toList position) ∧
    ((∃ fault, read text = .error (.number fault)) ↔
      ∃ before token after state, tokens text.toList = .ok (before ++ token :: after) ∧
        before.foldlM State.step (.nextValue []) = .ok state ∧ state.AwaitsValue ∧
        token.kind = .number ∧ ¬ PlainNumber token.text) := by
  refine ⟨fun hplain => ?_, read_number_iff text⟩
  cases hread : read text with
  | ok root => exact .inl ⟨root, rfl⟩
  | error error =>
      cases error with
      | malformed fault position => exact .inr ⟨fault, position, rfl, exact_of_fault hread⟩
      | number fault =>
          obtain ⟨before, token, after, state, hfound, -, -, hkind, hnot⟩ :=
            (read_number_iff text).mp ⟨fault, hread⟩
          have hmem := List.mem_append_right before (List.mem_cons_self (a := token) (l := after))
          exact absurd (hplain _ hfound token hmem hkind) hnot

namespace Unplain

/-- A number whose second digit is Arabic. -/
def mixed : String :=
  "1\u0662"

/-- A list of one plain number. -/
def plain : String :=
  "[-1.5]"

theorem tokens_plain : tokens plain.toList = .ok
    [⟨.mark '[', ['['], ⟨⟨1, 1, 0⟩, ⟨1, 2, 1⟩⟩⟩,
      ⟨.number, ['-', '1', '.', '5'], ⟨⟨1, 2, 1⟩, ⟨1, 6, 5⟩⟩⟩,
      ⟨.mark ']', [']'], ⟨⟨1, 6, 5⟩, ⟨1, 7, 6⟩⟩⟩] := by
  cbv

theorem plainNumbers_plain : PlainNumbers plain.toList := by
  intro found hfound token htoken hkind
  obtain rfl := Except.ok.inj (tokens_plain.symm.trans hfound)
  simp only [List.mem_cons, List.not_mem_nil, or_false] at htoken
  rcases htoken with rfl | rfl | rfl
  · cases hkind
  · refine ⟨?_, fun _ => by decide⟩
    simp only [List.mem_cons, List.not_mem_nil, or_false, forall_eq_or_imp, forall_eq]
    decide
  · cases hkind

theorem read_faults_plain : PlainNumbers plain.toList ∧
    ((∃ root, read plain = .ok root) ∨
      ∃ fault position, read plain = .error (.malformed fault position) ∧
        Exact plain.toList position) :=
  ⟨plainNumbers_plain, (read_faults plain).1 plainNumbers_plain⟩

theorem read_mixed : read mixed = .error (.number (.leftover 1)) := by
  have hsplit : splitLexeme? mixed.toList = some (.token .number mixed.toList, []) := by rfl
  have htokens : tokens mixed.toList =
      .ok [⟨.number, mixed.toList, ⟨⟨1, 1, 0⟩, ⟨1, 3, 2⟩⟩⟩] := by
    rw [tokens_eq_ok_iff, lex, scan_of_splitLexeme? hsplit, scan_nil]
    rfl
  have hnumber : readNumber mixed.toList = .error (.leftover 1) := by decide
  rw [read, htokens]
  simp only [bind, Except.bind, List.foldlM, State.step, State.startValue, hnumber]

/-- Not every text is read or refused at a position. -/
theorem not_read_or_malformed :
    ¬ ∀ text : String, (∃ root, read text = .ok root) ∨
      ∃ fault position, read text = .error (.malformed fault position) ∧
        Exact text.toList position := by
  intro h
  rcases h mixed with ⟨root, hread⟩ | ⟨fault, position, hread, -⟩
  all_goals
    rw [read_mixed] at hread
    cases hread

end Unplain

end Schemata.Json
