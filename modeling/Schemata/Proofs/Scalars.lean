import Schemata.Proofs.Grammar
import Schemata.Proofs.Pointers

/-!
# Strings and numbers of the grammar

A string or number is read exactly if the grammar has it, and as the value that the grammar
gives it. It is split off a text where the grammar ends it, a number as long as no digit,
point or exponent follows.
-/

namespace Schemata.Json

open Grammar Source

/-! ### Strings -/

theorem plain_of_hexDigit? {c : Char} {value : Nat} (h : Text.hexDigit? c = some value) :
    ' ' ≤ c ∧ c ≠ '"' ∧ c ≠ '\\' := by
  have hrange : 48 ≤ c.toNat ∧ c.toNat ≤ 57 ∨ 97 ≤ c.toNat ∧ c.toNat ≤ 102 ∨
      65 ≤ c.toNat ∧ c.toNat ≤ 70 := by
    unfold Text.hexDigit? at h
    split at h
    next hdigit => exact .inl (by simpa [Char.le_def, UInt32.le_iff_toNat_le] using hdigit)
    split at h
    next hlower =>
      exact .inr (.inl (by simpa [Char.le_def, UInt32.le_iff_toNat_le] using hlower))
    split at h
    next hupper =>
      exact .inr (.inr (by simpa [Char.le_def, UInt32.le_iff_toNat_le] using hupper))
    · cases h
  refine ⟨?_, ?_, ?_⟩
  · rw [Char.le_def, UInt32.le_iff_toNat_le]
    have hspace : (' ' : Char).val.toNat = 32 := rfl
    have hvalue : c.val.toNat = c.toNat := rfl
    omega
  · rintro rfl
    simp at hrange
  · rintro rfl
    simp at hrange

theorem hexDigits_of_hexQuad? {a b c d : Char} {unit : Nat}
    (h : Text.hexQuad? a b c d = some unit) :
    ∀ digit ∈ [a, b, c, d], ∃ value, Text.hexDigit? digit = some value := by
  simp only [Text.hexQuad?, Option.bind_eq_bind, Option.bind_eq_some_iff] at h
  obtain ⟨first, hfirst, second, hsecond, third, hthird, last, hlast, -⟩ := h
  simp only [List.mem_cons, List.not_mem_nil, or_false, forall_eq_or_imp, forall_eq]
  exact ⟨⟨first, hfirst⟩, ⟨second, hsecond⟩, ⟨third, hthird⟩, ⟨last, hlast⟩⟩

section SplitString

variable {c : Char} {text rest : List Char}

theorem splitString?_plain (hc : ' ' ≤ c) (hquote : c ≠ '"') (hescape : c ≠ '\\') :
    splitString? (c :: text) =
      (splitString? text).map fun (body, rest) => (c :: body, rest) := by
  rw [splitString?]
  · rw [if_neg (by simpa using hc)]
  · exact hquote
  · exact fun heq _ => hescape heq
  · exact fun _ _ heq _ => hescape heq

theorem splitString?_escaped (hc : c ≠ '\n') :
    splitString? ('\\' :: c :: text) =
      (splitString? text).map fun (body, rest) => ('\\' :: c :: body, rest) := by
  rw [splitString?, if_neg hc]

end SplitString

theorem ne_newline_of_namedEscape? {letter c : Char} (h : namedEscape? letter = some c) :
    letter ≠ '\n' := by
  rintro rfl
  cases h

/-- The body of a string ends at its closing quote. -/
theorem splitString?_of_units {body : List Char} {units : Str} (h : Units body units)
    (rest : List Char) :
    splitString? (body ++ '"' :: rest) = some (body ++ ['"'], rest) := by
  induction h with
  | nil => simp [splitString?]
  | plain hc hquote hescape _ ih => simp [splitString?_plain hc hquote hescape, ih]
  | named hletter _ ih =>
      simp [splitString?_escaped (ne_newline_of_namedEscape? hletter), ih]
  | numbered hunit _ ih =>
      -- The digits of the number are plain characters.
      have hplain := hexDigits_of_hexQuad? hunit
      simp only [List.mem_cons, List.not_mem_nil, or_false, forall_eq_or_imp, forall_eq] at hplain
      obtain ⟨⟨_, ha⟩, ⟨_, hb⟩, ⟨_, hc⟩, ⟨_, hd⟩⟩ := hplain
      have ha := plain_of_hexDigit? ha
      have hb := plain_of_hexDigit? hb
      have hc := plain_of_hexDigit? hc
      have hd := plain_of_hexDigit? hd
      simp [splitString?_escaped (show 'u' ≠ '\n' by decide), ih,
        splitString?_plain ha.1 ha.2.1 ha.2.2, splitString?_plain hb.1 hb.2.1 hb.2.2,
        splitString?_plain hc.1 hc.2.1 hc.2.2, splitString?_plain hd.1 hd.2.1 hd.2.2]

/-- Text without quotes and control characters, except after backslashes. -/
inductive Closed : List Char → Prop
  | nil : Closed []
  | plain {c : Char} {rest : List Char} (hc : ' ' ≤ c) (hquote : c ≠ '"') (hescape : c ≠ '\\')
      (hrest : Closed rest) : Closed (c :: rest)
  | escaped {c : Char} {rest : List Char} (hrest : Closed rest) : Closed ('\\' :: c :: rest)

theorem closed_of_splitString? {text found rest : List Char}
    (h : splitString? text = some (found, rest)) : ∃ body, found = body ++ ['"'] ∧ Closed body := by
  fun_induction splitString? text generalizing found rest with
  | case1 => cases h
  | case2 => cases h; exact ⟨[], rfl, .nil⟩
  | case3 => cases h
  | case4 => cases h
  | case5 c tail hc ih =>
      obtain ⟨⟨inner, after⟩, hinner, heq⟩ := Option.map_eq_some_iff.mp h
      obtain ⟨body, rfl, hbody⟩ := ih hinner
      cases heq
      exact ⟨'\\' :: c :: body, rfl, .escaped hbody⟩
  | case6 => cases h
  | case7 c tail hquote hend hescape hc ih =>
      obtain ⟨⟨inner, after⟩, hinner, heq⟩ := Option.map_eq_some_iff.mp h
      obtain ⟨body, rfl, hbody⟩ := ih hinner
      cases heq
      refine ⟨c :: body, rfl, .plain (by simpa using hc) hquote ?_ hbody⟩
      -- A backslash would have been taken together with the character after it.
      rintro rfl
      cases tail with
      | nil => exact hend rfl rfl
      | cons next rest => exact hescape next rest rfl rfl

theorem Closed.of_cons {c : Char} {rest : List Char} (h : Closed (c :: rest)) (hc : c ≠ '\\') :
    Closed rest := by
  cases h with
  | plain _ _ _ hrest => exact hrest
  | escaped => exact absurd rfl hc

/-- What is read of a closed text is what the grammar gives it. -/
theorem Closed.derives {body : List Char} {found : Str} (h : Closed body)
    (hunits : units body = .ok found) : Units body found := by
  fun_induction units body generalizing found with
  | case1 =>
      cases hunits
      exact .nil
  | case2 a b c d rest unit hunit ih =>
      obtain ⟨others, hothers, rfl⟩ := map_eq_ok.mp hunits
      have hplain : ∀ digit ∈ [a, b, c, d], digit ≠ '\\' := by
        intro digit hdigit
        obtain ⟨_, hvalue⟩ := hexDigits_of_hexQuad? hunit digit hdigit
        exact (plain_of_hexDigit? hvalue).2.2
      simp only [List.mem_cons, List.not_mem_nil, or_false, forall_eq_or_imp, forall_eq] at hplain
      obtain ⟨ha, hb, hc, hd⟩ := hplain
      cases h with
      | plain _ _ hescape _ => exact absurd rfl hescape
      | escaped hrest =>
          have hrest := (((hrest.of_cons ha).of_cons hb).of_cons hc).of_cons hd
          exact .numbered hunit (ih hrest hothers)
  | case5 letter rest _ _ named hnamed ih =>
      obtain ⟨others, hothers, rfl⟩ := map_eq_ok.mp hunits
      cases h with
      | plain _ _ hescape _ => exact absurd rfl hescape
      | escaped hrest => exact .named hnamed (ih hrest hothers)
  | case8 c rest _ _ hpair _ ih =>
      obtain ⟨others, hothers, rfl⟩ := map_eq_ok.mp hunits
      cases h with
      | plain hc hquote hescape hrest => exact .plain hc hquote hescape (ih hrest hothers)
      | escaped => exact absurd rfl (hpair _ _ rfl)
  | case3 | case4 | case6 | case7 => cases hunits

theorem units_eq_ok {body : List Char} {found : Str} (h : Units body found) :
    units body = .ok found := by
  induction h with
  | nil => rfl
  | plain hc hquote hescape _ ih =>
      rw [units, ih]
      · rfl
      · exact fun _ _ _ _ _ heq _ => hescape heq
      · exact fun _ heq _ => hescape heq
      · exact fun _ _ heq _ => hescape heq
      · exact fun heq _ => hescape heq
  | @named letter c rest found hletter _ ih =>
      have hnumber : letter ≠ 'u' := by
        rintro rfl
        cases hletter
      rw [units]
      · simp only [hletter, ih, Except.map]
      · exact fun _ _ _ _ _ heq _ => hnumber heq
      · exact hnumber
  | numbered hunit _ ih => simp only [units, hunit, ih, Except.map]

/-! ### Surrogates -/

theorem pairOf?_of_isChar {c next : CodePoint} (h : c.isChar = true ∨ next.isChar = true) :
    pairOf? c next = none := by
  cases c with
  | char => rfl
  | surrogate =>
      cases next with
      | char => rfl
      | surrogate => exact absurd h (by simp [CodePoint.isChar, CodePoint.char?])

theorem pairOf?_eq_some {c next : CodePoint} {paired : Char} (h : pairOf? c next = some paired) :
    ∃ high low : Fin 0x800, c = .surrogate high ∧ next = .surrogate low ∧ high.val < 0x400 ∧
      0x400 ≤ low.val ∧ paired = Char.ofNat (0x10000 + high.val * 0x400 + (low.val - 0x400)) := by
  unfold pairOf? at h
  split at h
  next high low =>
    split at h
    next hpair => exact ⟨high, low, rfl, rfl, hpair.1, hpair.2, (Option.some.inj h).symm⟩
    next => cases h
  next => cases h

theorem joinPairs_alone {c : CodePoint} {units : Str}
    (h : ∀ next ∈ units.head?, pairOf? c next = none) :
    joinPairs (c :: units) = c :: joinPairs units := by
  cases units with
  | nil => rfl
  | cons next rest => rw [joinPairs, h next rfl]

theorem joinPairs_of_joined {units characters : Str} (h : Joined units characters) :
    joinPairs units = characters := by
  induction h with
  | nil => rfl
  | char _ ih => rw [joinPairs_alone fun _ _ => pairOf?_of_isChar (.inl rfl), ih]
  | pair hhigh hlow _ ih =>
      rw [joinPairs, pairOf?, if_pos ⟨hhigh, hlow⟩]
      exact congrArg _ ih
  | @unpaired unit units characters halone _ ih =>
      rw [joinPairs_alone, ih]
      intro next hnext
      cases next with
      | char => rfl
      | surrogate low =>
          rw [pairOf?, if_neg]
          rintro ⟨hhigh, hlow⟩
          exact absurd (halone hhigh low hnext) (Nat.not_lt.mpr hlow)

/-- A code point that is not joined with the next one. -/
theorem Grammar.Joined.alone {c : CodePoint} {units characters : Str}
    (halone : ∀ next ∈ units.head?, pairOf? c next = none) (hrest : Joined units characters) :
    Joined (c :: units) (c :: characters) := by
  cases c with
  | char => exact .char hrest
  | surrogate unit =>
      refine .unpaired (fun hhigh low hlow => Nat.lt_of_not_le fun hle => ?_) hrest
      have hnone := halone (.surrogate low) hlow
      rw [pairOf?, if_pos ⟨hhigh, hle⟩] at hnone
      cases hnone

theorem joined_joinPairs (units : Str) : Joined units (joinPairs units) := by
  fun_induction joinPairs units with
  | case1 => exact .nil
  | case2 c => exact .alone (by simp) .nil
  | case3 c next rest paired hpair ih =>
      obtain ⟨high, low, rfl, rfl, hhigh, hlow, hpaired⟩ := pairOf?_eq_some hpair
      rw [hpaired]
      exact .pair hhigh hlow ih
  | case4 c next rest hpair ih => exact .alone (by simpa using hpair) ih

/-- A closed text stands for what is read of it. -/
theorem Closed.unescape_eq_ok_iff {body : List Char} {characters : Str} (h : Closed body) :
    unescape body = .ok characters ↔ Characters body characters := by
  constructor
  · intro hread
    obtain ⟨found, hfound, rfl⟩ := map_eq_ok.mp hread
    exact ⟨found, h.derives hfound, joined_joinPairs found⟩
  · rintro ⟨found, hunits, hjoined⟩
    rw [unescape, units_eq_ok hunits, ← joinPairs_of_joined hjoined]
    rfl

theorem unescape_of_characters {body : List Char} {characters : Str}
    (h : Characters body characters) :
    unescape body = .ok characters := by
  obtain ⟨found, hunits, hjoined⟩ := h
  rw [unescape, units_eq_ok hunits, ← joinPairs_of_joined hjoined]
  rfl

/-! ### Numbers -/

/-- A class of digits that holds the ten ASCII digits and none of the other characters of a
number. -/
structure DigitClass (digit : Char → Bool) : Prop where
  ascii : ∀ c, c.isDigit = true → digit c = true
  point : digit '.' = false
  exponent : ∀ c, c = 'e' ∨ c = 'E' → digit c = false

/-- The rest of a text does not continue a number. -/
def Follows (digit : Char → Bool) (rest : List Char) : Prop :=
  ∀ c ∈ rest.head?, digit c = false ∧ c ≠ '.' ∧ c ≠ 'e' ∧ c ≠ 'E'

theorem isAsciiDigit_eq (c : Char) : isAsciiDigit c = c.isDigit := by
  rfl

theorem digitClass_isAsciiDigit : DigitClass isAsciiDigit where
  ascii c hc := by rwa [isAsciiDigit_eq]
  point := rfl
  exponent := by rintro c (rfl | rfl) <;> rfl

theorem digitClass_isDecimalDigit : DigitClass Text.isDecimalDigit where
  ascii c hc := by
    rw [Text.isDecimalDigit, Text.decimalDigit?_of_isDigit hc]
    rfl
  point := by decide
  exponent := by rintro c (rfl | rfl) <;> decide

namespace Numeral

section Split

variable {digit : Char → Bool} (hdigit : DigitClass digit) {digits rest : List Char}

include hdigit

/-- A run of digits ends where no digit follows. -/
theorem span_digits (hdigits : ∀ c ∈ digits, c.isDigit = true)
    (hrest : ∀ c ∈ rest.head?, digit c = false) :
    (digits ++ rest).takeWhile digit = digits ∧ (digits ++ rest).dropWhile digit = rest := by
  have hall : ∀ c ∈ digits, digit c = true := fun c hc => hdigit.ascii c (hdigits c hc)
  have hstop : rest.takeWhile digit = [] ∧ rest.dropWhile digit = rest := by
    cases rest with
    | nil => simp
    | cons c tail => simp [hrest c rfl]
  rw [List.takeWhile_append_of_pos hall, List.dropWhile_append_of_pos hall, hstop.1, hstop.2]
  simp

theorem splitWhole?_of_whole {whole : List Char} (hwhole : Whole whole)
    (hrest : ∀ c ∈ rest.head?, digit c = false) :
    splitWhole? digit (whole ++ rest) = some (whole, rest) := by
  cases whole with
  | nil => exact absurd rfl hwhole.ne_nil
  | cons first digits =>
      by_cases hzero : first = '0'
      · obtain ⟨-, rfl⟩ := List.cons.inj (hwhole.leading (by simp [hzero]))
        simp [splitWhole?, hzero]
      · have hfirst := hwhole.isDigit first List.mem_cons_self
        have hrange : '1' ≤ first ∧ first ≤ '9' := by
          have hne : first.toNat ≠ 48 := fun heq => hzero (Char.toNat_inj.mp heq)
          have hone : ('1' : Char).val.toNat = 49 := rfl
          have hvalue : first.val.toNat = first.toNat := rfl
          simp only [Char.isDigit, ge_iff_le, Bool.and_eq_true, decide_eq_true_eq,
            UInt32.le_iff_toNat_le] at hfirst
          refine ⟨?_, by simpa [Char.le_def, UInt32.le_iff_toNat_le] using hfirst.2⟩
          rw [Char.le_def, UInt32.le_iff_toNat_le]
          have hlow : 48 ≤ first.val.toNat := by simpa using hfirst.1
          omega
        have hspan := span_digits hdigit
          (fun c hc => hwhole.isDigit c (List.mem_cons_of_mem first hc)) hrest
        simp [splitWhole?, hzero, hrange, hspan.1, hspan.2]

theorem splitFraction_of_fraction {fraction decimals : List Char}
    (hfraction : Fraction fraction decimals) (hrest : ∀ c ∈ rest.head?, digit c = false)
    (hpoint : rest.head? ≠ some '.') :
    splitFraction digit (fraction ++ rest) = (fraction, rest) := by
  cases hfraction with
  | absent =>
      cases rest with
      | nil => rfl
      | cons c tail =>
          have hc : c ≠ '.' := by simpa using hpoint
          simp [splitFraction, hc]
  | point hdigits =>
      have hspan := span_digits hdigit hdigits.isDigit hrest
      simp [splitFraction, hspan.1, hspan.2, hdigits.ne_nil]

omit hdigit in
theorem splitSign_of_digits (hdigits : Digits digits) (rest : List Char) :
    splitSign (digits ++ rest) = ([], digits ++ rest) := by
  cases digits with
  | nil => exact absurd rfl hdigits.ne_nil
  | cons first others =>
      have hfirst := hdigits.isDigit first List.mem_cons_self
      have hsign : first ≠ '+' ∧ first ≠ '-' := by
        constructor
        all_goals
          rintro rfl
          exact absurd hfirst (by decide)
      simp [splitSign, hsign.1, hsign.2]

theorem splitExponent_of_exponent {exponent : List Char} {power : Int}
    (hexponent : Exponent exponent power) (hrest : Follows digit rest) :
    splitExponent digit (exponent ++ rest) = (exponent, rest) := by
  have hspan : ∀ {digits}, Digits digits → (digits ++ rest).takeWhile digit = digits ∧
      (digits ++ rest).dropWhile digit = rest := fun hdigits =>
    span_digits hdigit hdigits.isDigit fun c hc => (hrest c hc).1
  cases hexponent with
  | absent =>
      cases rest with
      | nil => rfl
      | cons c tail =>
          obtain ⟨-, -, hlower, hupper⟩ := hrest c rfl
          simp [splitExponent, hlower, hupper]
  | unsigned hletter hdigits =>
      have hsign := splitSign_of_digits hdigits rest
      simp [splitExponent, hsign, hletter, hspan hdigits, hdigits.ne_nil]
  | plus hletter hdigits | minus hletter hdigits =>
      simp [splitExponent, splitSign, hletter, hspan hdigits, hdigits.ne_nil]

end Split

theorem splitMinus_minusSign (negative : Bool) {whole : List Char} (hwhole : Whole whole)
    (rest : List Char) :
    splitMinus (minusSign negative ++ whole ++ rest) = (negative, whole ++ rest) := by
  cases negative with
  | true => rfl
  | false =>
      have hsign := splitSign_of_digits hwhole.toDigits rest
      cases whole with
      | nil => exact absurd rfl hwhole.ne_nil
      | cons first others =>
          have hfirst : first ≠ '-' := by
            rintro rfl
            exact absurd (hwhole.isDigit '-' List.mem_cons_self) (by decide)
          simp only [minusSign, Bool.false_eq_true, if_false, List.nil_append, List.cons_append]
          rw [splitMinus]
          exact fun _ heq => hfirst (List.cons.inj heq).1

theorem power_of_exponent {numeral : Numeral} {power : Int}
    (h : Exponent numeral.exponent power) : numeral.power = power := by
  obtain ⟨minus, whole, fraction, exponent⟩ := numeral
  simp only at h
  cases h with
  | absent => rfl
  | unsigned hletter hdigits =>
      have hsign := splitSign_of_digits hdigits []
      rw [List.append_nil] at hsign
      simp [power, hsign, Text.digitsValue_of_digits hdigits.isDigit, decimal]
  | plus hletter hdigits =>
      simp [power, splitSign, Text.digitsValue_of_digits hdigits.isDigit, decimal]
  | minus hletter hdigits =>
      simp [power, splitSign, Text.digitsValue_of_digits hdigits.isDigit, decimal]

theorem decimals_of_fraction {fraction decimals : List Char} (h : Fraction fraction decimals) :
    decimals = fraction.drop 1 ∧ ∀ c ∈ decimals, c.isDigit = true := by
  cases h with
  | absent => simp
  | point hdigits => exact ⟨rfl, hdigits.isDigit⟩

/-- The value of a number whose parts are those of the grammar. -/
theorem number_eq_ok_iff {numeral : Numeral} {decimals : List Char} {power : Int}
    {number : Number} (hwhole : Whole numeral.whole)
    (hfraction : Fraction numeral.fraction decimals)
    (hexponent : Exponent numeral.exponent power) :
    numeral.number = .ok number ↔
      if numeral.fraction = [] ∧ numeral.exponent = [] then
        numeral.whole.length ≤ Text.digitLimit ∧ number = .integer
          (if numeral.minus then -(decimal numeral.whole : Int) else decimal numeral.whole)
      else number = .float (.ofDecimal numeral.minus (decimal (numeral.whole ++ decimals))
        (power - decimals.length)) := by
  obtain ⟨rfl, hdecimals⟩ := decimals_of_fraction hfraction
  have hdigits : ∀ c ∈ numeral.whole ++ numeral.fraction.drop 1, c.isDigit = true := by
    intro c hc
    rcases List.mem_append.mp hc with hleft | hright
    · exact hwhole.isDigit c hleft
    · exact hdecimals c hright
  rw [Numeral.number, power_of_exponent hexponent]
  dsimp only
  rw [Text.digitsValue_of_digits hdigits, Text.digitsValue_of_digits hwhole.isDigit]
  by_cases hinteger : numeral.fraction = [] ∧ numeral.exponent = []
  · have hempty : (numeral.fraction.isEmpty && numeral.exponent.isEmpty) = true := by
      rw [hinteger.1, hinteger.2]
      rfl
    rw [if_pos hinteger, if_pos hempty]
    by_cases hlimit : Text.digitLimit < numeral.whole.length
    · rw [if_pos hlimit]
      exact ⟨nofun, fun h => absurd h.1 (Nat.not_le.mpr hlimit)⟩
    · rw [if_neg hlimit, Except.ok.injEq]
      exact ⟨fun h => ⟨Nat.not_lt.mp hlimit, h.symm⟩, fun h => h.2.symm⟩
  · have hempty : ¬ (numeral.fraction.isEmpty && numeral.exponent.isEmpty) = true := by
      rwa [Bool.and_eq_true, List.isEmpty_iff, List.isEmpty_iff]
    rw [if_neg hinteger, if_neg hempty, Except.ok.injEq]
    exact eq_comm

theorem isNumber_of_number {numeral : Numeral} {decimals : List Char} {power : Int}
    {number : Number} (hwhole : Whole numeral.whole)
    (hfraction : Fraction numeral.fraction decimals)
    (hexponent : Exponent numeral.exponent power) (hnumber : numeral.number = .ok number) :
    IsNumber Text.digitLimit numeral.text number := by
  rw [number_eq_ok_iff hwhole hfraction hexponent] at hnumber
  have hsign : numeral.text = minusSign numeral.minus ++ numeral.whole ++ numeral.fraction ++
    numeral.exponent := rfl
  split at hnumber
  next hinteger =>
    obtain ⟨hlimit, rfl⟩ := hnumber
    rw [hsign, hinteger.1, hinteger.2, List.append_nil, List.append_nil]
    exact .integer hwhole hlimit
  next hfloat =>
    rw [hsign, hnumber]
    exact .float hwhole hfraction hexponent (not_and_or.mp hfloat)

section Parts

variable {whole fraction decimals exponent rest : List Char} {power : Int}

/-- The parts of a number are split off as the grammar has them. -/
theorem split?_of_parts (negative : Bool) {digit : Char → Bool} (hdigit : DigitClass digit)
    (hwhole : Whole whole) (hfraction : Fraction fraction decimals)
    (hexponent : Exponent exponent power) (hrest : Follows digit rest) :
    split? digit (minusSign negative ++ whole ++ fraction ++ exponent ++ rest) =
      some (⟨negative, whole, fraction, exponent⟩, rest) := by
  have hafter : ∀ c ∈ (exponent ++ rest).head?, digit c = false ∧ c ≠ '.' := by
    have hletter : ∀ letter, letter = 'e' ∨ letter = 'E' →
        digit letter = false ∧ letter ≠ '.' := by
      intro letter hletter
      refine ⟨hdigit.exponent letter hletter, ?_⟩
      rcases hletter with rfl | rfl <;> decide
    intro c hc
    cases hexponent with
    | absent => exact ⟨(hrest c hc).1, (hrest c hc).2.1⟩
    | unsigned hother _ | plus hother _ | minus hother _ =>
        obtain rfl := Option.some.inj hc
        exact hletter _ hother
  have hbefore : ∀ c ∈ (fraction ++ (exponent ++ rest)).head?, digit c = false := by
    intro c hc
    cases hfraction with
    | absent => exact (hafter c hc).1
    | point _ =>
        obtain rfl := Option.some.inj hc
        exact hdigit.point
  have hminus := splitMinus_minusSign negative hwhole (fraction ++ (exponent ++ rest))
  have hfirst := splitWhole?_of_whole hdigit hwhole hbefore
  have hsecond := splitFraction_of_fraction hdigit hfraction (fun c hc => (hafter c hc).1)
    fun hpoint => (hafter '.' hpoint).2 rfl
  have hthird := splitExponent_of_exponent hdigit hexponent hrest
  simp only [List.append_assoc] at hminus ⊢
  simp [split?, hminus, hfirst, hsecond, hthird]

end Parts

/-- A number of the grammar is split off whatever follows it without continuing it. -/
theorem split?_of_isNumber {limit : Nat} {text : List Char} {number : Number}
    (h : IsNumber limit text number) :
    ∃ numeral : Numeral, (limit ≤ Text.digitLimit → numeral.number = .ok number) ∧
      ∀ (digit : Char → Bool) (rest : List Char), DigitClass digit → Follows digit rest →
        split? digit (text ++ rest) = some (numeral, rest) := by
  cases h with
  | @integer negative whole hwhole hlength =>
      refine ⟨⟨negative, whole, [], []⟩, fun hlimit => ?_, fun digit rest hdigit hrest => ?_⟩
      · rw [number_eq_ok_iff hwhole .absent .absent]
        simp [hlength.trans hlimit]
      · simpa using split?_of_parts negative hdigit hwhole .absent .absent hrest
  | @float negative whole fraction decimals exponent power hwhole hfraction hexponent hpart =>
      refine ⟨⟨negative, whole, fraction, exponent⟩, fun _ => ?_,
        fun digit rest hdigit hrest => ?_⟩
      · rw [number_eq_ok_iff hwhole hfraction hexponent, if_neg]
        rintro ⟨hnone, hnone'⟩
        exact hpart.elim (absurd hnone) (absurd hnone')
      · exact split?_of_parts negative hdigit hwhole hfraction hexponent hrest

section Ascii

variable {digit : Char → Bool} {text whole rest : List Char}

theorem digits_of_takeWhile (hne : text.takeWhile digit ≠ [])
    (hascii : ∀ c ∈ text.takeWhile digit, digit c = true → c.isDigit = true) :
    Digits (text.takeWhile digit) :=
  ⟨hne, fun c hc => hascii c hc (List.mem_takeWhile_imp hc)⟩

theorem whole_of_splitWhole? (h : splitWhole? digit text = some (whole, rest))
    (hascii : ∀ c ∈ whole, digit c = true → c.isDigit = true) : Whole whole := by
  cases text with
  | nil => cases h
  | cons c tail =>
      rw [splitWhole?] at h
      split at h
      · cases h
        exact ⟨⟨by simp, by simp⟩, fun _ => rfl⟩
      split at h
      next hzero hfirst =>
        cases h
        refine ⟨⟨by simp, fun other hother => ?_⟩, fun hleading => ?_⟩
        · rcases List.mem_cons.mp hother with rfl | htail
          · simp only [Bool.and_eq_true, decide_eq_true_eq] at hfirst
            have hlow : '0' ≤ other := Char.le_trans (show '0' ≤ '1' by decide) hfirst.1
            rw [← isAsciiDigit_eq, isAsciiDigit]
            simp [hlow, hfirst.2]
          · exact hascii other hother (List.mem_takeWhile_imp htail)
        · exact absurd (by simpa using hleading) hzero
      · cases h

theorem fraction_of_splitFraction (text : List Char)
    (hascii : ∀ c ∈ (splitFraction digit text).1, digit c = true → c.isDigit = true) :
    ∃ decimals, Fraction (splitFraction digit text).1 decimals := by
  cases text with
  | nil => exact ⟨[], .absent⟩
  | cons c tail =>
      rw [splitFraction] at hascii ⊢
      split at hascii
      next hpoint =>
        rw [if_pos hpoint]
        simp only [Bool.and_eq_true, decide_eq_true_eq, Bool.not_eq_true',
          List.isEmpty_eq_false_iff] at hpoint
        obtain ⟨rfl, hne⟩ := hpoint
        have hdigits := digits_of_takeWhile hne fun c hc => hascii c (List.mem_cons_of_mem _ hc)
        exact ⟨_, .point hdigits⟩
      next hpoint =>
        rw [if_neg hpoint]
        exact ⟨[], .absent⟩

theorem exponent_of_splitExponent (text : List Char)
    (hascii : ∀ c ∈ (splitExponent digit text).1, digit c = true → c.isDigit = true) :
    ∃ power, Exponent (splitExponent digit text).1 power := by
  cases text with
  | nil => exact ⟨0, .absent⟩
  | cons c tail =>
      simp only [splitExponent] at hascii ⊢
      split at hascii
      next hletter =>
        rw [if_pos hletter]
        simp only [Bool.and_eq_true, Bool.or_eq_true, decide_eq_true_eq, Bool.not_eq_true',
          List.isEmpty_eq_false_iff] at hletter
        have hdigits := digits_of_takeWhile hletter.2 fun c hc =>
          hascii c (List.mem_append_right _ hc)
        cases tail with
        | nil => exact ⟨_, .unsigned hletter.1 hdigits⟩
        | cons sign digits =>
            by_cases hplus : sign = '+'
            · subst hplus
              exact ⟨_, .plus hletter.1 hdigits⟩
            by_cases hminus : sign = '-'
            · subst hminus
              exact ⟨_, .minus hletter.1 hdigits⟩
            · have hnone : splitSign (sign :: digits) = ([], sign :: digits) := by
                simp [splitSign, hplus, hminus]
              rw [hnone] at hdigits ⊢
              exact ⟨_, .unsigned hletter.1 hdigits⟩
      next hletter =>
        rw [if_neg hletter]
        exact ⟨0, .absent⟩

/-- The parts that are split off a text are those of the grammar if their digits are. -/
theorem parts_of_split? {numeral : Numeral} (h : split? digit text = some (numeral, rest))
    (hascii : ∀ c ∈ numeral.text, digit c = true → c.isDigit = true) :
    ∃ decimals power, Whole numeral.whole ∧ Fraction numeral.fraction decimals ∧
      Exponent numeral.exponent power := by
  unfold split? at h
  simp only [Option.bind_eq_bind, Option.bind_eq_some_iff] at h
  obtain ⟨⟨whole, after⟩, hwhole, h⟩ := h
  cases h
  simp only [Numeral.text, List.mem_append] at hascii
  obtain ⟨decimals, hfraction⟩ := fraction_of_splitFraction after fun c hc =>
    hascii c (.inl (.inr hc))
  obtain ⟨power, hexponent⟩ := exponent_of_splitExponent (splitFraction digit after).2
    fun c hc => hascii c (.inr hc)
  have hwhole := whole_of_splitWhole? hwhole fun c hc => hascii c (.inl (.inl (.inr hc)))
  exact ⟨decimals, power, hwhole, hfraction, hexponent⟩

end Ascii

end Numeral

theorem Grammar.IsNumber.mono {limit higher : Nat} {text : List Char} {number : Number}
    (h : IsNumber limit text number) (hlimit : limit ≤ higher) : IsNumber higher text number := by
  cases h with
  | integer hwhole hlength => exact .integer hwhole (hlength.trans hlimit)
  | float hwhole hfraction hexponent hpart => exact .float hwhole hfraction hexponent hpart

/-- A text is read as a number exactly if it is one of the grammar. -/
theorem readNumber_eq_ok_iff {text : List Char} {number : Number} :
    readNumber text = .ok number ↔ IsNumber Text.digitLimit text number := by
  constructor
  · intro h
    unfold readNumber at h
    split at h
    · cases h
    next numeral rest hsplit =>
      obtain ⟨found, hfound, h⟩ := bind_eq_ok.mp h
      split at h
      next hrest =>
        obtain rfl := Except.ok.inj h
        have happend := Numeral.split?_append hsplit
        rw [List.isEmpty_iff.mp hrest, List.append_nil] at happend
        obtain ⟨decimals, power, hwhole, hfraction, hexponent⟩ :=
          Numeral.parts_of_split? hsplit fun c _ hc => by rwa [← isAsciiDigit_eq]
        rw [← happend]
        exact Numeral.isNumber_of_number hwhole hfraction hexponent hfound
      next => cases h
  · intro h
    obtain ⟨numeral, hnumber, hsplit⟩ := Numeral.split?_of_isNumber h
    have hall := hsplit isAsciiDigit [] digitClass_isAsciiDigit (by simp [Follows])
    rw [List.append_nil] at hall
    simp [readNumber, hall, hnumber le_rfl]

end Schemata.Json
