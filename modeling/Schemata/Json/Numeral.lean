import Schemata.Number.Basic

/-!
# Written numbers

A JSON number is an integer part without leading zeros, a fraction and an
exponent, of which the last two may be missing. A number without both is an
integer of any size up to the digit limit, any other one is floating-point.

The parts are split off a text for a given class of digits. The first digit of
the integer part is always one of the ten ASCII digits.
-/

namespace Schemata.Json

/-- The parts of a number as written: `fraction` starts with its point and
`exponent` with its letter, unless they are missing. -/
structure Numeral where
  minus : Bool
  whole : List Char
  fraction : List Char
  exponent : List Char
deriving DecidableEq, Repr

/-- Why a written number has no value. -/
inductive NumberFault
  | tooManyDigits (count : Nat)
  | leftover (length : Nat)
deriving DecidableEq, Repr

def isAsciiDigit (c : Char) : Bool :=
  '0' ≤ c && c ≤ '9'

namespace Numeral

def text (numeral : Numeral) : List Char :=
  (if numeral.minus then ['-'] else []) ++ numeral.whole ++ numeral.fraction ++ numeral.exponent

def splitMinus : List Char → Bool × List Char
  | '-' :: rest => (true, rest)
  | text => (false, text)

/-- Split off an integer part. -/
def splitWhole? (digit : Char → Bool) : List Char → Option (List Char × List Char)
  | [] => none
  | c :: rest =>
      if c = '0' then some (['0'], rest)
      else if '1' ≤ c && c ≤ '9' then some (c :: rest.takeWhile digit, rest.dropWhile digit)
      else none

/-- Split off a point and the digits after it, if there are any. -/
def splitFraction (digit : Char → Bool) : List Char → List Char × List Char
  | [] => ([], [])
  | c :: rest =>
      if c = '.' && !(rest.takeWhile digit).isEmpty then
        (c :: rest.takeWhile digit, rest.dropWhile digit)
      else ([], c :: rest)

/-- Split off a sign, if there is one. -/
def splitSign : List Char → List Char × List Char
  | [] => ([], [])
  | c :: rest => if c = '+' || c = '-' then ([c], rest) else ([], c :: rest)

/-- Split off an exponent letter, a sign and digits, if there are any. -/
def splitExponent (digit : Char → Bool) : List Char → List Char × List Char
  | [] => ([], [])
  | c :: rest =>
      let (sign, digits) := splitSign rest
      if (c = 'e' || c = 'E') && !(digits.takeWhile digit).isEmpty then
        (c :: sign ++ digits.takeWhile digit, digits.dropWhile digit)
      else ([], c :: rest)

/-- Split the longest number off the start of a text. -/
def split? (digit : Char → Bool) (text : List Char) : Option (Numeral × List Char) := do
  let (minus, rest) := splitMinus text
  let (whole, rest) ← splitWhole? digit rest
  let (fraction, rest) := splitFraction digit rest
  let (exponent, rest) := splitExponent digit rest
  return (⟨minus, whole, fraction, exponent⟩, rest)

/-- The power of ten that the exponent stands for. -/
def power (numeral : Numeral) : Int :=
  let (sign, digits) := splitSign (numeral.exponent.drop 1)
  let size : Int := Text.digitsValue digits
  if sign = ['-'] then -size else size

/-- The value of a number. -/
def number (numeral : Numeral) : Except NumberFault Number :=
  if numeral.fraction.isEmpty && numeral.exponent.isEmpty then
    if Text.digitLimit < numeral.whole.length then .error (.tooManyDigits numeral.whole.length)
    else
      let size : Int := Text.digitsValue numeral.whole
      .ok (.integer (if numeral.minus then -size else size))
  else
    let decimals := numeral.fraction.drop 1
    .ok (.float (.ofDecimal numeral.minus (Text.digitsValue (numeral.whole ++ decimals))
      (numeral.power - decimals.length)))

/-! ### The parts concatenate to the text -/

theorem splitWhole?_append {digit : Char → Bool} {text whole rest : List Char}
    (h : splitWhole? digit text = some (whole, rest)) : whole ++ rest = text := by
  cases text with
  | nil => cases h
  | cons c tail =>
    rw [splitWhole?] at h
    split at h
    · next hc => cases h; simp [hc]
    · split at h
      · cases h; simp
      · cases h

theorem splitFraction_append (digit : Char → Bool) (text : List Char) :
    (splitFraction digit text).1 ++ (splitFraction digit text).2 = text := by
  cases text with
  | nil => rfl
  | cons c tail =>
    rw [splitFraction]
    split <;> simp

theorem splitSign_append (text : List Char) :
    (splitSign text).1 ++ (splitSign text).2 = text := by
  cases text with
  | nil => rfl
  | cons c tail =>
    rw [splitSign]
    split <;> simp

theorem splitExponent_append (digit : Char → Bool) (text : List Char) :
    (splitExponent digit text).1 ++ (splitExponent digit text).2 = text := by
  cases text with
  | nil => rfl
  | cons c tail =>
    have hsign := splitSign_append tail
    simp only [splitExponent]
    split
    · simp [List.append_assoc, hsign]
    · simp

theorem splitMinus_append (text : List Char) :
    (if (splitMinus text).1 then ['-'] else []) ++ (splitMinus text).2 = text := by
  unfold splitMinus
  split <;> simp

/-- A split loses nothing. -/
theorem split?_append {digit : Char → Bool} {text rest : List Char} {numeral : Numeral}
    (h : split? digit text = some (numeral, rest)) : numeral.text ++ rest = text := by
  unfold split? at h
  simp only [Option.bind_eq_bind, Option.bind_eq_some_iff] at h
  obtain ⟨⟨whole, afterWhole⟩, hwhole, h⟩ := h
  cases h
  have hminus := splitMinus_append text
  have hwhole := splitWhole?_append hwhole
  have hfraction := splitFraction_append digit afterWhole
  have hexponent := splitExponent_append digit (splitFraction digit afterWhole).2
  simp only [Numeral.text, List.append_assoc]
  rw [hexponent, hfraction, hwhole, hminus]

theorem splitWhole?_ne_nil {digit : Char → Bool} {text whole rest : List Char}
    (h : splitWhole? digit text = some (whole, rest)) : whole ≠ [] := by
  cases text with
  | nil => cases h
  | cons c tail =>
    rw [splitWhole?] at h
    split at h
    · cases h; simp
    · split at h
      · cases h; simp
      · cases h

/-- A number has a digit. -/
theorem text_ne_nil_of_split? {digit : Char → Bool} {text rest : List Char} {numeral : Numeral}
    (h : split? digit text = some (numeral, rest)) : numeral.text ≠ [] := by
  unfold split? at h
  simp only [Option.bind_eq_bind, Option.bind_eq_some_iff] at h
  obtain ⟨⟨whole, afterWhole⟩, hwhole, h⟩ := h
  cases h
  have hne := splitWhole?_ne_nil hwhole
  simp [Numeral.text, hne]

end Numeral

/-- The value of a text that is one number in ASCII digits. -/
def readNumber (text : List Char) : Except NumberFault Number :=
  match Numeral.split? isAsciiDigit text with
  | none => .error (.leftover 0)
  | some (numeral, rest) => do
      let number ← numeral.number
      if rest.isEmpty then return number else throw (.leftover numeral.text.length)

/-- What is wrong with a written number, in words. -/
def NumberFault.message : NumberFault → String
  | .tooManyDigits count => Text.digitLimitMessage count
  | .leftover length =>
      "Extra data: line 1 column " ++ Text.integerText (length + 1) ++
        " (char " ++ Text.integerText length ++ ")"

end Schemata.Json
