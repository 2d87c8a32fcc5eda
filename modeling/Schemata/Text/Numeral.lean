import Schemata.Text.Printable

/-!
# Written integers

Integers are written in decimal. Reading is more generous: blanks may surround
the number, a sign may precede it, the digits may be those of any script, and
single underscores may stand between them. No integer of more than 4300 digits
is read.
-/

namespace Schemata.Text

/-- An integer in decimal, with a minus sign when it is negative. -/
def integer : Int → List Char
  | .ofNat n => Nat.toDigits 10 n
  | .negSucc n => '-' :: Nat.toDigits 10 (n + 1)

/-- An integer in decimal, as a string. -/
def integerText (n : Int) : String :=
  String.ofList (integer n)

/-- The number that a run of digits stands for, most significant digit first. -/
def digitsValue (digits : List Char) : Nat :=
  digits.foldl (fun n c => 10 * n + (decimalDigit? c).getD 0) 0

/-- The longest run of digits that is read as an integer. -/
def digitLimit : Nat := 4300

/-- Why a text is not read as an integer. -/
inductive NumeralFault
  | malformed
  | tooManyDigits (count : Nat)
deriving DecidableEq, Repr

/-- A sign, as whether the number is negative, and the text after it. -/
def splitSign : List Char → Bool × List Char
  | '+' :: rest => (false, rest)
  | '-' :: rest => (true, rest)
  | text => (false, text)

/-- Whether underscores stand only singly and between other characters. -/
def underscoresBetween : List Char → Bool
  | [] => true
  | ['_'] => false
  | '_' :: '_' :: _ => false
  | _ :: rest => underscoresBetween rest

/-- Read an unsigned integer. A misplaced underscore is found before a number
is found too long, and that before any character that follows the number. -/
def readNatural (text : List Char) : Except NumeralFault Nat :=
  let run := text.takeWhile fun c => isDecimalDigit c || c = '_'
  let digits := run.filter (· ≠ '_')
  if run.head? = some '_' || !underscoresBetween run then .error .malformed
  else if digitLimit < digits.length then .error (.tooManyDigits digits.length)
  else if digits.isEmpty || run.length < text.length then .error .malformed
  else .ok (digitsValue digits)

/-- Read an integer. -/
def readInteger (text : List Char) : Except NumeralFault Int :=
  let (negative, rest) := splitSign (trim isPadding text)
  (readNatural rest).map fun n => if negative then -(n : Int) else n

/-- The limit that a number of `count` digits breaks, in words. -/
def digitLimitMessage (count : Nat) : String :=
  "Exceeds the limit (" ++ integerText digitLimit ++
    " digits) for integer string conversion: value has " ++ integerText count ++
    " digits; use sys.set_int_max_str_digits() to increase the limit"

/-- What is wrong with a text that is not read as an integer, in words. -/
def NumeralFault.message (text : Str) : NumeralFault → String
  | .malformed =>
    "invalid literal for int() with base 10: " ++ String.ofList ((quote text).take 200)
  | .tooManyDigits count => digitLimitMessage count

end Schemata.Text
