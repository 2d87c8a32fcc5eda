import Schemata.Number.Decimal
import Schemata.Text.Numeral

/-!
# Numbers

A number is an integer of any size or a floating-point number. Comparisons are
exact, also between an integer and a floating-point number.
-/

namespace Schemata

/-- An integer or a floating-point number. -/
inductive Number
  | integer (value : Int)
  | float (value : Binary64)
deriving DecidableEq

namespace Number

/-- The exact value of a finite number. -/
def value? : Number → Option Dyadic
  | integer value => some (.ofInt value)
  | float (.finite value) => some value
  | float .negativeZero => some 0
  | float (.infinite _) => none

/-- Whether the number is below zero; a zero with a minus sign is not. -/
def isNegative : Number → Bool
  | integer value => value < 0
  | float (.finite value) => value < 0
  | float .negativeZero => false
  | float (.infinite negative) => negative

/-- Whether a number is at most another. An infinite number is compared by its
sign, and equal to none but itself. -/
def atMost (a b : Number) : Bool :=
  match a.value?, b.value? with
  | some a, some b => a ≤ b
  | none, some _ => a.isNegative
  | some _, none => !b.isNegative
  | none, none => a.isNegative || !b.isNegative

/-- Whether the number is zero, of either sign. -/
def isZero (number : Number) : Bool :=
  number.value? == some 0

/-- The text of a number, given the text of infinity. -/
def textWith (infinity : String) : Number → String
  | integer value => Text.integerText value
  | float value => value.text infinity

/-- The text of a number in messages and names. -/
def text (number : Number) : String :=
  number.textWith "inf"

end Number

end Schemata
