/-!
# Binary floating-point numbers

A binary64 number has 53 significant bits and is kept as the exact dyadic
rational that it stands for, so that numbers are equal when their values are.
Rounding goes to the nearest number and in a tie to the even significand.
-/

namespace Schemata

/-- A binary64 number other than not-a-number. -/
inductive Binary64
  | finite (value : Dyadic)
  | negativeZero
  | infinite (negative : Bool)
deriving DecidableEq

namespace Binary64

/-- The number of significant bits. -/
def precision : Nat := 53

/-- The exponent of the last bit of the smallest numbers. -/
def leastExponent : Int := -1074

/-- The exponent of the last bit of the greatest finite numbers. -/
def greatestExponent : Int := 971

/-- Numerator and denominator of a quotient divided by a power of two. -/
def scale (num den : Nat) (exponent : Int) : Nat × Nat :=
  if 0 ≤ exponent then (num, den * Nat.pow 2 exponent.toNat)
  else (num * Nat.pow 2 (-exponent).toNat, den)

/-- The integer nearest to a quotient, the even one of two. -/
def roundQuotient (num den : Nat) : Nat :=
  let quotient := num / den
  let remainder := num % den
  if 2 * remainder < den then quotient
  else if den < 2 * remainder then quotient + 1
  else quotient + quotient % 2

/-- The exponent of the last significant bit of a positive quotient. -/
def lastBitExponent (num den : Nat) : Int :=
  let guess : Int := num.log2 - den.log2 - (precision - 1 : Nat)
  let scaled := scale num den guess
  let exponent := if scaled.1 < scaled.2 * Nat.pow 2 (precision - 1) then guess - 1 else guess
  max exponent leastExponent

/-- Zero with a sign. -/
def zero (negative : Bool) : Binary64 :=
  if negative then negativeZero else finite 0

/-- The number nearest to a quotient. -/
def ofQuotient (negative : Bool) (num den : Nat) : Binary64 :=
  if num = 0 then zero negative
  else
    let exponent := lastBitExponent num den
    let scaled := scale num den exponent
    let significand := roundQuotient scaled.1 scaled.2
    if significand = 0 then zero negative
    else if greatestExponent < exponent ||
        exponent = greatestExponent && significand = Nat.pow 2 precision then infinite negative
    else
      finite (.ofIntWithPrec (if negative then -significand else significand) (-exponent))

/-- The number nearest to `digits * 10 ^ exponent`. A number far outside the
range is settled by its count of digits. -/
def ofDecimal (negative : Bool) (digits : Nat) (exponent : Int) : Binary64 :=
  let magnitude := (Nat.toDigits 10 digits).length + exponent
  if digits = 0 || magnitude < -330 then zero negative
  else if 310 < magnitude then infinite negative
  else if 0 ≤ exponent then ofQuotient negative (digits * Nat.pow 10 exponent.toNat) 1
  else ofQuotient negative digits (Nat.pow 10 (-exponent).toNat)

end Binary64

end Schemata
