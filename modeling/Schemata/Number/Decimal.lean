import Schemata.Number.Binary64

/-!
# Decimal texts of floating-point numbers

A number is written with the fewest significant digits that read back as the
same number, and with those nearest to its value among them. Numbers of ordinary
size are written with a point in place, all others with a power of ten.
-/

namespace Schemata

/-- The number `digits * 10 ^ exponent`. -/
structure Decimal where
  digits : Nat
  exponent : Int
deriving DecidableEq, Repr

namespace Decimal

/-- How many digits the integer part of a positive quotient has; for a quotient
below one, minus the count of zeros that follow the point. -/
def pointPlace (num den : Nat) : Int :=
  if den ≤ num then (Nat.toDigits 10 (num / den)).length
  else 1 - (Nat.toDigits 10 ((den - 1) / num)).length

/-- Numerator and denominator of a quotient divided by a power of ten. -/
def scale (num den : Nat) (exponent : Int) : Nat × Nat :=
  if 0 ≤ exponent then (num, den * Nat.pow 10 exponent.toNat)
  else (num * Nat.pow 10 (-exponent).toNat, den)

/-- The two multiples of `10 ^ exponent` around a quotient, the nearer one first;
of two equally near ones the even multiple. -/
def neighbours (num den : Nat) (exponent : Int) : List Decimal :=
  let scaled := scale num den exponent
  let below := scaled.1 / scaled.2
  let twice := 2 * (scaled.1 % scaled.2)
  let below? : Decimal := ⟨below, exponent⟩
  let above? : Decimal := ⟨below + 1, exponent⟩
  if twice < scaled.2 || twice = scaled.2 && below % 2 = 0 then [below?, above?]
  else [above?, below?]

/-- Numerator and denominator of the absolute value of a dyadic rational. -/
def quotient : Dyadic → Nat × Nat
  | .zero => (0, 1)
  | .ofOdd n k _ =>
      if 0 ≤ k then (n.natAbs, Nat.pow 2 k.toNat) else (n.natAbs * Nat.pow 2 (-k).toNat, 1)

/-- All digits of a quotient whose denominator is a power of two. -/
def exact (num den : Nat) : Decimal :=
  ⟨num * Nat.pow 5 den.log2, -(den.log2 : Int)⟩

/-- The shortest decimal that reads back as the absolute value of a number, and
the nearest to it of those. -/
def shortest (value : Dyadic) : Decimal :=
  let (num, den) := quotient value
  let place := pointPlace num den
  let readsBack (decimal : Decimal) : Bool :=
    .ofDecimal false decimal.digits decimal.exponent = Binary64.ofQuotient false num den
  ((List.range 17).findSome? fun (count : Nat) =>
    (neighbours num den (place - (count + 1 : Nat))).find? readsBack).getD (exact num den)

end Decimal

/-- Where decimal texts keep the point in place: for numbers whose first digit
stands for a power of ten from `least` to `greatest`. -/
structure PointRange where
  least : Int
  greatest : Int

namespace PointRange

/-- Numbers from 0.0001 up to and below 10 ^ 16 keep the point in place. -/
def standard : PointRange :=
  ⟨-4, 15⟩

/-- A signed exponent of at least two digits. -/
def exponentText (exponent : Int) : List Char :=
  (if exponent < 0 then '-' else '+') ::
    (Nat.toDigits 10 exponent.natAbs).leftpad 2 '0'

/-- Digits with a point in place, and a zero after a point that ends them. -/
def positional (digits : List Char) (exponent : Int) : List Char :=
  if exponent < 0 then
    '0' :: '.' :: List.replicate (-exponent - 1).toNat '0' ++ digits
  else
    let whole := exponent.toNat + 1
    let fraction := digits.drop whole
    (digits.take whole).rightpad whole '0' ++
      '.' :: (if fraction.isEmpty then ['0'] else fraction)

/-- Digits with a point after the first, and a power of ten. -/
def scientific (digits : List Char) (exponent : Int) : List Char :=
  let fraction := digits.drop 1
  digits.take 1 ++ (if fraction.isEmpty then [] else '.' :: fraction) ++
    'e' :: exponentText exponent

/-- The text of a positive decimal. -/
def write (range : PointRange) (decimal : Decimal) : List Char :=
  let all := Nat.toDigits 10 decimal.digits
  let exponent := decimal.exponent + (all.length - 1 : Nat)
  let digits := (all.reverse.dropWhile (· = '0')).reverse
  if range.least ≤ exponent && exponent ≤ range.greatest then positional digits exponent
  else scientific digits exponent

end PointRange

/-- The text of a floating-point number, given the text of infinity. -/
def Binary64.text (infinity : String) : Binary64 → String
  | .finite value =>
      if value == 0 then "0.0"
      else
        let digits := String.ofList (PointRange.standard.write (Decimal.shortest value))
        if value < 0 then "-" ++ digits else digits
  | .negativeZero => "-0.0"
  | .infinite negative => if negative then "-" ++ infinity else infinity

end Schemata
