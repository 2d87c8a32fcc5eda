import Schemata.Text.Str

/-!
# Classes of characters

A class of characters is a short list of intervals of code points. The classes of this
library are fixed at Unicode 14.
-/

namespace Schemata

/-- A set of characters, listed as closed intervals of code points. -/
structure CharSet where
  intervals : List (Nat × Nat)

namespace CharSet

/-- Whether some interval of the set holds the character. -/
def contains (set : CharSet) (c : Char) : Bool :=
  set.intervals.any fun interval => interval.1 ≤ c.toNat && c.toNat ≤ interval.2

theorem contains_eq_true_iff {set : CharSet} {c : Char} :
    set.contains c = true ↔
      ∃ interval ∈ set.intervals, interval.1 ≤ c.toNat ∧ c.toNat ≤ interval.2 := by
  simp [contains]

end CharSet

end Schemata

namespace Schemata.Text

/-! ### Blanks -/

/-- The blank characters: the Unicode white space characters and the four information
separators U+001C to U+001F. -/
def blanks : CharSet :=
  ⟨[(0x09, 0x0D), (0x1C, 0x20), (0x85, 0x85), (0xA0, 0xA0), (0x1680, 0x1680),
    (0x2000, 0x200A), (0x2028, 0x2029), (0x202F, 0x202F), (0x205F, 0x205F),
    (0x3000, 0x3000)]⟩

def isBlank (c : Char) : Bool :=
  blanks.contains c

/-- The blanks a written number may be padded with: every blank except the
information separators. -/
def isPadding (c : Char) : Bool :=
  isBlank c && !(0x1C ≤ c.toNat && c.toNat ≤ 0x1F)

/-- Remove what is of some kind from both ends. -/
def trim {α : Type} (drop : α → Bool) (text : List α) : List α :=
  (((text.dropWhile drop).reverse).dropWhile drop).reverse

/-! ### Digits

Decimal digits come in runs of ten, one run per script, that start at a zero.
Characters such as superscripts and circled numbers are digits that no decimal
number can be written with. -/

/-- The zero of every run of decimal digits. -/
def zeros : List Nat :=
  [0x30, 0x660, 0x6F0, 0x7C0, 0x966, 0x9E6, 0xA66, 0xAE6, 0xB66, 0xBE6, 0xC66, 0xCE6, 0xD66,
   0xDE6, 0xE50, 0xED0, 0xF20, 0x1040, 0x1090, 0x17E0, 0x1810, 0x1946, 0x19D0, 0x1A80,
   0x1A90, 0x1B50, 0x1BB0, 0x1C40, 0x1C50, 0xA620, 0xA8D0, 0xA900, 0xA9D0, 0xA9F0, 0xAA50,
   0xABF0, 0xFF10, 0x104A0, 0x10D30, 0x11066, 0x110F0, 0x11136, 0x111D0, 0x112F0, 0x11450,
   0x114D0, 0x11650, 0x116C0, 0x11730, 0x118E0, 0x11950, 0x11C50, 0x11D50, 0x11DA0, 0x16A60,
   0x16AC0, 0x16B50, 0x1D7CE, 0x1D7D8, 0x1D7E2, 0x1D7EC, 0x1D7F6, 0x1E140, 0x1E2F0, 0x1E950,
   0x1FBF0]

/-- The value of a decimal digit of any script. -/
def decimalDigit? (c : Char) : Option Nat :=
  (zeros.find? fun first => first ≤ c.toNat && c.toNat < first + 10).map (c.toNat - ·)

def isDecimalDigit (c : Char) : Bool :=
  (decimalDigit? c).isSome

/-- The digits that are not decimal. -/
def figures : CharSet :=
  ⟨[(0xB2, 0xB3), (0xB9, 0xB9), (0x1369, 0x1371), (0x19DA, 0x19DA), (0x2070, 0x2070),
    (0x2074, 0x2079), (0x2080, 0x2089), (0x2460, 0x2468), (0x2474, 0x247C),
    (0x2488, 0x2490), (0x24EA, 0x24EA), (0x24F5, 0x24FD), (0x24FF, 0x24FF),
    (0x2776, 0x277E), (0x2780, 0x2788), (0x278A, 0x2792), (0x10A40, 0x10A43),
    (0x10E60, 0x10E68), (0x11052, 0x1105A), (0x1F100, 0x1F10A)]⟩

/-- Whether a character is a digit, decimal or not. -/
def isDigit (c : Char) : Bool :=
  isDecimalDigit c || figures.contains c

/-- Whether a string consists of digits and has at least one. -/
def isNumber (text : Str) : Bool :=
  !text.isEmpty && text.all (·.isIn isDigit)

/-! ### Hexadecimal digits

Numbered characters are written with a fixed count of lower-case hexadecimal
digits and read with digits of either case. -/

/-- A number in lower-case hexadecimal, filled with zeros up to the given width. -/
def hex (width n : Nat) : List Char :=
  (Nat.toDigits 16 n).leftpad width '0'

/-- The value of a hexadecimal digit of either case. -/
def hexDigit? (c : Char) : Option Nat :=
  if '0' ≤ c && c ≤ '9' then some (c.toNat - '0'.toNat)
  else if 'a' ≤ c && c ≤ 'f' then some (c.toNat - 'a'.toNat + 10)
  else if 'A' ≤ c && c ≤ 'F' then some (c.toNat - 'A'.toNat + 10)
  else none

/-- The value of exactly four hexadecimal digits. -/
def hexQuad? (a b c d : Char) : Option Nat := do
  let a ← hexDigit? a
  let b ← hexDigit? b
  let c ← hexDigit? c
  let d ← hexDigit? d
  return ((a * 16 + b) * 16 + c) * 16 + d

end Schemata.Text
