import Schemata.Json.Reader

/-!
# The grammar of JSON texts

A JSON text is one value with blanks around it. The grammar assigns a tree to every text
that it derives, starting from a position: members and items are kept in the order of the
text, the value of a string is what its escapes stand for, and a number without fraction
and exponent is an exact integer. Integers may have to keep to a limit of digits.

What follows the first item of an array, its closing bracket included, is a phrase of its
own, and so is what follows the first member of an object.
-/

namespace Schemata.Json.Grammar

open Source

/-- The blanks between tokens: spaces, tabs and line ends. -/
def Blank (text : List Char) : Prop :=
  ∀ c ∈ text, c = ' ' ∨ c = '\t' ∨ c = '\n' ∨ c = '\r'

/-! ### Numbers -/

/-- One or more of the digits 0 to 9. -/
structure Digits (text : List Char) : Prop where
  ne_nil : text ≠ []
  isDigit : ∀ c ∈ text, c.isDigit = true

/-- An integer part: digits without a leading zero, or a zero alone. -/
structure Whole (text : List Char) : Prop extends Digits text where
  leading : text.head? = some '0' → text = ['0']

/-- The number that decimal digits stand for. -/
def decimal (digits : List Char) : Nat :=
  Nat.ofDigitChars 10 digits 0

/-- A fraction, which may be missing, and its digits. -/
inductive Fraction : List Char → List Char → Prop
  | absent : Fraction [] []
  | point {digits : List Char} (hdigits : Digits digits) : Fraction ('.' :: digits) digits

/-- An exponent, which may be missing, and the power of ten that it stands for. -/
inductive Exponent : List Char → Int → Prop
  | absent : Exponent [] 0
  | unsigned {letter : Char} {digits : List Char} (hletter : letter = 'e' ∨ letter = 'E')
      (hdigits : Digits digits) : Exponent (letter :: digits) (decimal digits)
  | plus {letter : Char} {digits : List Char} (hletter : letter = 'e' ∨ letter = 'E')
      (hdigits : Digits digits) : Exponent (letter :: '+' :: digits) (decimal digits)
  | minus {letter : Char} {digits : List Char} (hletter : letter = 'e' ∨ letter = 'E')
      (hdigits : Digits digits) : Exponent (letter :: '-' :: digits) (-(decimal digits : Int))

def minusSign (negative : Bool) : List Char :=
  if negative then ['-'] else []

/-- A number and its value. Without fraction and exponent it is an integer of at most
`limit` digits. -/
inductive IsNumber (limit : Nat) : List Char → Number → Prop
  | integer {negative : Bool} {whole : List Char} (hwhole : Whole whole)
      (hlimit : whole.length ≤ limit) :
      IsNumber limit (minusSign negative ++ whole)
        (.integer (if negative then -(decimal whole : Int) else decimal whole))
  | float {negative : Bool} {whole fraction decimals exponent : List Char} {power : Int}
      (hwhole : Whole whole) (hfraction : Fraction fraction decimals)
      (hexponent : Exponent exponent power) (hpart : fraction ≠ [] ∨ exponent ≠ []) :
      IsNumber limit (minusSign negative ++ whole ++ fraction ++ exponent)
        (.float (.ofDecimal negative (decimal (whole ++ decimals)) (power - decimals.length)))

/-! ### Strings -/

/-- What stands between the quotes of a string, and the characters and 16-bit units that it
stands for. -/
inductive Units : List Char → Str → Prop
  | nil : Units [] []
  | plain {c : Char} {rest : List Char} {units : Str} (hc : ' ' ≤ c) (hquote : c ≠ '"')
      (hescape : c ≠ '\\') (hrest : Units rest units) : Units (c :: rest) (.char c :: units)
  | named {letter c : Char} {rest : List Char} {units : Str}
      (hletter : namedEscape? letter = some c) (hrest : Units rest units) :
      Units ('\\' :: letter :: rest) (.char c :: units)
  | numbered {a b c d : Char} {unit : Nat} {rest : List Char} {units : Str}
      (hunit : Text.hexQuad? a b c d = some unit) (hrest : Units rest units) :
      Units ('\\' :: 'u' :: a :: b :: c :: d :: rest) (.ofNat unit :: units)

/-- The string that characters and units make. A high surrogate and the low one that follows
it make one character; a surrogate without its partner stays what it is. -/
inductive Joined : Str → Str → Prop
  | nil : Joined [] []
  | char {c : Char} {units characters : Str} (hrest : Joined units characters) :
      Joined (.char c :: units) (.char c :: characters)
  | pair {high low : Fin 0x800} {units characters : Str} (hhigh : high.val < 0x400)
      (hlow : 0x400 ≤ low.val) (hrest : Joined units characters) :
      Joined (.surrogate high :: .surrogate low :: units)
        (.char (Char.ofNat (0x10000 + high.val * 0x400 + (low.val - 0x400))) :: characters)
  | unpaired {unit : Fin 0x800} {units characters : Str}
      (halone : unit.val < 0x400 →
        ∀ low : Fin 0x800, units.head? = some (.surrogate low) → low.val < 0x400)
      (hrest : Joined units characters) :
      Joined (.surrogate unit :: units) (.surrogate unit :: characters)

/-- What stands between the quotes of a string, and the code points that it stands for. -/
def Characters (body : List Char) (characters : Str) : Prop :=
  ∃ units, Units body units ∧ Joined units characters

/-- A body between quotes. -/
def inQuotes (body : List Char) : List Char :=
  '"' :: body ++ ['"']

/-! ### Values -/

inductive IsScalar (limit : Nat) : List Char → Scalar → Prop
  | null : IsScalar limit ['n', 'u', 'l', 'l'] .null
  | true : IsScalar limit ['t', 'r', 'u', 'e'] (.bool true)
  | false : IsScalar limit ['f', 'a', 'l', 's', 'e'] (.bool false)
  | number {text : List Char} {number : Number} (hnumber : IsNumber limit text number) :
      IsScalar limit text (.number number)
  | string {body : List Char} {characters : Str} (hbody : Characters body characters) :
      IsScalar limit (inQuotes body) (.string characters)

/-- What a piece of text is written for: a value, a member, or the items or members that
follow the first one of their container. -/
inductive Phrase
  | value (node : Node)
  | member (member : Member Node)
  | items (nodes : List Node)
  | members (members : List (Member Node))

/-- The key with the given body between its quotes, at a position. -/
def keyAt (position : Position) (body : List Char) (characters : Str) : Key :=
  ⟨characters, String.ofList (inQuotes body), ⟨position, position.past (inQuotes body)⟩⟩

/-- A piece of text that starts at a position is written for a phrase. -/
inductive Written (limit : Nat) : Position → List Char → Phrase → Prop
  | scalar {position : Position} {text : List Char} {value : Scalar}
      (hscalar : IsScalar limit text value) :
      Written limit position text
        (.value (.scalar ⟨position, position.past text⟩ value (String.ofList text)))
  | emptyArray {position : Position} {blank : List Char} (hblank : Blank blank) :
      Written limit position ('[' :: blank ++ [']'])
        (.value (.array ⟨position, position.past ('[' :: blank ++ [']'])⟩ []))
  | array {position : Position} {blank text rest : List Char} {first : Node}
      {others : List Node} (hblank : Blank blank)
      (hfirst : Written limit (position.past ('[' :: blank)) text (.value first))
      (hrest : Written limit (position.past ('[' :: blank ++ text)) rest (.items others)) :
      Written limit position ('[' :: blank ++ text ++ rest)
        (.value (.array ⟨position, position.past ('[' :: blank ++ text ++ rest)⟩
          (first :: others)))
  | lastItem {position : Position} {blank : List Char} (hblank : Blank blank) :
      Written limit position (blank ++ [']']) (.items [])
  | nextItem {position : Position} {before after text rest : List Char} {next : Node}
      {others : List Node} (hbefore : Blank before) (hafter : Blank after)
      (hnext : Written limit (position.past (before ++ ',' :: after)) text (.value next))
      (hrest : Written limit (position.past (before ++ ',' :: after ++ text)) rest
        (.items others)) :
      Written limit position (before ++ ',' :: after ++ text ++ rest) (.items (next :: others))
  | member {position : Position} {body : List Char} {characters : Str}
      {before after text : List Char} {value : Node}
      (hbody : Characters body characters) (hbefore : Blank before) (hafter : Blank after)
      (hvalue : Written limit (position.past (inQuotes body ++ before ++ ':' :: after)) text
        (.value value)) :
      Written limit position (inQuotes body ++ before ++ ':' :: after ++ text)
        (.member ⟨keyAt position body characters, value⟩)
  | emptyObject {position : Position} {blank : List Char} (hblank : Blank blank) :
      Written limit position ('\x7b' :: blank ++ ['\x7d'])
        (.value (.object ⟨position, position.past ('\x7b' :: blank ++ ['\x7d'])⟩ []))
  | object {position : Position} {blank text rest : List Char} {first : Member Node}
      {others : List (Member Node)} (hblank : Blank blank)
      (hfirst : Written limit (position.past ('\x7b' :: blank)) text (.member first))
      (hrest : Written limit (position.past ('\x7b' :: blank ++ text)) rest
        (.members others)) :
      Written limit position ('\x7b' :: blank ++ text ++ rest)
        (.value (.object ⟨position, position.past ('\x7b' :: blank ++ text ++ rest)⟩
          (first :: others)))
  | lastMember {position : Position} {blank : List Char} (hblank : Blank blank) :
      Written limit position (blank ++ ['\x7d']) (.members [])
  | nextMember {position : Position} {before after text rest : List Char} {next : Member Node}
      {others : List (Member Node)} (hbefore : Blank before) (hafter : Blank after)
      (hnext : Written limit (position.past (before ++ ',' :: after)) text (.member next))
      (hrest : Written limit (position.past (before ++ ',' :: after ++ text)) rest
        (.members others)) :
      Written limit position (before ++ ',' :: after ++ text ++ rest)
        (.members (next :: others))

/-- A text is a JSON text whose integers keep to the limit, and this is its tree. -/
def IsText (limit : Nat) (text : List Char) (root : Node) : Prop :=
  ∃ before body after, text = before ++ body ++ after ∧ Blank before ∧ Blank after ∧
    Written limit (Position.start.past before) body (.value root)

end Schemata.Json.Grammar
