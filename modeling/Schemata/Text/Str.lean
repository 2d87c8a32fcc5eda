/-!
# Strings

A string is a sequence of code points. Most of them are characters, but a string that
is decoded from escapes may also hold surrogates, halves of a pair that stand alone.
Texts that are read from files hold nothing but characters; such a text counts as the
string of its characters.
-/

namespace Schemata

/-- A code point: a character, or the surrogate so far above U+D800. -/
inductive CodePoint
  | char (c : Char)
  | surrogate (index : Fin 0x800)
deriving DecidableEq, Repr

namespace CodePoint

/-- The code point of a number below U+110000. -/
def ofNat (n : Nat) : CodePoint :=
  if h : 0xD800 ≤ n ∧ n < 0xE000 then surrogate ⟨n - 0xD800, by omega⟩ else char (Char.ofNat n)

def char? : CodePoint → Option Char
  | char c => some c
  | surrogate _ => none

def isChar (c : CodePoint) : Bool :=
  c.char?.isSome

/-- Whether a code point is a character of some class. -/
def isIn (kind : Char → Bool) : CodePoint → Bool
  | char c => kind c
  | surrogate _ => false

end CodePoint

/-- A sequence of code points. -/
abbrev Str := List CodePoint

/-- Equality of strings decides membership in lists of them. -/
instance instLawfulBEqStr : LawfulBEq Str :=
  List.instLawfulBEq

namespace Str

/-- The string of the given characters. -/
def ofChars (text : List Char) : Str :=
  text.map .char

/-- A text as a string. -/
def ofString (text : String) : Str :=
  ofChars text.toList

instance : Coe String Str :=
  ⟨ofString⟩

/-- The characters of a string, without its surrogates. -/
def chars (text : Str) : List Char :=
  text.filterMap CodePoint.char?

@[simp] theorem ofChars_nil : ofChars [] = [] :=
  rfl

@[simp] theorem ofChars_cons (c : Char) (text : List Char) :
    ofChars (c :: text) = .char c :: ofChars text :=
  rfl

@[simp] theorem ofChars_append (text more : List Char) :
    ofChars (text ++ more) = ofChars text ++ ofChars more :=
  List.map_append

@[simp] theorem chars_ofChars (text : List Char) : (ofChars text).chars = text := by
  induction text with
  | nil => rfl
  | cons c rest ih => exact congrArg (c :: ·) ih

@[simp] theorem ofChars_inj {text other : List Char} :
    ofChars text = ofChars other ↔ text = other :=
  ⟨fun h => by simpa using congrArg chars h, congrArg ofChars⟩

@[simp] theorem ofString_inj {text other : String} :
    ofString text = ofString other ↔ text = other :=
  ofChars_inj.trans String.toList_inj

@[simp] theorem ofString_append (text more : String) :
    ofString (text ++ more) = ofString text ++ ofString more := by
  simp [ofString]

@[simp] theorem chars_ofString (text : String) : (ofString text).chars = text.toList :=
  chars_ofChars text.toList

@[simp] theorem mem_ofChars {c : CodePoint} {text : List Char} :
    c ∈ ofChars text ↔ ∃ d ∈ text, .char d = c :=
  List.mem_map

end Str

end Schemata
