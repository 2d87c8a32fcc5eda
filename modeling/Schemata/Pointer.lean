import Schemata.Text.Str

/-!
# Pointers

A pointer names a value of a document by the keys and indexes that lead to it
from the root. It is kept as written: segments with slashes between them, in
which `~1` stands for a slash and `~0` for a tilde. A tilde before any other
character stands for itself.
-/

namespace Schemata

/-- A pointer as written. -/
abbrev Pointer := Str

namespace Pointer

/-- The pointer to a whole document, and the first segment of all that resolve. -/
def root : Pointer :=
  "#"

/-- One code point of a key in a segment. -/
def escapeCodePoint (c : CodePoint) : Str :=
  if c = .char '~' then [.char '~', .char '0']
  else if c = .char '/' then [.char '~', .char '1']
  else [c]

/-- A key as a segment. -/
def escape (key : Str) : Str :=
  key.flatMap escapeCodePoint

/-- The key that a segment stands for. -/
def unescape : Str → Str
  | [] => []
  | .char '~' :: .char '0' :: rest => .char '~' :: unescape rest
  | .char '~' :: .char '1' :: rest => .char '/' :: unescape rest
  | c :: rest => c :: unescape rest

/-- The keys that a pointer goes through, the root marker included. -/
def segments (pointer : Pointer) : List Str :=
  (pointer.splitOn (.char '/')).map unescape

/-- The pointer to the part of a value under a key. -/
def child (pointer : Pointer) (key : Str) : Pointer :=
  pointer ++ .char '/' :: escape key

/-- The pointer to an item of an array. -/
def item (pointer : Pointer) (index : Nat) : Pointer :=
  pointer.child (Str.ofChars (Nat.toDigits 10 index))

/-- The pointer that goes on through the given keys. -/
def join (pointer : Pointer) (keys : List Str) : Pointer :=
  keys.foldl child pointer

/-- The pointer with the given segments, of which there must be one. The first
is taken as written. -/
def ofSegments? : List Str → Option Pointer
  | [] => none
  | first :: rest => some (join first rest)

/-! ### Escapes as replacements -/

/-- A string with each occurrence of a pair of characters replaced, from left to right. -/
def replacePair (first second new : Char) : Str → Str
  | [] => []
  | [c] => [c]
  | c :: next :: rest =>
      if c = .char first ∧ next = .char second then .char new :: replacePair first second new rest
      else c :: replacePair first second new (next :: rest)

section Replacement

variable {first second new : Char}

@[simp] theorem replacePair_pair (rest : Str) :
    replacePair first second new (.char first :: .char second :: rest) =
      .char new :: replacePair first second new rest := by
  rw [replacePair, if_pos ⟨rfl, rfl⟩]

theorem replacePair_cons {c : CodePoint} {rest : Str}
    (h : c = .char first → rest.head? ≠ some (.char second)) :
    replacePair first second new (c :: rest) = c :: replacePair first second new rest := by
  cases rest with
  | nil => rfl
  | cons next rest =>
      rw [replacePair, if_neg]
      rintro ⟨hfirst, rfl⟩
      exact h hfirst rfl

theorem head?_replacePair (text : Str) :
    (replacePair first second new text).head? = text.head? ∨
      (replacePair first second new text).head? = some (.char new) := by
  unfold replacePair
  split
  · exact .inl rfl
  · exact .inl rfl
  · split
    · exact .inr rfl
    · exact .inl rfl

end Replacement

/-- Slashes are restored before tildes, in passes over the whole segment. The tilde that is
restored last cannot be taken for the start of an escape. -/
theorem unescape_eq_replacePair (text : Str) :
    unescape text = replacePair '~' '0' '~' (replacePair '~' '1' '/' text) := by
  induction text using unescape.induct with
  | case1 => rfl
  | case2 rest ih =>
      have hkept : replacePair '~' '1' '/' (.char '~' :: .char '0' :: rest) =
          .char '~' :: .char '0' :: replacePair '~' '1' '/' rest := by
        rw [replacePair_cons (by simp), replacePair_cons (by simp)]
      rw [unescape, ih, hkept, replacePair_pair]
  | case3 rest ih =>
      rw [unescape, ih, replacePair_pair, replacePair_cons (by simp)]
  | case4 c rest hzero hone ih =>
      have hfirst : c = .char '~' → rest.head? ≠ some (.char '1') := by
        rintro rfl hhead
        obtain ⟨_, rfl⟩ := List.head?_eq_some_iff.mp hhead
        exact hone _ rfl rfl
      have hnext : c = .char '~' →
          (replacePair '~' '1' '/' rest).head? ≠ some (.char '0') := by
        rintro rfl hhead
        have hrest : (replacePair '~' '1' '/' rest).head? = rest.head? ∨
            (replacePair '~' '1' '/' rest).head? = some (.char '/') := head?_replacePair rest
        rcases hrest with heq | heq
        · obtain ⟨_, rfl⟩ := List.head?_eq_some_iff.mp (heq ▸ hhead)
          exact hzero _ rfl rfl
        · exact absurd (heq.symm.trans hhead) (by decide)
      rw [unescape, ih, replacePair_cons hfirst, replacePair_cons hnext]
      · exact hzero
      · exact hone

/-- Tildes are escaped before slashes. -/
theorem escape_eq_flatMap (key : Str) :
    escape key = (key.flatMap fun c => if c = .char '~' then [c, .char '0'] else [c]).flatMap
      fun c => if c = .char '/' then [.char '~', .char '1'] else [c] := by
  rw [escape, List.flatMap_assoc]
  congr 1
  funext c
  unfold escapeCodePoint
  split
  next heq => simp [heq]
  next => simp

end Pointer

end Schemata
