/-!
# Similar words

Two words are as similar as the share of their characters that match. The longest
stretch that both contain matches, and then whatever matches before it and after
it; of equally long stretches the first in one word, then the first in the other,
counts.
-/

namespace Schemata.Text

/-- How many characters two words start with in common. -/
def commonStart : List Char → List Char → Nat
  | a :: as, b :: bs => if a = b then commonStart as bs + 1 else 0
  | _, _ => 0

/-- A stretch that two words have in common, by where it starts in each. -/
structure Stretch where
  left : Nat
  right : Nat
  length : Nat

/-- The longest stretch that two words have in common. -/
def longestStretch (a b : List Char) : Stretch :=
  let stretches := (List.range a.length).flatMap fun left =>
    (List.range b.length).map fun right =>
      (⟨left, right, commonStart (a.drop left) (b.drop right)⟩ : Stretch)
  stretches.foldl (fun best stretch => if best.length < stretch.length then stretch else best)
    ⟨0, 0, 0⟩

/-- How many characters of two words match. -/
def matching (a b : List Char) : Nat :=
  let stretch := longestStretch a b
  if _ : 0 < stretch.length ∧ stretch.left < a.length then
    matching (a.take stretch.left) (b.take stretch.right) + stretch.length +
      matching (a.drop (stretch.left + stretch.length)) (b.drop (stretch.right + stretch.length))
  else 0
termination_by a.length
decreasing_by
  all_goals
    simp only [List.length_take, List.length_drop]
    grind

/-- A word among others, with how many characters match and are there in all. -/
structure Candidate where
  word : String
  matched : Nat
  total : Nat

/-- At least three characters in five match. -/
def Candidate.isClose (candidate : Candidate) : Bool :=
  3 * candidate.total ≤ 10 * candidate.matched

/-- More similar words come first, and of equally similar ones the later in the
alphabet. -/
def Candidate.before (a b : Candidate) : Bool :=
  b.matched * a.total < a.matched * b.total ||
    b.matched * a.total = a.matched * b.total && b.word ≤ a.word

/-- The words that are close to a given one, three at most, the closest first. -/
def closest (word : String) (words : List String) : List String :=
  let candidates := words.map fun other =>
    (⟨other, matching other.toList word.toList, other.length + word.length⟩ : Candidate)
  (((candidates.filter Candidate.isClose).mergeSort Candidate.before).take 3).map Candidate.word

end Schemata.Text
