import Schemata.Proofs.Layouts

/-!
# Slices of a text

The range of a value cuts a piece out of the text that is a JSON text by itself. It has the same
tree, with all positions counted from where the value starts. The ranges of members and items lie
between the brackets of their container, one after the other.
-/

namespace Schemata.Source

/-- A position counted from an origin as if the text started there. Only on the line of the
origin columns are moved. -/
def Position.relativeTo (origin position : Position) : Position :=
  ⟨position.line - origin.line + 1,
    if position.line = origin.line then position.column - origin.column + 1 else position.column,
    position.offset - origin.offset⟩

namespace Position

variable {origin position : Position}

@[simp] theorem relativeTo_self (origin : Position) : relativeTo origin origin = .start := by
  simp [relativeTo, start]

theorem relativeTo_after (h : origin.line ≤ position.line) (c : Char) :
    relativeTo origin (position.after c) = (relativeTo origin position).after c := by
  by_cases hc : c = '\n'
  · -- The line after a line feed is not that of the origin.
    have hline : position.line + 1 ≠ origin.line := by omega
    simp only [relativeTo, after, hc, if_true, if_neg hline, mk.injEq, true_and]
    omega
  · by_cases hline : position.line = origin.line
    · simp only [relativeTo, after, hc, hline, if_true, if_false, mk.injEq, true_and]
      omega
    · simp only [relativeTo, after, hc, hline, if_false, mk.injEq, true_and]
      omega

theorem line_le_after (position : Position) (c : Char) :
    position.line ≤ (position.after c).line := by
  unfold after
  split
  · exact Int.le_add_one (le_refl _)
  · exact le_refl _

theorem line_le_past (position : Position) (text : List Char) :
    position.line ≤ (position.past text).line := by
  induction text generalizing position with
  | nil => exact le_refl _
  | cons c rest ih => exact (line_le_after position c).trans (ih _)

theorem relativeTo_past (h : origin.line ≤ position.line) (text : List Char) :
    relativeTo origin (position.past text) = (relativeTo origin position).past text := by
  induction text generalizing position with
  | nil => rfl
  | cons c rest ih =>
      rw [past_cons, past_cons, ih (h.trans (line_le_after position c)), relativeTo_after h]

end Position

end Schemata.Source

namespace Schemata.Json

open Grammar Source Schema

/-! ### Trees with moved positions -/

section Shift

variable (move : Position → Position)

def Key.shift (key : Key) : Key :=
  ⟨key.name, key.raw, ⟨move key.range.first, move key.range.last⟩⟩

mutual

/-- A value with all of its positions moved. -/
def Node.shift : Node → Node
  | .object range members => .object ⟨move range.first, move range.last⟩ (shiftMembers members)
  | .array range items => .array ⟨move range.first, move range.last⟩ (shiftItems items)
  | .scalar range value raw => .scalar ⟨move range.first, move range.last⟩ value raw

def shiftMembers : List (Member Node) → List (Member Node)
  | [] => []
  | ⟨key, value⟩ :: rest => ⟨key.shift move, value.shift⟩ :: shiftMembers rest

def shiftItems : List Node → List Node
  | [] => []
  | item :: rest => item.shift :: shiftItems rest

end

def Grammar.Phrase.shift : Phrase → Phrase
  | .value node => .value (node.shift move)
  | .member found => .member ⟨found.key.shift move, found.value.shift move⟩
  | .items nodes => .items (shiftItems move nodes)
  | .members found => .members (shiftMembers move found)

end Shift

/-- What is written for a phrase is written for it at any other place, with positions that count
from there. -/
theorem Grammar.Written.relativeTo {limit : Nat} {origin position : Position} {text : List Char}
    {phrase : Phrase} (h : Written limit position text phrase)
    (hline : origin.line ≤ position.line) :
    Written limit (origin.relativeTo position) text (phrase.shift origin.relativeTo) := by
  have hpast : ∀ {position : Position} {text : List Char}, origin.line ≤ position.line →
      origin.line ≤ (position.past text).line :=
    fun h => h.trans (Position.line_le_past _ _)
  induction h with
  | scalar hscalar =>
      simp only [Phrase.shift, Node.shift, Position.relativeTo_past hline]
      exact .scalar hscalar
  | emptyArray hblank =>
      simp only [Phrase.shift, Node.shift, shiftItems, Position.relativeTo_past hline]
      exact .emptyArray hblank
  | array hblank _ _ ihfirst ihrest =>
      have hfirst := ihfirst (hpast hline)
      have hrest := ihrest (hpast hline)
      simp only [Phrase.shift, Node.shift, shiftItems, Position.relativeTo_past hline]
        at hfirst hrest ⊢
      exact .array hblank hfirst hrest
  | lastItem hblank => exact .lastItem hblank
  | nextItem hbefore hafter _ _ ihnext ihrest =>
      have hnext := ihnext (hpast hline)
      have hrest := ihrest (hpast hline)
      rw [Position.relativeTo_past hline] at hnext hrest
      exact .nextItem hbefore hafter hnext hrest
  | member hbody hbefore hafter _ ih =>
      have hvalue := ih (hpast hline)
      simp only [Phrase.shift, Key.shift, Grammar.keyAt, Position.relativeTo_past hline]
        at hvalue ⊢
      exact .member hbody hbefore hafter hvalue
  | emptyObject hblank =>
      simp only [Phrase.shift, Node.shift, shiftMembers, Position.relativeTo_past hline]
      exact .emptyObject hblank
  | object hblank _ _ ihfirst ihrest =>
      have hfirst := ihfirst (hpast hline)
      have hrest := ihrest (hpast hline)
      simp only [Phrase.shift, Node.shift, shiftMembers, Position.relativeTo_past hline]
        at hfirst hrest ⊢
      exact .object hblank hfirst hrest
  | lastMember hblank => exact .lastMember hblank
  | nextMember hbefore hafter _ _ ihnext ihrest =>
      have hnext := ihnext (hpast hline)
      have hrest := ihrest (hpast hline)
      rw [Position.relativeTo_past hline] at hnext hrest
      exact .nextMember hbefore hafter hnext hrest

/-- What is written for a value is a JSON text of that value alone. -/
theorem Grammar.Written.isText {limit : Nat} {position : Position} {text : List Char} {node : Node}
    (h : Written limit position text (.value node)) :
    IsText limit text (node.shift position.relativeTo) := by
  have halone := h.relativeTo (le_refl position.line)
  rw [Position.relativeTo_self] at halone
  exact ⟨[], text, [], by simp, blank_nil, blank_nil, halone⟩

/-! ### Ranges within ranges -/

/-- The ranges of the members or items of a value. -/
def Node.partRanges : Node → List Range
  | .object _ members => members.map Member.range
  | .array _ items => items.map Node.range
  | .scalar _ _ _ => []

/-- Ranges that hold some text lie strictly inside of another one, each before the next one. -/
structure Nested (outer : Range) (parts : List Range) : Prop where
  inside : ∀ part ∈ parts, outer.first.offset < part.first.offset ∧
    part.first.offset < part.last.offset ∧ part.last.offset < outer.last.offset
  apart : parts.Pairwise fun part next => part.last.offset < next.first.offset

theorem memberEnds_eq_flatMap (members : List (Member Node)) :
    memberEnds members = members.flatMap fun member => memberEnds [member] := by
  induction members with
  | nil => rfl
  | cons member rest ih => rw [memberEnds_cons, ih, List.flatMap_cons]

theorem itemEnds_eq_flatMap (items : List Node) : itemEnds items = items.flatMap Node.ends := by
  induction items with
  | nil => rfl
  | cons item rest ih => rw [itemEnds, ih, List.flatMap_cons]

theorem Node.exists_ends (node : Node) :
    ∃ between, node.ends = node.range.first :: (between ++ [node.range.last]) := by
  cases node with
  | object range members => exact ⟨memberEnds members, rfl⟩
  | array range items => exact ⟨itemEnds items, rfl⟩
  | scalar range value raw => exact ⟨[], rfl⟩

theorem exists_memberEnds (member : Member Node) :
    ∃ between, memberEnds [member] = member.range.first :: (between ++ [member.range.last]) := by
  obtain ⟨key, value⟩ := member
  obtain ⟨between, hends⟩ := value.exists_ends
  refine ⟨key.range.last :: value.range.first :: between, ?_⟩
  simp [memberEnds, hends, Member.range]

/-- If the ends of some parts ascend between those of their container, then the parts lie one
after the other inside of it. -/
theorem Ascending.nested {α : Type} {low high : Int} {outer : Range} {parts : List α}
    {ends : α → List Position} {range : α → Range}
    (hends : ∀ part ∈ parts, ∃ between,
      ends part = (range part).first :: (between ++ [(range part).last]))
    (h : Ascending low high (outer.first :: (parts.flatMap ends ++ [outer.last]))) :
    Nested outer (parts.map range) := by
  obtain ⟨hfirst, hrest⟩ := List.pairwise_cons.mp h.pairwise
  obtain ⟨hparts, -, hlast⟩ := List.pairwise_append.mp hrest
  obtain ⟨hown, hapart⟩ := List.pairwise_flatMap.mp hparts
  have hmem : ∀ part ∈ parts, (range part).first ∈ ends part ∧ (range part).last ∈ ends part := by
    intro part hpart
    obtain ⟨between, heq⟩ := hends part hpart
    simp [heq]
  constructor
  · intro inner hinner
    obtain ⟨part, hpart, rfl⟩ := List.mem_map.mp hinner
    obtain ⟨hstart, hstop⟩ := hmem part hpart
    refine ⟨?_, ?_, ?_⟩
    · apply hfirst
      exact List.mem_append_left _ (List.mem_flatMap_of_mem hpart hstart)
    · obtain ⟨between, heq⟩ := hends part hpart
      have hordered := hown part hpart
      rw [heq] at hordered
      exact (List.pairwise_cons.mp hordered).1 _ (by simp)
    · apply hlast _ (List.mem_flatMap_of_mem hpart hstop)
      simp
  · rw [List.pairwise_map]
    apply hapart.imp_of_mem
    intro part next hpart hnext hbefore
    exact hbefore _ (hmem part hpart).2 _ (hmem next hnext).1

theorem Spells.nested {text : List Char} {node : Node} (h : Spells text (.value node)) :
    Nested node.range node.partRanges := by
  obtain ⟨before, body, after, -, hwritten⟩ := h
  have hends : Ascending _ _ node.ends := hwritten.endsAscend
  cases node with
  | object range members =>
      rw [Node.ends, memberEnds_eq_flatMap] at hends
      exact hends.nested fun member _ => exists_memberEnds member
  | array range items =>
      rw [Node.ends, itemEnds_eq_flatMap] at hends
      exact hends.nested fun item _ => item.exists_ends
  | scalar range value raw => exact ⟨by simp [Node.partRanges], .nil⟩

/-! ### Slices -/

/-- The brackets that stand around a container. -/
def Node.brackets? : Node → Option (Char × Char)
  | .object _ _ => some ('\x7b', '\x7d')
  | .array _ _ => some ('[', ']')
  | .scalar _ _ _ => none

theorem Grammar.Written.closing_of_items {limit : Nat} {position : Position} {text : List Char}
    {nodes : List Node} (h : Written limit position text (.items nodes)) :
    ∃ inner, text = inner ++ [']'] := by
  induction nodes generalizing position text with
  | nil =>
      cases h with
      | @lastItem _ blank _ => exact ⟨blank, rfl⟩
  | cons next others ih =>
      cases h with
      | @nextItem _ before after text rest _ _ _ _ _ hrest =>
          obtain ⟨inner, rfl⟩ := ih hrest
          exact ⟨before ++ ',' :: after ++ text ++ inner, by simp⟩

theorem Grammar.Written.closing_of_members {limit : Nat} {position : Position} {text : List Char}
    {members : List (Member Node)} (h : Written limit position text (.members members)) :
    ∃ inner, text = inner ++ ['\x7d'] := by
  induction members generalizing position text with
  | nil =>
      cases h with
      | @lastMember _ blank _ => exact ⟨blank, rfl⟩
  | cons next others ih =>
      cases h with
      | @nextMember _ before after text rest _ _ _ _ _ hrest =>
          obtain ⟨inner, rfl⟩ := ih hrest
          exact ⟨before ++ ',' :: after ++ text ++ inner, by simp⟩

/-- What is written for a container stands in its brackets. -/
theorem Grammar.Written.in_brackets {limit : Nat} {position : Position} {text : List Char}
    {node : Node} (h : Written limit position text (.value node)) {first last : Char}
    (hbrackets : node.brackets? = some (first, last)) :
    ∃ inner, text = first :: inner ++ [last] := by
  cases h with
  | scalar => cases hbrackets
  | @emptyArray _ blank _ =>
      cases hbrackets
      exact ⟨blank, rfl⟩
  | @array _ blank text rest _ _ _ _ hrest =>
      cases hbrackets
      obtain ⟨inner, rfl⟩ := hrest.closing_of_items
      exact ⟨blank ++ text ++ inner, by simp⟩
  | @emptyObject _ blank _ =>
      cases hbrackets
      exact ⟨blank, rfl⟩
  | @object _ blank text rest _ _ _ _ hrest =>
      cases hbrackets
      obtain ⟨inner, rfl⟩ := hrest.closing_of_members
      exact ⟨blank ++ text ++ inner, by simp⟩

/-- The range of a value cuts its own text out of a text, and those of its members or items the
texts of these, between the brackets. -/
structure Sliced (text : List Char) (node : Node) : Prop where
  /-- The slice is read as the same value at the start of a text. -/
  alone : read (String.ofList (slice text node.range)) =
    .ok (node.shift node.range.first.relativeTo)
  brackets : ∀ first last, node.brackets? = some (first, last) →
    ∃ inner, slice text node.range = first :: inner ++ [last]
  nested : Nested node.range node.partRanges
  /-- A member reaches from its key over a colon to the end of its value. -/
  member : ∀ found ∈ node.members, ∃ before after, Blank before ∧ Blank after ∧
    slice text found.range =
      found.key.raw.toList ++ before ++ ':' :: after ++ slice text found.value.range

theorem Spells.slice {text : List Char} {node : Node} (h : Spells text (.value node)) :
    ∃ position, node.range.first = position ∧
      Written Text.digitLimit position (slice text node.range) (.value node) := by
  obtain ⟨before, body, after, rfl, hwritten⟩ := h
  refine ⟨_, rfl, ?_⟩
  rw [hwritten.range_eq, slice_piece]
  exact hwritten

theorem Spells.slice_member {text : List Char} {member : Member Node}
    (h : Spells text (.member member)) :
    ∃ before after, Blank before ∧ Blank after ∧ Json.slice text member.range =
      member.key.raw.toList ++ before ++ ':' :: after ++ Json.slice text member.value.range := by
  obtain ⟨start, _, tail, rfl, hwritten⟩ := h
  cases hwritten with
  | @member _ body characters before after rest value _ hbefore hafter hvalue =>
      refine ⟨before, after, hbefore, hafter, ?_⟩
      have hrange : Member.range ⟨Grammar.keyAt (.past .start start) body characters, value⟩ =
          ⟨.past .start start, (Position.start.past start).past
            (inQuotes body ++ before ++ ':' :: after ++ rest)⟩ := by
        rw [Member.range, hvalue.range_eq, Position.past_append _ _ rest]
        rfl
      have htext : start ++ (inQuotes body ++ before ++ ':' :: after ++ rest) ++ tail =
          start ++ (inQuotes body ++ before ++ ':' :: after) ++ rest ++ tail := by
        simp
      have hown : Json.slice (start ++ (inQuotes body ++ before ++ ':' :: after ++ rest) ++ tail)
          value.range = rest := by
        rw [htext, hvalue.range_eq, ← Position.past_append, slice_piece]
      rw [hrange, slice_piece, hown]
      simp [Grammar.keyAt]

theorem Spells.sliced {text : List Char} {node : Node} (h : Spells text (.value node)) :
    Sliced text node where
  alone := by
    obtain ⟨position, rfl, hwritten⟩ := h.slice
    apply read_of_isText
    rw [String.toList_ofList]
    exact hwritten.isText
  brackets := by
    obtain ⟨position, -, hwritten⟩ := h.slice
    intro first last hbrackets
    exact hwritten.in_brackets hbrackets
  nested := h.nested
  member found hfound := by
    cases node with
    | object range members => exact (h.members hfound).slice_member
    | array | scalar => exact absurd hfound List.not_mem_nil

/-- In a text that is read, the range of every value cuts out a text of its own, which is read as
that value with its positions counted from there. A member reaches from its key to the end of its
value, and members and items lie between the brackets of their container, one after the other. -/
theorem read_slices {text : String} {root : Node} (hread : read text = .ok root) :
    ∀ node, Occurs root node → Sliced text.toList node :=
  fun _ hnode => ((spells_of_read hread).occurs hnode).sliced

namespace ListOnTwoLines

/-- A list that starts on the second line of a text and goes on to the third. -/
def text : String :=
  "\x7b\"a\":\n [1,\n2]\x7d"

/-- The list, if its first line and column are those given. -/
def list (line column offset : Int) : Node :=
  .array ⟨⟨line, column, offset⟩, ⟨line + 1, 3, offset + 6⟩⟩
    [.scalar ⟨⟨line, column + 1, offset + 1⟩, ⟨line, column + 2, offset + 2⟩⟩
        (.number (.integer 1)) "1",
      .scalar ⟨⟨line + 1, 1, offset + 4⟩, ⟨line + 1, 2, offset + 5⟩⟩ (.number (.integer 2)) "2"]

def tree : Node :=
  .object ⟨⟨1, 1, 0⟩, ⟨3, 4, 14⟩⟩
    [⟨⟨"a", "\"a\"", ⟨⟨1, 2, 1⟩, ⟨1, 5, 4⟩⟩⟩, list 2 2 7⟩]

theorem read_text : read text = .ok tree := by
  cbv

theorem occurs_list : Occurs tree (list 2 2 7) :=
  (Occurs.root tree).member List.mem_cons_self

/-- Columns are moved on the first line of the list only. -/
theorem read_slices_list : read text = .ok tree ∧ Occurs tree (list 2 2 7) ∧
    slice text.toList (list 2 2 7).range = "[1,\n2]".toList ∧
    read "[1,\n2]" = .ok (list 1 1 0) := by
  have hslice : slice text.toList (list 2 2 7).range = "[1,\n2]".toList := by decide
  have halone := (read_slices read_text (list 2 2 7) occurs_list).alone
  rw [hslice, String.ofList_toList] at halone
  exact ⟨read_text, occurs_list, hslice, halone⟩

end ListOnTwoLines

end Schemata.Json
