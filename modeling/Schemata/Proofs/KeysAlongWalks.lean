import Schemata.Proofs.Faults
import Schemata.Proofs.RuleOrigins
import Schemata.Proofs.WrittenIntegers

/-!
# Keys along a walk

The walk for the last key of a pointer and the walk for its value take the same turns. They fail
together, and where there is a value, the key is that of the last member on the way to it.
-/

namespace Schemata.Schema

open Json

/-- A turn into a part of a value. -/
inductive Turn
  | item (index : Nat)
  | member (found : Member Node)

/-- A segment takes a turn into a part: it is the number of an item, in digits of any script, or
the key of a member that no earlier member has. -/
inductive Turns (node : Node) (segment : Str) : Turn → Node → Prop
  | item {index : Nat} {part : Node} (hnumber : Text.isNumber segment = true)
      (hindex : Text.WritesInteger segment.chars index)
      (hitem : node.items[index]? = some part) : Turns node segment (.item index) part
  | member {found : Member Node} (hfound : FirstUnder node segment found) :
      Turns node segment (.member found) found.value

/-- The turns that a path takes to the value that it leads to. -/
inductive Walk : Node → List Str → List Turn → Node → Prop
  | nil {node : Node} : Walk node [] [] node
  | cons {node part target : Node} {segment : Str} {path : List Str} {turn : Turn}
      {turns : List Turn} (hturn : Turns node segment turn part)
      (hrest : Walk part path turns target) : Walk node (segment :: path) (turn :: turns) target

/-! ### Single turns -/

/-- The part that a turn selects. -/
def Turn.selection (part : Node) : Turn → Selection
  | item _ => .item part
  | member found => .member found

theorem minus_notMem_of_isNumber {segment : Str} (h : Text.isNumber segment = true) :
    '-' ∉ segment.chars := by
  intro hminus
  obtain ⟨c, hc, hchar⟩ := List.mem_filterMap.mp hminus
  obtain rfl : c = .char '-' := by
    cases c with
    | char c => exact congrArg CodePoint.char (Option.some.inj hchar)
    | surrogate => cases hchar
  have hdigits : segment.all (·.isIn Text.isDigit) = true := (Bool.and_eq_true_iff.mp h).2
  exact absurd (List.all_eq_true.mp hdigits _ hc) (by decide)

namespace Turns

variable {node part : Node} {segment : Str} {turn : Turn}

theorem select_eq (h : Turns node segment turn part) :
    select node segment = .ok (some (turn.selection part)) ∧ (turn.selection part).node = part := by
  cases h with
  | member hfound => exact ⟨select_of_member? (firstUnder_iff.mp hfound), rfl⟩
  | @item index part hnumber hindex hitem =>
      refine ⟨?_, rfl⟩
      cases node with
      | object | scalar => simp [Node.items] at hitem
      | array range items =>
          have hpart : items[index]? = some part := hitem
          simp [select, selectItem, hnumber, Text.readInteger_eq_ok_iff.mpr hindex, hpart,
            Except.map, Turn.selection]

theorem of_select {selection : Selection} (h : select node segment = .ok (some selection)) :
    ∃ turn, Turns node segment turn selection.node ∧ turn.selection selection.node = selection := by
  cases node with
  | scalar => simp [select] at h
  | object range members =>
      obtain ⟨found, hfound, rfl⟩ := Option.map_eq_some_iff.mp (Except.ok.inj h)
      exact ⟨.member found, .member (firstUnder_iff.mpr hfound), rfl⟩
  | array range items =>
      obtain ⟨selected, hselected, h⟩ := map_eq_ok.mp h
      obtain ⟨part, rfl, rfl⟩ := Option.map_eq_some_iff.mp h
      unfold selectItem at hselected
      split at hselected
      next hnumber =>
        split at hselected
        next index hindex =>
          have hwrites := Text.readInteger_eq_ok_iff.mp hindex
          obtain ⟨index, rfl⟩ :=
            Int.eq_ofNat_of_zero_le (hwrites.nonneg (minus_notMem_of_isNumber hnumber))
          exact ⟨.item index, .item hnumber hwrites (Except.ok.inj hselected), rfl⟩
        · contradiction
      · cases Except.ok.inj hselected

theorem unique {other : Turn} {otherPart : Node} (h : Turns node segment turn part)
    (hother : Turns node segment other otherPart) : turn = other ∧ part = otherPart := by
  have hselection := h.select_eq.1.symm.trans hother.select_eq.1
  cases h with
  | item hnumber hindex hitem =>
      cases hother with
      | member => simp [Turn.selection] at hselection
      | item hnumbers hindexes hitems =>
          have heq := (Text.readInteger_eq_ok_iff.mpr hindex).symm.trans
            (Text.readInteger_eq_ok_iff.mpr hindexes)
          obtain rfl := Int.ofNat.inj (Except.ok.inj heq)
          exact ⟨rfl, Option.some.inj (hitem.symm.trans hitems)⟩
  | member hfound =>
      cases hother with
      | item => simp [Turn.selection] at hselection
      | member hfounds =>
          obtain rfl := hfound.unique hfounds
          exact ⟨rfl, rfl⟩

end Turns

/-! ### Walks -/

namespace Walk

variable {node target : Node} {path : List Str} {turns : List Turn}

theorem of_follow (h : follow node path = .ok (some target)) :
    ∃ turns, Walk node path turns target := by
  induction path generalizing node with
  | nil =>
      obtain rfl : node = target := by simpa [follow] using h
      exact ⟨[], .nil⟩
  | cons segment rest ih =>
      obtain ⟨selected, hselected, h⟩ := bind_eq_ok.mp h
      cases selected with
      | none => simp [pure, Except.pure] at h
      | some selection =>
          obtain ⟨turn, hturn, -⟩ := Turns.of_select hselected
          obtain ⟨turns, hrest⟩ := ih h
          exact ⟨turn :: turns, .cons hturn hrest⟩

theorem unique {others : List Turn} {other : Node} (h : Walk node path turns target)
    (hother : Walk node path others other) : turns = others ∧ target = other := by
  induction h generalizing others with
  | nil =>
      cases hother
      exact ⟨rfl, rfl⟩
  | cons hturn _ ih =>
      cases hother with
      | cons hturns hrest =>
          obtain ⟨rfl, rfl⟩ := hturn.unique hturns
          obtain ⟨rfl, rfl⟩ := ih hrest
          exact ⟨rfl, rfl⟩

end Walk

/-- The last key that is known after a turn. -/
def Turn.key (last : Option Key) : Turn → Option Key
  | item _ => last
  | member found => some found.key

/-- Only turns into items have been taken. -/
def OnlyItems (turns : List Turn) : Prop :=
  ∀ turn ∈ turns, ∃ index, turn = .item index

theorem foldl_key_of_onlyItems {turns : List Turn} (h : OnlyItems turns) (last : Option Key) :
    turns.foldl Turn.key last = last := by
  induction turns with
  | nil => rfl
  | cons turn rest ih =>
      obtain ⟨⟨index, rfl⟩, hrest⟩ := List.forall_mem_cons.mp h
      exact ih hrest

theorem foldl_key_append_member {before after : List Turn} {found : Member Node}
    (h : OnlyItems after) (last : Option Key) :
    (before ++ .member found :: after).foldl Turn.key last = some found.key := by
  rw [List.foldl_append, List.foldl_cons, foldl_key_of_onlyItems h, Turn.key]

/-- Turns are into items only, or there is a last one into a member. -/
theorem onlyItems_or_exists_member (turns : List Turn) :
    OnlyItems turns ∨
      ∃ before found after, turns = before ++ .member found :: after ∧ OnlyItems after := by
  induction turns with
  | nil => exact .inl fun _ hturn => absurd hturn List.not_mem_nil
  | cons turn rest ih =>
      rcases ih with hitems | ⟨before, found, after, rfl, hafter⟩
      · cases turn with
        | item index => exact .inl (List.forall_mem_cons.mpr ⟨⟨index, rfl⟩, hitems⟩)
        | member found => exact .inr ⟨[], found, rest, rfl, hitems⟩
      · exact .inr ⟨turn :: before, found, after, rfl, hafter⟩

theorem foldl_key_eq_none_iff {turns : List Turn} :
    turns.foldl Turn.key none = none ↔ OnlyItems turns := by
  refine ⟨fun hnone => ?_, fun hitems => foldl_key_of_onlyItems hitems none⟩
  rcases onlyItems_or_exists_member turns with hitems | ⟨before, found, after, rfl, hafter⟩
  · exact hitems
  · cases (foldl_key_append_member hafter none).symm.trans hnone

/-! ### The two walks -/

theorem Walk.lastKey_eq {node target : Node} {path : List Str} {turns : List Turn}
    (h : Walk node path turns target) (last : Option Key) :
    lastKey node last path = .ok (turns.foldl Turn.key last) := by
  induction h generalizing last with
  | nil => rfl
  | @cons node part target segment path turn turns hturn _ ih =>
      obtain ⟨hselect, hpart⟩ := hturn.select_eq
      rw [lastKey, hselect]
      cases turn with
      | item index => exact hpart ▸ ih last
      | member found => exact hpart ▸ ih (some found.key)

theorem lastKey_of_follow_eq_none {node : Node} {path : List Str} (last : Option Key)
    (h : follow node path = .ok none) : lastKey node last path = .ok none := by
  induction path generalizing node last with
  | nil => simp [follow] at h
  | cons segment rest ih =>
      obtain ⟨selected, hselected, h⟩ := bind_eq_ok.mp h
      rw [lastKey, hselected]
      rcases selected with _ | part | found
      · rfl
      · exact ih last h
      · exact ih (some found.key) h

theorem lastKey_of_follow_eq_error {node : Node} {path : List Str} {failure : Failure}
    (last : Option Key) (h : follow node path = .error failure) :
    lastKey node last path = .error failure := by
  induction path generalizing node last with
  | nil => exact absurd h nofun
  | cons segment rest ih =>
      rcases bind_eq_error.mp h with hselect | ⟨selected, hselect, hrest⟩
      · exact bind_eq_error.mpr (.inl hselect)
      · rw [lastKey, hselect]
        rcases selected with _ | part | found
        · cases hrest
        · exact ih last hrest
        · exact ih (some found.key) hrest

section Pointers

variable {document : Node} {pointer : Pointer}

/-- A pointer that does not start at the root leads nowhere, on either walk. -/
theorem eq_none_of_not_root (h : pointer.segments.head? ≠ some Pointer.root) :
    resolve document pointer = .ok none ∧ keyAt document pointer = .ok none := by
  unfold resolve keyAt
  cases hsegments : pointer.segments with
  | nil => exact ⟨rfl, rfl⟩
  | cons first path =>
      have hfirst : first ≠ Pointer.root := fun heq => h (by rw [hsegments, heq, List.head?_cons])
      simp [hfirst]

variable {path : List Str} (hsegments : pointer.segments = Pointer.root :: path)

include hsegments

theorem resolve_of_path :
    resolve document pointer = (follow document path).map (·.map fun node => ⟨node, pointer⟩) := by
  simp only [resolve, hsegments, if_true]

theorem keyAt_of_path : keyAt document pointer = lastKey document none path := by
  simp only [keyAt, hsegments, if_true]

end Pointers

/-- The walk for a value and the walk for a key fail together and are lost together. Where a
pointer leads to a value, it takes certain turns to it. There is no key if they are turns into
items only, and otherwise the key is that of the last member among them. -/
theorem keyAt_of_resolve (document : Node) (pointer : Pointer) :
    (∀ failure, resolve document pointer = .error failure ↔
      keyAt document pointer = .error failure) ∧
    (resolve document pointer = .ok none → keyAt document pointer = .ok none) ∧
    ∀ view, resolve document pointer = .ok (some view) →
      ∃ path turns, pointer.segments = Pointer.root :: path ∧
        Walk document path turns view.node ∧
        (∀ others target, Walk document path others target → others = turns) ∧
        (keyAt document pointer = .ok none ↔ OnlyItems turns) ∧
        (¬ OnlyItems turns → ∃ before found after,
          turns = before ++ .member found :: after ∧ OnlyItems after ∧
            (keyAt document pointer).map (Option.map Key.label) =
              .ok (some ⟨found.key.name, some found.key.range.code⟩)) := by
  by_cases hroot : pointer.segments.head? = some Pointer.root
  · obtain ⟨path, hsegments⟩ := List.head?_eq_some_iff.mp hroot
    have hresolve : resolve document pointer =
        (follow document path).map (·.map fun node => ⟨node, pointer⟩) := resolve_of_path hsegments
    have hkey : keyAt document pointer = lastKey document none path := keyAt_of_path hsegments
    refine ⟨fun failure => ?_, fun hnone => ?_, fun view hview => ?_⟩
    · rw [resolve_eq_error_iff hsegments, hkey]
      exact ⟨lastKey_of_follow_eq_error none, follow_of_lastKey⟩
    · obtain ⟨found, hfound, hlost⟩ := map_eq_ok.mp (hresolve.symm.trans hnone)
      obtain rfl := Option.map_eq_none_iff.mp hlost
      rw [hkey, lastKey_of_follow_eq_none none hfound]
    · obtain ⟨found, hfound, hled⟩ := map_eq_ok.mp (hresolve.symm.trans hview)
      obtain ⟨target, rfl, rfl⟩ := Option.map_eq_some_iff.mp hled
      obtain ⟨turns, hwalk⟩ := Walk.of_follow hfound
      have hlast := hkey.trans (hwalk.lastKey_eq none)
      refine ⟨path, turns, hsegments, hwalk, fun others other h => (h.unique hwalk).1, ?_, ?_⟩
      · rw [hlast, Except.ok.injEq, foldl_key_eq_none_iff]
      · intro hmembers
        obtain ⟨before, member, after, rfl, hafter⟩ :=
          (onlyItems_or_exists_member turns).resolve_left hmembers
        refine ⟨before, member, after, rfl, hafter, ?_⟩
        rw [hlast, foldl_key_append_member hafter]
        rfl
  · obtain ⟨hresolve, hkey⟩ : resolve document pointer = .ok none ∧
        keyAt document pointer = .ok none := eq_none_of_not_root hroot
    rw [hresolve, hkey]
    exact ⟨fun _ => ⟨nofun, nofun⟩, fun _ => rfl, fun _ h => absurd (Except.ok.inj h) nofun⟩

namespace MixedPath

/-- The tree of `{"a":[{"b":[true],"b":false}],"a":null}`. -/
def document : Node :=
  .object (.inFirstLine 0 39)
    [⟨⟨"a", "\"a\"", .inFirstLine 1 4⟩,
        .array (.inFirstLine 5 29)
          [.object (.inFirstLine 6 28)
            [⟨⟨"b", "\"b\"", .inFirstLine 7 10⟩,
                .array (.inFirstLine 11 17) [.scalar (.inFirstLine 12 16) (.bool true) "true"]⟩,
              ⟨⟨"b", "\"b\"", .inFirstLine 18 21⟩,
                .scalar (.inFirstLine 22 27) (.bool false) "false"⟩]]⟩,
      ⟨⟨"a", "\"a\"", .inFirstLine 30 33⟩, .scalar (.inFirstLine 34 38) .null "null"⟩]

/-- The first member called `b` is passed last, before an item of its value. -/
theorem keyAt_mixedPath :
    ∃ view, resolve document "#/a/0/b/0" = .ok (some view) ∧
      (keyAt document "#/a/0/b/0").map (Option.map Key.label) =
        .ok (some ⟨"b", some (Source.Range.inFirstLine 7 10).code⟩) ∧
      ∃ turns, Walk document ["a", "0", "b", "0"] turns view.node ∧ ¬ OnlyItems turns := by
  obtain ⟨view, hview⟩ : ∃ view, resolve document "#/a/0/b/0" = .ok (some view) := ⟨_, rfl⟩
  obtain ⟨path, turns, hsegments, hwalk, -, hnone, -⟩ :=
    (keyAt_of_resolve document "#/a/0/b/0").2.2 view hview
  have hpath : Pointer.segments "#/a/0/b/0" = [Pointer.root, "a", "0", "b", "0"] := by
    decide +kernel
  obtain rfl := (List.cons.inj (hpath.symm.trans hsegments)).2
  exact ⟨view, hview, rfl, turns, hwalk, fun hitems => absurd (hnone.mpr hitems) nofun⟩

end MixedPath

end Schemata.Schema
