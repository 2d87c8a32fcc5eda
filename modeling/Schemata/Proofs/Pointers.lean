import Mathlib.Data.List.Nodup
import Mathlib.Data.List.TakeWhile
import Schemata.Proofs.Places

/-!
# Pointers tell schemas apart

The segments of a pointer are the keys and indexes that it was extended by. In a document
without repeated keys they lead to one value only, whether they are followed as written
or lead from part to part.
-/

namespace Schemata.Text

theorem decimalDigit?_of_isDigit {c : Char} (hdigit : c.isDigit = true) :
    decimalDigit? c = some (c.toNat - 48) := by
  have hrange : 48 ≤ c.toNat ∧ c.toNat ≤ 57 := by
    simpa [Char.isDigit, UInt32.le_iff_toNat_le] using hdigit
  have hfirst : zeros.find? (fun first => first ≤ c.toNat && c.toNat < first + 10) = some 48 := by
    rw [zeros, List.find?_cons_of_pos]
    simp only [Bool.and_eq_true, decide_eq_true_eq]
    omega
  rw [decimalDigit?, hfirst]
  rfl

theorem isPadding_of_isDigit {c : Char} (hdigit : c.isDigit = true) : isPadding c = false := by
  have hrange : 48 ≤ c.toNat ∧ c.toNat ≤ 57 := by
    simpa [Char.isDigit, UInt32.le_iff_toNat_le] using hdigit
  have hblank : isBlank c = false := by
    simp only [isBlank, blanks, CharSet.contains, List.any_cons, List.any_nil, Bool.or_false,
      Bool.or_eq_false_iff, Bool.and_eq_false_iff, decide_eq_false_iff_not]
    omega
  rw [isPadding, hblank, Bool.false_and]

theorem trim_eq_self {drop : Char → Bool} {text : List Char}
    (hkept : ∀ c ∈ text, drop c = false) : trim drop text = text := by
  have hdrop : ∀ text : List Char, (∀ c ∈ text, drop c = false) → text.dropWhile drop = text := by
    intro text hkept
    cases text with
    | nil => rfl
    | cons c rest => rw [List.dropWhile_cons_of_neg (by simp [hkept c List.mem_cons_self])]
  rw [trim, hdrop text hkept, hdrop _ (by simpa using hkept), List.reverse_reverse]

section Digits

variable {digits : List Char} (hdigits : ∀ c ∈ digits, c.isDigit = true)

include hdigits

theorem isNumber_of_digits (hempty : digits ≠ []) : isNumber (Str.ofChars digits) = true := by
  have hall : (Str.ofChars digits).all (·.isIn isDigit) = true := by
    refine List.all_eq_true.mpr fun c hc => ?_
    obtain ⟨digit, hdigit, rfl⟩ := Str.mem_ofChars.mp hc
    rw [CodePoint.isIn, isDigit, isDecimalDigit, decimalDigit?_of_isDigit (hdigits digit hdigit)]
    rfl
  rw [isNumber, hall, Bool.and_true]
  simpa [Str.ofChars] using hempty

theorem digitsValue_of_digits : digitsValue digits = Nat.ofDigitChars 10 digits 0 := by
  have hfold : ∀ value, digits.foldl (fun n c => 10 * n + (decimalDigit? c).getD 0) value =
      Nat.ofDigitChars 10 digits value := by
    induction digits with
    | nil => exact fun _ => rfl
    | cons c rest ih =>
        intro value
        have hrest := ih fun other hother => hdigits other (List.mem_cons_of_mem _ hother)
        rw [List.foldl_cons, hrest, Nat.ofDigitChars_cons,
          decimalDigit?_of_isDigit (hdigits c List.mem_cons_self)]
        rfl
  exact hfold 0

theorem takeWhile_digits :
    digits.takeWhile (fun c => isDecimalDigit c || c = '_') = digits := by
  refine List.takeWhile_eq_self_iff.mpr fun c hc => ?_
  rw [isDecimalDigit, decimalDigit?_of_isDigit (hdigits c hc)]
  rfl

theorem underscore_notMem_digits : '_' ∉ digits :=
  fun hmem => absurd (hdigits _ hmem) (by decide)

theorem filter_digits : digits.filter (· ≠ '_') = digits :=
  List.filter_eq_self.mpr fun c hc => by
    simpa using ne_of_mem_of_not_mem hc (underscore_notMem_digits hdigits)

/-- A run of digits is read as it stands, without a sign and without blanks to drop. -/
theorem readInteger_eq_readNatural :
    readInteger digits = (readNatural digits).map Int.ofNat := by
  have htrim : trim isPadding digits = digits :=
    trim_eq_self fun c hc => isPadding_of_isDigit (hdigits c hc)
  have hsign : splitSign digits = (false, digits) := by
    have hnot : ∀ c ∈ digits, c ≠ '+' ∧ c ≠ '-' := by
      intro c hc
      constructor
      all_goals
        rintro rfl
        exact absurd (hdigits _ hc) (by decide)
    unfold splitSign
    split
    · exact absurd rfl (hnot _ List.mem_cons_self).1
    · exact absurd rfl (hnot _ List.mem_cons_self).2
    · rfl
  rw [readInteger, htrim, hsign]
  dsimp only
  cases readNatural digits <;> rfl

/-- A run of digits is read as its value, if it is not too long. -/
theorem readInteger_of_digits {value : Int} (h : readInteger digits = .ok value) :
    value = Nat.ofDigitChars 10 digits 0 := by
  rw [readInteger_eq_readNatural hdigits] at h
  obtain ⟨natural, hnatural, rfl⟩ := map_eq_ok.mp h
  simp only [readNatural, takeWhile_digits hdigits, filter_digits hdigits] at hnatural
  repeat' split at hnatural
  all_goals simp only [Except.ok.injEq, reduceCtorEq] at hnatural
  rw [← digitsValue_of_digits hdigits, hnatural]
  rfl

end Digits

end Schemata.Text

namespace Schemata.Pointer

theorem unescape_cons {c : CodePoint} (hc : c ≠ .char '~') (rest : Str) :
    unescape (c :: rest) = c :: unescape rest := by
  rw [unescape]
  · exact fun _ heq => absurd heq hc
  · exact fun _ heq => absurd heq hc

theorem unescape_escape (key : Str) : unescape (escape key) = key := by
  induction key with
  | nil => rfl
  | cons c rest ih =>
      rw [escape, List.flatMap_cons, ← escape, escapeCodePoint]
      split
      next htilde => simp [unescape, ih, htilde]
      next htilde =>
        split
        next hslash => simp [unescape, ih, hslash]
        next => rw [List.singleton_append, unescape_cons htilde, ih]

theorem slash_notMem_escape (key : Str) : .char '/' ∉ escape key := by
  intro hmem
  obtain ⟨c, -, hc⟩ := List.mem_flatMap.mp hmem
  unfold escapeCodePoint at hc
  split at hc
  · simp at hc
  · split at hc
    · simp at hc
    next hslash => exact hslash (List.mem_singleton.mp hc).symm

theorem segments_child (pointer : Pointer) (key : Str) :
    (pointer.child key).segments = pointer.segments ++ [key] := by
  have hsplit : (pointer.child key).splitOn (.char '/') =
      pointer.splitOn (.char '/') ++ [escape key] := by
    rw [child, List.splitOn_append_cons_self,
      List.splitOn_eq_singleton (slash_notMem_escape key)]
  rw [segments, hsplit, List.map_append, List.map_cons, List.map_nil, unescape_escape]
  rfl

theorem segments_item (pointer : Pointer) (index : Nat) :
    (pointer.item index).segments = pointer.segments ++ [Str.ofChars (Nat.toDigits 10 index)] :=
  segments_child pointer _

theorem segments_root : Pointer.root.segments = ["#"] := by
  decide

end Schemata.Pointer

namespace Schemata.Schema

open Json

/-- No object of a document has a key twice. -/
def DistinctKeys (document : Node) : Prop :=
  ∀ view ∈ viewsBelow document .root, (view.node.members.map fun found => found.key.name).Nodup

instance (document : Node) : Decidable (DistinctKeys document) :=
  inferInstanceAs (Decidable (∀ view ∈ viewsBelow document .root, _))

theorem DistinctKeys.nodup {document node : Node} (h : DistinctKeys document)
    (hnode : Occurs document node) : (node.members.map fun found => found.key.name).Nodup := by
  obtain ⟨pointer, hbelow⟩ := hnode
  exact h _ hbelow.mem_viewsBelow

/-- A segment selects a part: it is read so, or it is the index of an item as pointers
write it. An index with too many digits is written but not read. -/
inductive Selects (node : Node) : Str → Node → Prop
  | read {segment : Str} {selection : Selection}
      (hselect : select node segment = .ok (some selection)) :
      Selects node segment selection.node
  | item {index : Nat} {part : Node} (hitem : node.items[index]? = some part) :
      Selects node (Str.ofChars (Nat.toDigits 10 index)) part

/-- Where a path of segments leads. -/
inductive Leads : Node → List Str → Node → Prop
  | nil {node : Node} : Leads node [] node
  | cons {node part target : Node} {segment : Str} {path : List Str}
      (hselects : Selects node segment part) (hrest : Leads part path target) :
      Leads node (segment :: path) target

theorem select_item {node part : Node} {index : Nat} (hitem : node.items[index]? = some part)
    {found : Option Selection}
    (h : select node (Str.ofChars (Nat.toDigits 10 index)) = .ok found) :
    found = some (.item part) := by
  cases node with
  | object | scalar => simp [Node.items] at hitem
  | array range items =>
      -- The digits of an index are read back as the index.
      have hdigits : ∀ c ∈ Nat.toDigits 10 index, c.isDigit = true := fun _ hc =>
        Nat.isDigit_of_mem_toDigits (by decide) (by decide) hc
      have hnumber := Text.isNumber_of_digits hdigits Nat.toDigits_ne_nil
      simp only [select, selectItem, Str.chars_ofChars, hnumber, if_true] at h
      cases hvalue : Text.readInteger (Nat.toDigits 10 index) with
      | error => simp [hvalue, Except.map] at h
      | ok value =>
          have hindex := Text.readInteger_of_digits hdigits hvalue
          rw [Nat.ofDigitChars_ten_toDigits] at hindex
          have hpart : items[value.toNat]? = some part := by
            rw [hindex, Int.toNat_natCast]
            exact hitem
          obtain ⟨_, heq, rfl⟩ := map_eq_ok.mp h
          rw [hvalue] at heq
          rw [← Except.ok.inj heq, hpart]
          rfl

/-- In an object without repeated keys, each member is found under its key. -/
theorem member?_of_mem {node : Node} {found : Member Node}
    (hnodup : (node.members.map fun member => member.key.name).Nodup)
    (hfound : found ∈ node.members) : node.member? found.key.name = some found := by
  cases hfirst : node.member? found.key.name with
  | none => simpa using List.find?_eq_none.mp hfirst found hfound
  | some first =>
      have hkey : first.key.name = found.key.name := by simpa using List.find?_some hfirst
      rw [List.inj_on_of_nodup_map hnodup (List.mem_of_find?_eq_some hfirst) hfound hkey]

/-- So each key selects the value of its member. -/
theorem select_member {node : Node} {found : Member Node}
    (hnodup : (node.members.map fun member => member.key.name).Nodup)
    (hfound : found ∈ node.members) :
    select node found.key.name = .ok (some (.member found)) := by
  cases node with
  | object range members =>
      rw [select, member?_of_mem hnodup hfound]
      rfl
  | array | scalar => exact absurd hfound List.not_mem_nil

namespace Selects

variable {node part : Node} {segment : Str}

/-- What a segment is read as is what it selects. -/
theorem select_eq (h : Selects node segment part) {found : Option Selection}
    (hselect : select node segment = .ok found) :
    ∃ selection, found = some selection ∧ selection.node = part := by
  cases h with
  | read hread => exact ⟨_, (Except.ok.inj (hread.symm.trans hselect)).symm, rfl⟩
  | item hitem => exact ⟨_, select_item hitem hselect, rfl⟩

theorem unique {other : Node} (h : Selects node segment part)
    (hother : Selects node segment other) : part = other := by
  cases h with
  | read hread =>
      obtain ⟨_, heq, rfl⟩ := hother.select_eq hread
      rw [Option.some.inj heq]
  | item hitem =>
      generalize hsegment : Str.ofChars (Nat.toDigits 10 _) = segment at hother
      cases hother with
      | read hread =>
          subst hsegment
          rw [Option.some.inj (select_item hitem hread)]
          rfl
      | item hother =>
          have hindex := congrArg (Nat.ofDigitChars 10 · 0) (Str.ofChars_inj.mp hsegment)
          simp only [Nat.ofDigitChars_ten_toDigits] at hindex
          subst hindex
          exact Option.some.inj (hitem.symm.trans hother)

theorem holds (h : Selects node segment part) (pointer : Pointer) :
    ∃ partPointer, Holds ⟨node, pointer⟩ ⟨part, partPointer⟩ := by
  cases h with
  | read hread => exact holds_of_select hread pointer
  | item hitem => exact ⟨_, .item hitem⟩

end Selects

namespace Leads

variable {node middle target : Node} {path : List Str}

theorem snoc {part : Node} {segment : Str} (h : Leads node path target)
    (hselects : Selects target segment part) : Leads node (path ++ [segment]) part := by
  induction h with
  | nil => exact .cons hselects .nil
  | cons hfirst _ ih => exact .cons hfirst (ih hselects)

theorem unique {other : Node} (h : Leads node path target) (hother : Leads node path other) :
    target = other := by
  induction h with
  | nil =>
      cases hother
      rfl
  | cons hselects _ ih =>
      cases hother with
      | cons hothers hrest =>
          obtain rfl := hselects.unique hothers
          exact ih hrest

theorem of_follow (h : follow node path = .ok (some target)) : Leads node path target := by
  induction path generalizing node with
  | nil =>
      obtain rfl : node = target := by simpa [follow] using h
      exact .nil
  | cons segment rest ih =>
      obtain ⟨selected, hselected, h⟩ := bind_eq_ok.mp h
      cases selected with
      | none => simp [pure, Except.pure] at h
      | some selection => exact .cons (.read hselected) (ih h)

theorem occurs {document : Node} (hnode : Occurs document node) (h : Leads node path target) :
    Occurs document target := by
  induction h with
  | nil => exact hnode
  | cons hselects _ ih =>
      obtain ⟨_, hholds⟩ := hselects.holds .root
      exact ih (hnode.holds hholds)

end Leads

/-- The pointer of a view leads to its value. -/
def Placed (document : Node) (view : View) : Prop :=
  ∃ path, view.pointer.segments = Pointer.root :: path ∧ Leads document path view.node

namespace Placed

variable {document : Node} {view part : View}

theorem root (document : Node) : Placed document (View.root document) :=
  ⟨[], Pointer.segments_root, .nil⟩

theorem of_resolve {pointer : Pointer} (h : resolve document pointer = .ok (some view)) :
    Placed document view := by
  unfold resolve at h
  split at h
  · simp at h
  next first path hsegments =>
    split at h
    next hfirst =>
      obtain ⟨found, hfound, h⟩ := map_eq_ok.mp h
      obtain ⟨node, rfl, rfl⟩ := Option.map_eq_some_iff.mp h
      exact ⟨path, by rw [hsegments, hfirst], .of_follow hfound⟩
    · simp at h

theorem holds (hdistinct : DistinctKeys document) (hview : Placed document view)
    (h : Holds view part) : Placed document part := by
  obtain ⟨path, hsegments, hpath⟩ := hview
  have hnodup := hdistinct.nodup (hpath.occurs (.root document))
  cases h with
  | @member found hfound =>
      refine ⟨path ++ [found.key.name], ?_, hpath.snoc ?_⟩
      · rw [Pointer.segments_child, hsegments, List.cons_append]
      · exact .read (select_member hnodup hfound)
  | @item part index hitem =>
      refine ⟨path ++ [Str.ofChars (Nat.toDigits 10 index)], ?_, hpath.snoc (.item hitem)⟩
      rw [Pointer.segments_item, hsegments, List.cons_append]

theorem below (hdistinct : DistinctKeys document) (hview : Placed document view)
    (h : Below view part) : Placed document part := by
  induction h with
  | refl => exact hview
  | tail _ hpart ih => exact ih.holds hdistinct hpart

/-- There is one view for each pointer. -/
theorem eq_of_pointer {other : View} (hview : Placed document view)
    (hother : Placed document other) (h : view.pointer = other.pointer) : view = other := by
  obtain ⟨path, hsegments, hpath⟩ := hview
  obtain ⟨otherPath, hothers, hotherPath⟩ := hother
  rw [← h, hsegments] at hothers
  obtain rfl := (List.cons.inj hothers).2
  have hnode := hpath.unique hotherPath
  cases view
  cases other
  rw [View.mk.injEq]
  exact ⟨hnode, h⟩

end Placed

/-! ### Names -/

theorem isNumber_of_select_item {node item : Node} {segment : Str}
    (h : select node segment = .ok (some (.item item))) :
    Text.isNumber segment = true := by
  cases node with
  | array range items =>
      simp only [select, selectItem] at h
      split at h
      next hnumber => exact hnumber
      next => simp [Except.map] at h
  | object | scalar => simp [select] at h

/-- A path through a map of definitions passes a key, as the keyword of the map is no
index. -/
theorem Leads.lastKey_ne_none {node target : Node} {path : List Str} {last : Option Key}
    (h : Leads node path target)
    (hpasses : last ≠ none ∨ ∃ keyword ∈ definitionKeywords, keyword ∈ path) :
    lastKey node last path ≠ .ok none := by
  induction h generalizing last with
  | nil =>
      rcases hpasses with hlast | ⟨_, -, hmem⟩
      · exact fun h => hlast (Except.ok.inj h)
      · exact absurd hmem List.not_mem_nil
  | @cons node part target segment path hselects _ ih =>
      intro hnone
      obtain ⟨found, hfound, hrest⟩ := bind_eq_ok.mp hnone
      obtain ⟨selection, rfl, rfl⟩ := hselects.select_eq hfound
      cases selection with
      | member found => exact ih (.inl (Option.some_ne_none found.key)) hrest
      | item part =>
          refine ih (hpasses.imp_right ?_) hrest
          rintro ⟨keyword, hkeyword, hmem⟩
          rcases List.mem_cons.mp hmem with rfl | hlater
          -- An item is selected by a number, and no keyword is one.
          · have hnumber := isNumber_of_select_item hfound
            have hnone : ∀ keyword ∈ definitionKeywords, Text.isNumber keyword = false := by
              decide
            exact absurd (hnumber.symm.trans (hnone _ hkeyword)) nofun
          · exact ⟨keyword, hkeyword, hlater⟩

/-- A schema has a name if its pointer leads to it. -/
theorem Placed.infer_ne_none {naming : Naming} {view : View}
    (h : Placed naming.document view) : naming.infer view ≠ .ok none := by
  obtain ⟨path, hsegments, hpath⟩ := h
  -- A name that is made of a key and an owner is one whatever they are.
  have hpart : ∀ (path : List Str) (last : Str) (owner : Option Label),
      (do
        let key ← lastKey naming.document none path
        return some (Naming.partLabel owner key last)) ≠ Except.ok none := by
    intro path last owner h
    obtain ⟨_, -, h⟩ := bind_eq_ok.mp h
    exact absurd (Except.ok.inj h) (Option.some_ne_none _)
  intro hnone
  unfold Naming.infer at hnone
  split at hnone
  · simp at hnone
  · rw [Naming.ofPointer, hsegments] at hnone
    simp only [if_true] at hnone
    unfold Naming.ofPath at hnone
    split at hnone
    · simp at hnone
    · dsimp only at hnone
      split at hnone
      all_goals
        obtain ⟨owner, -, hnone⟩ := bind_eq_ok.mp hnone
        exact hpart _ _ owner hnone
    next last keyword outer hreverse =>
      split at hnone
      -- Among definitions the name is the last key, which the path is known to pass.
      next hkeyword =>
        obtain ⟨key, hkey, hlabel⟩ := bind_eq_ok.mp hnone
        obtain rfl : key = none := Option.map_eq_none_iff.mp (Except.ok.inj hlabel)
        have hpasses : keyword ∈ path := by
          rw [← List.mem_reverse, hreverse]
          simp
        rw [← hreverse, List.reverse_reverse] at hkey
        exact hpath.lastKey_ne_none (.inr ⟨keyword, hkeyword, hpasses⟩) hkey
      next =>
        dsimp only at hnone
        split at hnone
        all_goals
          obtain ⟨owner, -, hnone⟩ := bind_eq_ok.mp hnone
          exact hpart _ _ owner hnone

end Schemata.Schema
