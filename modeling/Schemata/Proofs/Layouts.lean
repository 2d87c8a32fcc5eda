import Schemata.Proofs.Positions
import Schemata.Proofs.Relocation

/-!
# Layouts of a document

In the text of a document no two parts begin or end in the same place, however close
together they are written. So the places in two texts of the same value correspond to each
other one by one, and the tree of one text is that of the other up to relocation.
-/

namespace Schemata.Json

open Grammar Source

mutual

/-- The positions where values and keys begin and end, in the order of the text. -/
def Node.ends : Node → List Position
  | .object range members => range.first :: (memberEnds members ++ [range.last])
  | .array range items => range.first :: (itemEnds items ++ [range.last])
  | .scalar range _ _ => [range.first, range.last]

def memberEnds : List (Member Node) → List Position
  | [] => []
  | ⟨key, value⟩ :: rest =>
      key.range.first :: key.range.last :: (value.ends ++ memberEnds rest)

def itemEnds : List Node → List Position
  | [] => []
  | item :: rest => item.ends ++ itemEnds rest

end

/-! ### The ends are apart -/

/-- Positions between two offsets, each of them before the next one. -/
structure Ascending (low high : Int) (positions : List Position) : Prop where
  pairwise : positions.Pairwise fun position next => position.offset < next.offset
  bounds : ∀ position ∈ positions, low ≤ position.offset ∧ position.offset ≤ high

namespace Ascending

variable {low high between further : Int} {positions others : List Position} {position : Position}

theorem nil : Ascending low high [] :=
  ⟨.nil, fun _ hmem => absurd hmem List.not_mem_nil⟩

theorem single (hlow : low ≤ position.offset) (hhigh : position.offset ≤ high) :
    Ascending low high [position] :=
  ⟨List.pairwise_singleton _ _, by simpa using ⟨hlow, hhigh⟩⟩

theorem widen (h : Ascending further between positions) (hlow : low ≤ further)
    (hhigh : between ≤ high) : Ascending low high positions := by
  refine ⟨h.pairwise, fun position hposition => ?_⟩
  have hbounds := h.bounds position hposition
  omega

theorem append (h : Ascending low between positions) (hothers : Ascending further high others)
    (hapart : between < further) (hlow : low ≤ further) (hhigh : between ≤ high) :
    Ascending low high (positions ++ others) := by
  refine ⟨List.pairwise_append.mpr ⟨h.pairwise, hothers.pairwise, ?_⟩, ?_⟩
  · intro position hposition other hother
    have hbefore := (h.bounds position hposition).2
    have hafter := (hothers.bounds other hother).1
    omega
  · intro position hposition
    rcases List.mem_append.mp hposition with hfirst | hsecond
    · have hbounds := h.bounds position hfirst
      omega
    · have hbounds := hothers.bounds position hsecond
      omega

theorem cons (h : Ascending further high positions) (hlow : low ≤ position.offset)
    (hapart : position.offset < further) (hhigh : position.offset ≤ high) :
    Ascending low high (position :: positions) :=
  (single hlow le_rfl).append h hapart (by omega) hhigh

/-- The ends of a container lie around those of its parts. -/
theorem enclose {first last : Position}
    (h : Ascending (first.offset + 1) (last.offset - 1) positions)
    (hlast : first.offset < last.offset) :
    Ascending first.offset last.offset (first :: (positions ++ [last])) := by
  have hend : Ascending last.offset last.offset [last] := single le_rfl le_rfl
  exact (h.append hend (by omega) (by omega) (by omega)).cons le_rfl (by omega) hlast.le

theorem nodup (h : Ascending low high positions) : positions.Nodup := by
  refine h.pairwise.imp fun hless heq => ?_
  rw [heq] at hless
  exact lt_irrefl _ hless

end Ascending

/-- The ends of what is written for a phrase keep within the phrase. What follows the first
part of a container has a mark before its parts and one after them. -/
def EndsAscend (first last : Position) : Phrase → Prop
  | .value node => Ascending first.offset last.offset node.ends
  | .member member => Ascending first.offset last.offset (memberEnds [member])
  | .items nodes => first.offset < last.offset ∧
      Ascending (first.offset + 1) (last.offset - 1) (itemEnds nodes)
  | .members members => first.offset < last.offset ∧
      Ascending (first.offset + 1) (last.offset - 1) (memberEnds members)

theorem ne_nil_of_isScalar {limit : Nat} {text : List Char} {value : Scalar}
    (h : IsScalar limit text value) : text ≠ [] := by
  cases h with
  | number hnumber =>
      obtain ⟨c, rest, rfl, -⟩ := head_of_isNumber hnumber
      exact List.cons_ne_nil c rest
  | null | true | false | string => exact List.cons_ne_nil _ _

theorem memberEnds_cons (member : Member Node) (members : List (Member Node)) :
    memberEnds (member :: members) = memberEnds [member] ++ memberEnds members := by
  simp [memberEnds]

theorem offset_le_past (position : Position) (text : List Char) :
    position.offset ≤ (position.past text).offset := by
  rw [offset_past]
  omega

theorem offset_lt_past (position : Position) {text : List Char} (h : text ≠ []) :
    position.offset < (position.past text).offset := by
  have hlength := List.length_pos_iff.mpr h
  rw [offset_past]
  omega

/-- The ends of a part and of what follows it lie between the marks before and after both. -/
theorem Ascending.follow {position start : Position} {text rest : List Char}
    {positions others : List Position}
    (h : Ascending start.offset (start.past text).offset positions)
    (hothers : (start.past text).offset < ((start.past text).past rest).offset ∧
      Ascending ((start.past text).offset + 1) (((start.past text).past rest).offset - 1) others)
    (hstart : position.offset < start.offset) :
    Ascending (position.offset + 1) (((start.past text).past rest).offset - 1)
      (positions ++ others) := by
  obtain ⟨hlast, hothers⟩ := hothers
  have hmiddle := offset_le_past start text
  have hfirst : Ascending (position.offset + 1) (start.past text).offset positions :=
    h.widen (by omega) le_rfl
  exact hfirst.append hothers (Int.lt_succ _) (by omega) (by omega)

theorem Grammar.Written.endsAscend {limit : Nat} {position : Position} {text : List Char}
    {phrase : Phrase} (h : Written limit position text phrase) :
    EndsAscend position (position.past text) phrase := by
  induction h with
  | @scalar position text value hscalar =>
      have hless := offset_lt_past position (ne_nil_of_isScalar hscalar)
      have hend : Ascending (position.past text).offset (position.past text).offset
          [position.past text] := .single le_rfl le_rfl
      exact hend.cons le_rfl hless hless.le
  | emptyArray | emptyObject =>
      exact Ascending.nil.enclose (offset_lt_past _ (List.cons_ne_nil _ _))
  | @array position blank text rest first others _ _ _ ihfirst ihothers =>
      rw [Position.past_append _ _ text] at ihothers
      have hstart := offset_lt_past position (List.cons_ne_nil '[' blank)
      have hparts := Ascending.follow ihfirst ihothers hstart
      rw [← Position.past_append, ← Position.past_append, ← List.append_assoc] at hparts
      exact hparts.enclose (offset_lt_past _ (List.cons_ne_nil _ _))
  | lastItem | lastMember =>
      exact ⟨offset_lt_past _ (List.append_ne_nil_of_right_ne_nil _ (List.cons_ne_nil _ _)), .nil⟩
  | @nextItem position before after text rest next others _ _ _ _ ihnext ihothers =>
      have hne : before ++ ',' :: after ≠ [] :=
        List.append_ne_nil_of_right_ne_nil _ (List.cons_ne_nil _ _)
      rw [Position.past_append _ _ text] at ihothers
      have hparts := Ascending.follow ihnext ihothers (offset_lt_past position hne)
      rw [← Position.past_append, ← Position.past_append, ← List.append_assoc] at hparts
      exact ⟨offset_lt_past _ (by simp), hparts⟩
  | @member position body characters before after text value _ _ _ _ ih =>
      rw [← Position.past_append] at ih
      have hkey : position.offset < (position.past (inQuotes body)).offset :=
        offset_lt_past position (List.cons_ne_nil _ _)
      have hvalue := offset_lt_past (position.past (inQuotes body))
        (List.append_ne_nil_of_right_ne_nil before (List.cons_ne_nil ':' after))
      rw [← Position.past_append, ← List.append_assoc] at hvalue
      have hlast := offset_le_past (position.past (inQuotes body ++ before ++ ':' :: after)) text
      rw [← Position.past_append] at hlast
      have hends : Ascending position.offset
          (position.past (inQuotes body ++ before ++ ':' :: after ++ text)).offset
          (position :: position.past (inQuotes body) :: value.ends) :=
        (Ascending.cons ih le_rfl hvalue (by omega)).cons le_rfl hkey (by omega)
      rwa [← List.append_nil value.ends] at hends
  | @object position blank text rest first others _ _ _ ihfirst ihothers =>
      rw [Position.past_append _ _ text] at ihothers
      have hstart := offset_lt_past position (List.cons_ne_nil '\x7b' blank)
      have hparts := Ascending.follow ihfirst ihothers hstart
      rw [← Position.past_append, ← Position.past_append, ← List.append_assoc,
        ← memberEnds_cons] at hparts
      exact hparts.enclose (offset_lt_past _ (List.cons_ne_nil _ _))
  | @nextMember position before after text rest next others _ _ _ _ ihnext ihothers =>
      have hne : before ++ ',' :: after ≠ [] :=
        List.append_ne_nil_of_right_ne_nil _ (List.cons_ne_nil _ _)
      rw [Position.past_append _ _ text] at ihothers
      have hparts := Ascending.follow ihnext ihothers (offset_lt_past position hne)
      rw [← Position.past_append, ← Position.past_append, ← List.append_assoc,
        ← memberEnds_cons] at hparts
      exact ⟨offset_lt_past _ (by simp), hparts⟩

/-- No two ends in a tree that was read are in the same place. -/
theorem nodup_ends {text : String} {root : Node} (h : read text = .ok root) : root.ends.Nodup := by
  obtain ⟨before, body, after, -, -, -, hwritten⟩ := isText_of_read h
  exact Ascending.nodup hwritten.endsAscend

/-! ### Trees of the same value -/

mutual

/-- The number of ends is settled by the value. -/
theorem length_ends_of_value {node other : Node} (h : node.value = other.value) :
    node.ends.length = other.ends.length := by
  match node, other with
  | .object _ members, .object _ others =>
      have hlength := length_memberEnds_of_value (Value.object.inj h)
      simp [Node.ends, hlength]
  | .array _ items, .array _ others =>
      have hlength := length_itemEnds_of_value (Value.array.inj h)
      simp [Node.ends, hlength]
  | .scalar _ _ _, .scalar _ _ _ => rfl
  | .object _ _, .array _ _ | .object _ _, .scalar _ _ _ | .array _ _, .object _ _
  | .array _ _, .scalar _ _ _ | .scalar _ _ _, .object _ _ | .scalar _ _ _, .array _ _ => cases h

theorem length_memberEnds_of_value {members others : List (Member Node)}
    (h : memberValues members = memberValues others) :
    (memberEnds members).length = (memberEnds others).length := by
  match members, others with
  | [], [] => rfl
  | ⟨_, value⟩ :: rest, ⟨_, other⟩ :: more =>
      obtain ⟨hfirst, hrest⟩ := List.cons.inj h
      have hvalue := length_ends_of_value (Prod.mk.inj hfirst).2
      have hlength := length_memberEnds_of_value hrest
      simp [memberEnds, hvalue, hlength]
  | [], _ :: _ | _ :: _, [] => cases h

theorem length_itemEnds_of_value {items others : List Node}
    (h : itemValues items = itemValues others) :
    (itemEnds items).length = (itemEnds others).length := by
  match items, others with
  | [], [] => rfl
  | item :: rest, other :: more =>
      obtain ⟨hfirst, hrest⟩ := List.cons.inj h
      have hvalue := length_ends_of_value hfirst
      have hlength := length_itemEnds_of_value hrest
      simp [itemEnds, hvalue, hlength]
  | [], _ :: _ | _ :: _, [] => cases h

end

section Move

variable (move : Relocation)

mutual

/-- A relocation that takes the ends of a tree to those of another one of the same value takes
the tree there. -/
theorem relocate_of_ends {node other : Node} {rest more : List Position}
    (h : node.value = other.value)
    (hends : (node.ends ++ rest).map move.position = other.ends ++ more) :
    node.relocate move = other.relocate .stay ∧ rest.map move.position = more := by
  match node, other with
  | .object range members, .object otherRange others =>
      simp only [Node.ends, List.cons_append, List.append_assoc, List.map_cons, List.cons.injEq]
        at hends
      obtain ⟨hfirst, hends⟩ := hends
      obtain ⟨hmembers, hends⟩ := relocateMembers_of_ends (Value.object.inj h) hends
      simp only [List.nil_append, List.map_cons, List.cons.injEq] at hends
      simp only [Node.relocate, Range.relocate, hfirst, hends, hmembers]
      exact ⟨rfl, trivial⟩
  | .array range items, .array otherRange others =>
      simp only [Node.ends, List.cons_append, List.append_assoc, List.map_cons, List.cons.injEq]
        at hends
      obtain ⟨hfirst, hends⟩ := hends
      obtain ⟨hitems, hends⟩ := relocateItems_of_ends (Value.array.inj h) hends
      simp only [List.nil_append, List.map_cons, List.cons.injEq] at hends
      simp only [Node.relocate, Range.relocate, hfirst, hends, hitems]
      exact ⟨rfl, trivial⟩
  | .scalar range value raw, .scalar otherRange otherValue otherRaw =>
      simp only [Node.ends, List.cons_append, List.nil_append, List.map_cons, List.cons.injEq]
        at hends
      obtain ⟨hfirst, hlast, hrest⟩ := hends
      simp only [Node.relocate, Range.relocate, hfirst, hlast, Value.scalar.inj h]
      exact ⟨rfl, hrest⟩
  | .object _ _, .array _ _ | .object _ _, .scalar _ _ _ | .array _ _, .object _ _
  | .array _ _, .scalar _ _ _ | .scalar _ _ _, .object _ _ | .scalar _ _ _, .array _ _ => cases h

theorem relocateMembers_of_ends {members others : List (Member Node)} {rest more : List Position}
    (h : memberValues members = memberValues others)
    (hends : (memberEnds members ++ rest).map move.position = memberEnds others ++ more) :
    relocateMembers move members = relocateMembers .stay others ∧
      rest.map move.position = more := by
  match members, others with
  | [], [] => exact ⟨rfl, hends⟩
  | ⟨key, value⟩ :: members, ⟨otherKey, other⟩ :: others =>
      obtain ⟨hmember, hmembers⟩ := List.cons.inj h
      obtain ⟨hname, hvalue⟩ := Prod.mk.inj hmember
      simp only [memberEnds, List.cons_append, List.append_assoc, List.map_cons, List.cons.injEq]
        at hends
      obtain ⟨hfirst, hlast, hends⟩ := hends
      obtain ⟨hvalue, hends⟩ := relocate_of_ends hvalue hends
      obtain ⟨hmembers, hrest⟩ := relocateMembers_of_ends hmembers hends
      simp only [relocateMembers, Key.relocate, Range.relocate, hname, hfirst, hlast, hvalue,
        hmembers]
      exact ⟨rfl, hrest⟩
  | [], _ :: _ | _ :: _, [] => cases h

theorem relocateItems_of_ends {items others : List Node} {rest more : List Position}
    (h : itemValues items = itemValues others)
    (hends : (itemEnds items ++ rest).map move.position = itemEnds others ++ more) :
    relocateItems move items = relocateItems .stay others ∧ rest.map move.position = more := by
  match items, others with
  | [], [] => exact ⟨rfl, hends⟩
  | item :: items, other :: others =>
      obtain ⟨hitem, hitems⟩ := List.cons.inj h
      simp only [itemEnds, List.append_assoc] at hends
      obtain ⟨hitem, hends⟩ := relocate_of_ends hitem hends
      obtain ⟨hitems, hrest⟩ := relocateItems_of_ends hitems hends
      simp only [relocateItems, hitem, hitems]
      exact ⟨trivial, hrest⟩
  | [], _ :: _ | _ :: _, [] => cases h

end

end Move

/-- Lists of equal length, without repetitions, are the same up to a permutation. -/
theorem exists_perm_map_eq {positions others : List Position} (hnodup : positions.Nodup)
    (hothers : others.Nodup) (hlength : positions.length = others.length) :
    ∃ permutation : Equiv.Perm Position, positions.map permutation = others := by
  have hget : Function.Injective positions.get := List.nodup_iff_injective_get.mp hnodup
  have hotherGet : Function.Injective fun index : Fin positions.length =>
      others.get (index.cast hlength) :=
    (List.nodup_iff_injective_get.mp hothers).comp (Fin.cast_injective hlength)
  obtain ⟨permutation, hpermutation⟩ := Equiv.Perm.exists_extending_pair _ _ hget hotherGet
  refine ⟨permutation, List.ext_get (by simpa using hlength) fun index hindex hother => ?_⟩
  simpa using hpermutation ⟨index, by simpa using hindex⟩

/-- Two texts of the same value have the same tree up to relocation. -/
theorem exists_relocation {text other : String} {root otherRoot : Node}
    (h : read text = .ok root) (hother : read other = .ok otherRoot)
    (hvalue : root.value = otherRoot.value) :
    ∃ move : Relocation, root.relocate move = otherRoot.relocate .stay := by
  obtain ⟨permutation, hends⟩ :=
    exists_perm_map_eq (nodup_ends h) (nodup_ends hother) (length_ends_of_value hvalue)
  obtain ⟨move, hmove⟩ := Relocation.exists_of_perm permutation
  have hmoved : (root.ends ++ []).map move.position = otherRoot.ends ++ [] := by
    rw [List.append_nil, List.append_nil, hmove, hends]
  exact ⟨move, (relocate_of_ends move hvalue hmoved).1⟩

end Schemata.Json
