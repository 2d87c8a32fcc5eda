import Schemata.Proofs.Faults
import Schemata.Proofs.PartNames

/-!
# Access paths

A view that is reached from the root part by part has come along a path of keys and indexes.
Its pointer spells that path, whatever the keys are made of, so that looking the pointer up
leads back to the view, and looking up its ancestors leads to what the path passes.
-/

namespace Schemata.Schema

open Json

/-- A step from a value to a part of it. -/
inductive Step
  | key (name : Str)
  | item (index : Nat)
deriving DecidableEq

namespace Step

/-- The segment that a pointer has for a step. -/
def segment : Step → Str
  | key name => name
  | item index => Str.ofChars (Nat.toDigits 10 index)

/-- The part that a step leads to. Of repeated keys the first counts. -/
def part? (node : Node) : Step → Option Node
  | key name => (node.member? name).map Member.value
  | item index => node.items[index]?

end Step

/-- The value that a path leads to. -/
def reach? (node : Node) : List Step → Option Node
  | [] => some node
  | step :: rest => (step.part? node).bind fun part => reach? part rest

/-- The pointer that spells a path. -/
def pointerTo (path : List Step) : Pointer :=
  Pointer.root.join (path.map Step.segment)

/-- A view is accessed from the root of a document along a path: through single values under
a key, through items of a list under a key, and through the entries of a map. An entry that
repeats the key of an earlier one is passed over. -/
inductive Accessed (document : Node) : List Step → View → Prop
  | root : Accessed document [] (View.root document)
  | child {path : List Step} {view part : View} {key : Str}
      (hview : Accessed document path view) (hpart : view.child? key = some part) :
      Accessed document (path ++ [.key key]) part
  | item {path : List Step} {view part : View} {key : Str} {parts : List View} {index : Nat}
      (hview : Accessed document path view) (hparts : view.children? key = some parts)
      (hpart : parts[index]? = some part) :
      Accessed document (path ++ [.key key, .item index]) part
  | entry {path : List Step} {view : View} {earlier later : List Entry} {entry : Entry}
      (hview : Accessed document path view) (hentries : view.entries = earlier ++ entry :: later)
      (hfirst : ∀ other ∈ earlier, other.key.name ≠ entry.key.name) :
      Accessed document (path ++ [.key entry.key.name]) entry.view

/-- A look-up along a path finds a view. It can fail only at an index of more than the 4300
digits that are read as an integer, for which a list needs more than `10 ^ 4300` items. -/
structure Finds (path : List Step) (view : View) (lookup : Except Failure (Option View)) :
    Prop where
  found : (∀ index, .item index ∈ path → index < 10 ^ Text.digitLimit) → lookup = .ok (some view)
  unique : ∀ other, lookup = .ok other → other = some view

/-! ### Paths -/

section Paths

variable {node part target : Node} {step : Step} {path first second : List Step}

theorem reach?_append (node : Node) (first second : List Step) :
    reach? node (first ++ second) =
      (reach? node first).bind fun middle => reach? middle second := by
  induction first generalizing node with
  | nil => rfl
  | cons step rest ih =>
      rw [List.cons_append, reach?, reach?, Option.bind_assoc]
      congr 1
      funext part
      exact ih part

theorem reach?_concat (h : reach? node path = some part) :
    reach? node (path ++ [step]) = step.part? part := by
  rw [reach?_append, h, Option.bind_some, reach?]
  cases step.part? part <;> rfl

/-- Whatever a path passes is reached by a part of the path. -/
theorem exists_reach?_take (h : reach? node path = some target) (count : Nat) :
    ∃ passed, reach? node (path.take count) = some passed := by
  rw [← List.take_append_drop count path, reach?_append] at h
  obtain ⟨passed, hpassed, -⟩ := Option.bind_eq_some_iff.mp h
  exact ⟨passed, hpassed⟩

theorem Step.selects (h : step.part? node = some part) : Selects node step.segment part := by
  cases step with
  | key name =>
      obtain ⟨found, hfound, rfl⟩ := Option.map_eq_some_iff.mp h
      exact .read (select_of_member? hfound)
  | item index => exact .item h

theorem leads_of_reach? (h : reach? node path = some target) :
    Leads node (path.map Step.segment) target := by
  induction path generalizing node with
  | nil =>
      obtain rfl := Option.some.inj h
      exact .nil
  | cons step rest ih =>
      obtain ⟨part, hpart, hrest⟩ := Option.bind_eq_some_iff.mp h
      exact .cons (Step.selects hpart) (ih hrest)

/-- An index with few enough digits is read, and a key always is. -/
theorem Step.select_eq (h : step.part? node = some part)
    (hindex : ∀ index, step = .item index → index < 10 ^ Text.digitLimit) :
    ∃ selection, select node step.segment = .ok (some selection) ∧ selection.node = part := by
  cases step with
  | key name =>
      obtain ⟨found, hfound, rfl⟩ := Option.map_eq_some_iff.mp h
      exact ⟨_, select_of_member? hfound, rfl⟩
  | item index => exact ⟨_, select_index h (hindex index rfl), rfl⟩

theorem follow_of_reach? (h : reach? node path = some target)
    (hindexes : ∀ index, .item index ∈ path → index < 10 ^ Text.digitLimit) :
    follow node (path.map Step.segment) = .ok (some target) := by
  induction path generalizing node with
  | nil =>
      obtain rfl := Option.some.inj h
      rfl
  | cons step rest ih =>
      obtain ⟨part, hpart, hrest⟩ := Option.bind_eq_some_iff.mp h
      obtain ⟨selection, hselection, rfl⟩ := Step.select_eq hpart fun index heq =>
        hindexes index (heq ▸ List.mem_cons_self)
      rw [List.map_cons, follow, hselection]
      exact ih hrest fun index hmem => hindexes index (List.mem_cons_of_mem _ hmem)

end Paths

/-- A path that leads somewhere is followed to no other place. -/
theorem Leads.eq_of_follow {node target : Node} {path : List Str} {found : Option Node}
    (h : Leads node path target) (hfound : follow node path = .ok found) : found = some target := by
  induction h with
  | nil => exact (Except.ok.inj hfound).symm
  | cons hselects _ ih =>
      obtain ⟨selected, hselected, hrest⟩ := bind_eq_ok.mp hfound
      obtain ⟨selection, rfl, rfl⟩ := hselects.select_eq hselected
      exact ih hrest

/-! ### Pointers -/

theorem pointerTo_concat (path : List Step) (step : Step) :
    pointerTo (path ++ [step]) = (pointerTo path).child step.segment := by
  simp [pointerTo, Pointer.join]

theorem segments_pointerTo (path : List Step) :
    (pointerTo path).segments = Pointer.root :: path.map Step.segment := by
  rw [pointerTo, segments_join, Pointer.segments_root]
  rfl

theorem resolve_pointerTo (document : Node) (path : List Step) :
    resolve document (pointerTo path) =
      (follow document (path.map Step.segment)).map
        (Option.map fun node => ⟨node, pointerTo path⟩) := by
  rw [resolve, segments_pointerTo]
  exact if_pos rfl

/-- The pointer of a path leads to what the path reaches. -/
theorem finds_resolve {document node : Node} {path : List Step}
    (h : reach? document path = some node) :
    Finds path ⟨node, pointerTo path⟩ (resolve document (pointerTo path)) where
  found hindexes := by
    rw [resolve_pointerTo, follow_of_reach? h hindexes]
    rfl
  unique other hother := by
    rw [resolve_pointerTo] at hother
    obtain ⟨found, hfound, rfl⟩ := map_eq_ok.mp hother
    rw [(leads_of_reach? h).eq_of_follow hfound]
    rfl

/-- An ancestor is looked up along the segments that are kept. -/
theorem ancestor_of_segments (document : Node) {pointer : Pointer} {kept dropped : List Str}
    (hsegments : pointer.segments = kept ++ dropped) (hkept : kept ≠ []) (hdropped : dropped ≠ []) :
    ancestor document pointer dropped.length = resolveSegments document kept := by
  have hkeeps := List.length_pos_iff.mpr hkept
  have hdrops := List.length_pos_iff.mpr hdropped
  have hlength : (pointer.segments.length : Int) = kept.length + dropped.length := by
    rw [hsegments, List.length_append]
    rfl
  have hcount : ((kept.length + dropped.length : Int) - dropped.length).toNat = kept.length := by
    omega
  unfold ancestor
  simp only [hlength]
  rw [if_neg (by omega), if_pos (by omega), hcount, hsegments, List.take_left]

/-- The ancestors of what a path leads to are looked up along the first steps of the path. -/
theorem ancestor_pointerTo (document : Node) {path : List Step} {depth : Nat}
    (hpositive : 1 ≤ depth) (hdepth : depth ≤ path.length) :
    ancestor document (pointerTo path) depth =
      resolve document (pointerTo (path.take (path.length - depth))) := by
  have hsegments : (pointerTo path).segments =
      (Pointer.root :: (path.take (path.length - depth)).map Step.segment) ++
        (path.drop (path.length - depth)).map Step.segment := by
    rw [segments_pointerTo, List.cons_append, ← List.map_append, List.take_append_drop]
  have hlength : ((path.drop (path.length - depth)).map Step.segment).length = depth := by
    rw [List.length_map, List.length_drop]
    omega
  have hdropped : (path.drop (path.length - depth)).map Step.segment ≠ [] :=
    List.ne_nil_of_length_pos (by omega)
  rw [← hlength, ancestor_of_segments document hsegments (List.cons_ne_nil _ _) hdropped, hlength]
  rfl

/-! ### Accessed views -/

/-- The first entry of a key is what is found under the key. -/
theorem child?_of_first {view : View} {earlier later : List Entry} {entry : Entry}
    (hentries : view.entries = earlier ++ entry :: later)
    (hfirst : ∀ other ∈ earlier, other.key.name ≠ entry.key.name) :
    view.child? entry.key.name = some entry.view := by
  obtain ⟨before, rest, hmembers, rfl, hrest⟩ := List.map_eq_append_iff.mp hentries
  obtain ⟨found, after, rfl, rfl, rfl⟩ := List.map_eq_cons_iff.mp hrest
  have hnone : ∀ member ∈ before, member.key.name ≠ found.key.name := by
    intro member hmember
    exact hfirst _ (List.mem_map_of_mem hmember)
  have hfound : view.node.member? found.key.name = some found := by
    rw [Node.member?, hmembers, List.find?_append, List.find?_eq_none.mpr (by simpa using hnone)]
    simp
  rw [View.child?, hfound]
  rfl

namespace Accessed

variable {document : Node} {path : List Step} {view : View}

/-- What is found under a key is one step further. -/
theorem spells_child {part : View} {key : Str}
    (hview : view.pointer = pointerTo path ∧ reach? document path = some view.node)
    (hpart : view.child? key = some part) :
    part.pointer = pointerTo (path ++ [.key key]) ∧
      reach? document (path ++ [.key key]) = some part.node := by
  obtain ⟨found, hfound, rfl⟩ := Option.map_eq_some_iff.mp hpart
  rw [pointerTo_concat, ← hview.1, reach?_concat hview.2, Step.part?, hfound]
  exact ⟨rfl, rfl⟩

/-- The pointer of an accessed view spells its path, and the path leads to its value. -/
theorem spells (h : Accessed document path view) :
    view.pointer = pointerTo path ∧ reach? document path = some view.node := by
  induction h with
  | root => exact ⟨rfl, rfl⟩
  | child _ hpart ih => exact spells_child ih hpart
  | entry _ hentries hfirst ih => exact spells_child ih (child?_of_first hentries hfirst)
  | @item path view part key parts index _ hparts hpart ih =>
      simp only [View.children?, Option.bind_eq_bind, Option.bind_eq_some_iff] at hparts
      obtain ⟨found, hfound, items, hitems, heq⟩ := hparts
      obtain rfl := Option.some.inj heq
      have hlist : view.child? key = some ⟨found.value, view.pointer.child key⟩ := by
        rw [View.child?, hfound]
        rfl
      obtain ⟨hpointer, hreach⟩ := spells_child ih hlist
      rw [List.getElem?_mapIdx] at hpart
      obtain ⟨node, hnode, rfl⟩ := Option.map_eq_some_iff.mp hpart
      have hsplit : path ++ [.key key, .item index] = path ++ [.key key] ++ [.item index] := by
        simp
      rw [hsplit, pointerTo_concat, ← hpointer, reach?_concat hreach, Step.part?,
        items_of_array? hitems]
      exact ⟨rfl, hnode⟩

end Accessed

/-- The pointer of an accessed view leads to the view, and leaving out its last steps leads to
what the path reaches without them. -/
theorem accessed_found {document : Node} {path : List Step} {view : View}
    (h : Accessed document path view) :
    Finds path view (resolve document view.pointer) ∧
      ∀ depth : Nat, 1 ≤ depth → depth ≤ path.length →
        ∃ node, reach? document (path.take (path.length - depth)) = some node ∧
          Finds (path.take (path.length - depth))
            ⟨node, pointerTo (path.take (path.length - depth))⟩
            (ancestor document view.pointer depth) := by
  obtain ⟨hpointer, hreach⟩ := h.spells
  constructor
  · have hfinds := finds_resolve hreach
    rwa [← hpointer] at hfinds
  · intro depth hpositive hdepth
    obtain ⟨node, hnode⟩ := exists_reach?_take hreach (path.length - depth)
    refine ⟨node, hnode, ?_⟩
    rw [hpointer, ancestor_pointerTo document hpositive hdepth]
    exact finds_resolve hnode

namespace AwkwardKeys

open Analysis (bareObject bareString)

/-- An object with an empty key, which it repeats, after one that is a digit. -/
def map : View :=
  ⟨bareObject [("0", bareString "first"), ("", bareString "second"), ("", bareString "third")],
    "#/a~1b/~01/1"⟩

def list : View :=
  ⟨.array .start [bareString "zeroth", map.node], "#/a~1b/~01"⟩

/-- A document with keys that hold a slash and what looks like an escaped one. -/
def sample : Node :=
  bareObject [("a/b", bareObject [("~1", list.node)])]

def entry : Entry :=
  ⟨⟨"", "", .start⟩, ⟨bareString "second", "#/a~1b/~01/1/"⟩⟩

def path : List Step :=
  [.key "a/b", .key "~1", .item 1, .key ""]

theorem accessed_entry : Accessed sample path entry.view := by
  have houter : Accessed sample ([] ++ [.key "a/b"]) _ := .child .root rfl
  have hmap : Accessed sample ([.key "a/b"] ++ [.key "~1", .item 1]) map :=
    .item houter rfl rfl
  have hentries : map.entries = map.entries.take 1 ++ entry :: map.entries.drop 2 := rfl
  refine .entry hmap hentries fun other hother => ?_
  obtain rfl := List.mem_singleton.mp hother
  exact nofun

/-- The pointer leads to the first entry of its key, and to the list two steps above. -/
theorem found_entry :
    Accessed sample path entry.view ∧
      resolve sample "#/a~1b/~01/1/" = .ok (some entry.view) ∧
      reach? sample (path.take 2) = some list.node ∧
      ancestor sample "#/a~1b/~01/1/" 2 = .ok (some list) := by
  obtain ⟨hentry, habove⟩ := accessed_found accessed_entry
  obtain ⟨node, hnode, hlist⟩ := habove 2 (by decide) (by decide)
  have hreach : reach? sample (path.take 2) = some list.node := rfl
  obtain rfl : list.node = node := Option.some.inj (hreach.symm.trans hnode)
  have hone : 1 < 10 ^ Text.digitLimit := by decide +kernel
  refine ⟨accessed_entry, hentry.found fun index hindex => ?_, hreach,
    hlist.found fun index hindex => ?_⟩
  · obtain rfl : index = 1 := by simpa [path] using hindex
    exact hone
  · simp [path] at hindex

end AwkwardKeys

end Schemata.Schema
