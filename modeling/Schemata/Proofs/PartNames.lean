import Mathlib.Data.Nat.Digits.Defs
import Schemata.Proofs.Exploration

/-!
# Names of parts

A property, a member of a union or the items of an array without a title are named after the
schema that they belong to. The name is read off the pointer from its end, so that it is the
role of a segment that has to be told: a key of `properties` may be spelled like a keyword.
-/

namespace Schemata.Text

theorem underscoresBetween_of_notMem {text : List Char} (h : '_' ∉ text) :
    underscoresBetween text = true := by
  induction text with
  | nil => rfl
  | cons c rest ih =>
      have hrest := ih fun hmem => h (List.mem_cons_of_mem _ hmem)
      unfold underscoresBetween
      split
      · rfl
      · simp_all
      · simp_all
      next heq => exact (List.cons.inj heq).2 ▸ hrest

theorem isDigit_of_mem_index (index : Nat) :
    ∀ c ∈ Nat.toDigits 10 index, c.isDigit = true :=
  fun _ hc => Nat.isDigit_of_mem_toDigits (by decide) (by decide) hc

theorem isNumber_index (index : Nat) : isNumber (Str.ofChars (Nat.toDigits 10 index)) = true :=
  isNumber_of_digits (isDigit_of_mem_index index) Nat.toDigits_ne_nil

/-- An index is read back, unless it is too long. -/
theorem readInteger_index {index : Nat} (h : index < 10 ^ digitLimit) :
    readInteger (Nat.toDigits 10 index) = .ok index := by
  have hdigits := isDigit_of_mem_index index
  have hlength : ¬digitLimit < (Nat.toDigits 10 index).length :=
    Nat.not_lt.mpr (Nat.toDigits_length 10 index digitLimit (by decide) h)
  have hnot := underscore_notMem_digits hdigits
  have hhead : (Nat.toDigits 10 index).head? ≠ some '_' :=
    fun hhead => hnot (List.mem_of_head? hhead)
  have hempty : Nat.toDigits 10 index ≠ [] := Nat.toDigits_ne_nil
  rw [readInteger_eq_readNatural hdigits]
  simp only [readNatural, takeWhile_digits hdigits, filter_digits hdigits, hhead,
    underscoresBetween_of_notMem hnot, digitsValue_of_digits hdigits,
    Nat.ofDigitChars_ten_toDigits]
  simp [hempty, hlength, Except.map]

end Schemata.Text

namespace Schemata.Schema

open Json

/-- An index is neither empty nor a keyword. -/
theorem index_ne (index : Nat) : Str.ofChars (Nat.toDigits 10 index) ≠ "" ∧
    Str.ofChars (Nat.toDigits 10 index) ≠ "items" := by
  have hnumber := Text.isNumber_index index
  constructor
  all_goals
    intro heq
    rw [heq] at hnumber
    exact absurd hnumber (by decide)

/-! ### Lookups that succeed -/

theorem length_le_itemsSize (items : List Node) : items.length ≤ itemsSize items := by
  induction items with
  | nil => exact Nat.le_refl _
  | cons item rest ih =>
      have hitem := size_pos item
      rw [List.length_cons, itemsSize]
      omega

theorem length_items_le_size (node : Node) : node.items.length ≤ node.size := by
  cases node with
  | array range items => exact Nat.le_succ_of_le (length_le_itemsSize items)
  | object | scalar => exact Nat.zero_le _

theorem select_index {node part : Node} {index : Nat} (hitem : node.items[index]? = some part)
    (hindex : index < 10 ^ Text.digitLimit) :
    select node (Str.ofChars (Nat.toDigits 10 index)) = .ok (some (.item part)) := by
  cases node with
  | object | scalar => simp [Node.items] at hitem
  | array range items =>
      have hpart : items[index]? = some part := hitem
      simp [select, selectItem, Text.isNumber_index, Text.readInteger_index hindex, hpart,
        Except.map]

theorem select_of_member? {node : Node} {key : Str} {found : Member Node}
    (h : node.member? key = some found) : select node key = .ok (some (.member found)) := by
  cases node with
  | object => rw [select, h]; rfl
  | array | scalar => simp [Node.member?, Node.members] at h

/-- In a document that has no more values than an index can count, every segment is read. -/
theorem Selects.select_ok {node part : Node} {segment : Str} (h : Selects node segment part)
    (hsize : node.size ≤ 10 ^ Text.digitLimit) :
    ∃ selection, select node segment = .ok (some selection) ∧ selection.node = part := by
  cases h with
  | read hread => exact ⟨_, hread, rfl⟩
  | item hitem =>
      have hindex := (List.getElem?_eq_some_iff.mp hitem).choose
      have hlength := length_items_le_size node
      exact ⟨_, select_index hitem (by omega), rfl⟩

theorem Selects.size_lt {node part : Node} {segment : Str} (h : Selects node segment part) :
    part.size < node.size :=
  (h.holds .root).choose_spec.size_lt

namespace Leads

variable {node target : Node} {path : List Str}

theorem follow_eq (h : Leads node path target) (hsize : node.size ≤ 10 ^ Text.digitLimit) :
    follow node path = .ok (some target) := by
  induction h with
  | nil => rfl
  | cons hselects _ ih =>
      obtain ⟨selection, hselection, rfl⟩ := hselects.select_ok hsize
      rw [follow, hselection]
      exact ih (Nat.le_trans (Nat.le_of_lt hselects.size_lt) hsize)

theorem lastKey_ok (h : Leads node path target) (hsize : node.size ≤ 10 ^ Text.digitLimit)
    (last : Option Key) : ∃ key, lastKey node last path = .ok key := by
  induction h generalizing last with
  | nil => exact ⟨last, rfl⟩
  | cons hselects _ ih =>
      obtain ⟨selection, hselection, rfl⟩ := hselects.select_ok hsize
      have hrest := ih (Nat.le_trans (Nat.le_of_lt hselects.size_lt) hsize)
      cases selection with
      | item part =>
          obtain ⟨key, hkey⟩ := hrest last
          exact ⟨key, by rw [lastKey, hselection]; exact hkey⟩
      | member found =>
          obtain ⟨key, hkey⟩ := hrest (some found.key)
          exact ⟨key, by rw [lastKey, hselection]; exact hkey⟩

/-- The last key along a path that ends with a member is the key of that member. -/
theorem lastKey_member (h : Leads node path target) (hsize : node.size ≤ 10 ^ Text.digitLimit)
    {key : Str} {found : Member Node} (hfound : target.member? key = some found)
    (last : Option Key) : lastKey node last (path ++ [key]) = .ok (some found.key) := by
  induction h generalizing last with
  | nil =>
      rw [List.nil_append, lastKey, select_of_member? hfound]
      rfl
  | cons hselects _ ih =>
      obtain ⟨selection, hselection, rfl⟩ := hselects.select_ok hsize
      have hrest := ih (Nat.le_trans (Nat.le_of_lt hselects.size_lt) hsize) hfound
      rw [List.cons_append, lastKey, hselection]
      cases selection with
      | item part => exact hrest last
      | member outer => exact hrest (some outer.key)

end Leads

/-! ### Paths to views -/

/-- The pointer of a view is that of a path from the root, which leads to its value. -/
structure LedTo (document : Node) (path : List Str) (view : View) : Prop where
  segments : view.pointer.segments = Pointer.root :: path
  leads : Leads document path view.node

theorem Placed.ledTo {document : Node} {view : View} (h : Placed document view) :
    ∃ path, LedTo document path view :=
  h.imp fun _ h => ⟨h.1, h.2⟩

namespace LedTo

variable {document : Node} {path : List Str} {view part : View}

theorem child {key : Str} (h : LedTo document path view) (hpart : view.child? key = some part) :
    LedTo document (path ++ [key]) part := by
  obtain ⟨found, hfound, rfl⟩ := Option.map_eq_some_iff.mp hpart
  constructor
  · rw [Pointer.segments_child, h.segments, List.cons_append]
  · exact h.leads.snoc (.read (select_of_member? hfound))

theorem entry (hdistinct : DistinctKeys document) {entry : Entry} (h : LedTo document path view)
    (hentry : entry ∈ view.entries) : LedTo document (path ++ [entry.key.name]) entry.view := by
  obtain ⟨found, hfound, rfl⟩ := List.mem_map.mp hentry
  have hnodup := hdistinct.nodup (h.leads.occurs (.root document))
  constructor
  · rw [Pointer.segments_child, h.segments, List.cons_append]
  · exact h.leads.snoc (.read (select_member hnodup hfound))

theorem item {key : Str} {parts : List View} {index : Nat} (h : LedTo document path view)
    (hparts : view.children? key = some parts) (hpart : parts[index]? = some part) :
    LedTo document (path ++ [key] ++ [Str.ofChars (Nat.toDigits 10 index)]) part := by
  simp only [View.children?, Option.bind_eq_bind, Option.bind_eq_some_iff] at hparts
  obtain ⟨found, hfound, items, hitems, heq⟩ := hparts
  have hlist : view.child? key = some ⟨found.value, view.pointer.child key⟩ := by
    rw [View.child?, hfound]
    rfl
  obtain ⟨segments, leads⟩ := h.child hlist
  obtain rfl := Option.some.inj heq
  rw [List.getElem?_mapIdx] at hpart
  obtain ⟨node, hnode, rfl⟩ := Option.map_eq_some_iff.mp hpart
  constructor
  · rw [Pointer.segments_item, segments, List.cons_append]
  · exact leads.snoc (.item ((items_of_array? hitems).symm ▸ hnode))

end LedTo

/-! ### Names -/

namespace Naming

/-- The name that is inferred for a schema. -/
def HasName (naming : Naming) (view : View) (name : Str) : Prop :=
  ∃ label, naming.infer view = .ok (some label) ∧ label.value = name

theorem joined_of_ne {owner : Label} {last : Str} (howner : owner.value ≠ "")
    (hlast : last ≠ "") : joined (some owner) last = owner.value ++ "_" ++ last := by
  have howner : owner.value ≠ [] := howner
  have hlast : last ≠ [] := hlast
  simp [joined, howner, hlast, List.intercalate_cons_cons]
  rfl

variable {naming : Naming} {path outer : List Str} {keyword last : Str} {view part : View}
  (hsize : naming.document.size ≤ 10 ^ Text.digitLimit)

include hsize

/-- What is looked up of an owner is the name that is inferred for it. -/
theorem ownerLabel_eq_infer (hview : LedTo naming.document path view) :
    naming.ownerLabel path.reverse (naming.ofPath path.reverse) = naming.infer view := by
  have hpointer : naming.ofPointer view.pointer = naming.ofPath path.reverse := by
    rw [ofPointer, hview.segments]
    simp
  rw [ownerLabel, List.reverse_reverse, hview.leads.follow_eq hsize, infer, hpointer]
  rfl

theorem infer_eq_ofPath (hpart : LedTo naming.document path part)
    (huntitled : titleLabel? part.node = none) :
    naming.infer part = naming.ofPath path.reverse := by
  rw [← ownerLabel_eq_infer hsize hpart, ownerLabel, List.reverse_reverse,
    hpart.leads.follow_eq hsize]
  simp [bind, Except.bind, huntitled]

/-- A part that is found under a keyword is named after the schema with that keyword. -/
theorem hasName_of_keyword {name : Option Label} (hview : LedTo naming.document path view)
    (hpart : LedTo naming.document (path ++ [keyword] ++ [last]) part)
    (huntitled : titleLabel? part.node = none) (hkeyword : keyword ∉ definitionKeywords)
    (hlast : keyword = "properties" ∨ last ≠ "items") (hname : naming.infer view = .ok name) :
    naming.HasName part (joined name last) := by
  have hitems : ¬(¬keyword = "properties" ∧ last = "items") :=
    fun h => hlast.elim h.1 fun hne => hne h.2
  obtain ⟨key, hkey⟩ := hpart.leads.lastKey_ok hsize none
  rw [List.append_assoc, List.singleton_append] at hkey
  have howner := (ownerLabel_eq_infer hsize hview).trans hname
  refine ⟨partLabel name key last, ?_, rfl⟩
  rw [infer_eq_ofPath hsize hpart huntitled]
  simp [ofPath, hkeyword, hitems, howner, hkey, bind, Except.bind, pure, Except.pure]

/-- The items of an array are named after the array. -/
theorem hasName_of_items {name : Option Label}
    (hview : LedTo naming.document (path ++ [keyword]) view)
    (hitems : LedTo naming.document (path ++ [keyword] ++ [("items" : Str)]) part)
    (huntitled : titleLabel? part.node = none) (hkeyword : keyword ∉ definitionKeywords)
    (hproperties : keyword ≠ "properties") (hname : naming.infer view = .ok name) :
    naming.HasName part (joined name "items") := by
  obtain ⟨key, hkey⟩ := hitems.leads.lastKey_ok hsize none
  rw [List.append_assoc, List.singleton_append] at hkey
  have howner : naming.ownerLabel (keyword :: path.reverse)
      (naming.ofPath (keyword :: path.reverse)) = .ok name := by
    simpa using (ownerLabel_eq_infer hsize hview).trans hname
  refine ⟨partLabel name key "items", ?_, rfl⟩
  rw [infer_eq_ofPath hsize hitems huntitled]
  simp [ofPath, hkeyword, hproperties, howner, hkey, bind, Except.bind, pure, Except.pure]

/-- What is found under the key of a map of definitions is named by its own key. -/
theorem hasName_of_definition {key : Str}
    (hview : LedTo naming.document (path ++ [keyword]) view) (hpart : view.child? key = some part)
    (huntitled : titleLabel? part.node = none) (hkeyword : keyword ∈ definitionKeywords) :
    naming.HasName part key := by
  obtain ⟨found, hfound, -⟩ := Option.map_eq_some_iff.mp hpart
  have hkey : lastKey naming.document none (path ++ [keyword, key]) = .ok (some found.key) := by
    simpa using hview.leads.lastKey_member hsize hfound none
  have hvalue : found.key.name = key := by simpa using List.find?_some hfound
  refine ⟨found.key.label, ?_, hvalue⟩
  rw [infer_eq_ofPath hsize (hview.child hpart) huntitled]
  simp [ofPath, hkeyword, hkey]

end Naming

end Schemata.Schema

namespace Schemata.Analysis

open Schema

/-- The names of what a property holds, by its role. The owner is any schema that its pointer
leads to, as it does for all that a conversion meets. An untitled property is named after the
object and its key, and an untitled member of a union after the property and its index, however
the key is spelled. The items of an array are named after the property unless the key is
spelled like a keyword that maps names: under `definitions` or `$defs` they are named as if they
were a definition themselves, and under `properties` after the whole map. -/
theorem names_of_property_parts {setting : Setting} {owner map : View} {entry : Schema.Entry}
    {name : Str} (hdistinct : DistinctKeys setting.document)
    (hsize : setting.document.size ≤ 10 ^ Text.digitLimit)
    (howner : Placed setting.document owner)
    (hname : setting.naming.HasName owner name) (hnonempty : name ≠ "")
    (hmap : owner.properties? = some map) (hentry : entry ∈ map.entries)
    (hkey : entry.key.name ≠ "") (huntitled : titleLabel? entry.view.node = none) :
    let partName := name ++ "_" ++ entry.key.name
    setting.naming.HasName entry.view partName ∧
      (∀ members index member, entry.view.oneOf? = some members → members[index]? = some member →
        titleLabel? member.node = none →
        setting.naming.HasName member
          (partName ++ "_" ++ Str.ofChars (Nat.toDigits 10 index))) ∧
      ∀ item, entry.view.items? = some (.one item) → titleLabel? item.node = none →
        (entry.key.name ∉ ("properties" : Str) :: definitionKeywords →
          setting.naming.HasName item (partName ++ "_items")) ∧
        (entry.key.name ∈ definitionKeywords → setting.naming.HasName item "items") ∧
        (entry.key.name = "properties" → ∀ mapName, setting.naming.infer map = .ok mapName →
          setting.naming.HasName item (Naming.joined mapName "items")) := by
  intro partName
  obtain ⟨path, howner⟩ := howner.ledTo
  have hmapPath := howner.child hmap
  have hpath := hmapPath.entry hdistinct hentry
  have hkeys : ("properties" : Str) ∉ definitionKeywords ∧
      ("oneOf" : Str) ∉ definitionKeywords := by
    decide
  -- The name of the property, from which those of what it holds are made.
  have hpart : setting.naming.HasName entry.view partName := by
    obtain ⟨label, hlabel, rfl⟩ := hname
    have h := Naming.hasName_of_keyword hsize howner hpath huntitled hkeys.1 (.inl rfl) hlabel
    rwa [Naming.joined_of_ne hnonempty hkey] at h
  obtain ⟨label, hlabel, hvalue⟩ := id hpart
  have hne : label.value ≠ [] := by simp [hvalue, partName, Str.ofString]
  refine ⟨hpart, ?_, ?_⟩
  · intro members index member hmembers hmember huntitled
    have h := Naming.hasName_of_keyword hsize hpath (hpath.item hmembers hmember) huntitled
      hkeys.2 (.inr (index_ne index).2) hlabel
    rwa [Naming.joined_of_ne hne (index_ne index).1, hvalue] at h
  · intro item hitem huntitled
    have hchild := View.child?_of_items? hitem
    have hitemPath := hpath.child hchild
    refine ⟨fun hplain => ?_, fun hdefinition => ?_, fun hproperties mapName hmapName => ?_⟩
    · simp only [List.mem_cons, not_or] at hplain
      have h := Naming.hasName_of_items hsize hpath hitemPath huntitled hplain.2 hplain.1 hlabel
      rwa [Naming.joined_of_ne hne (by decide), hvalue, List.append_assoc] at h
    · exact Naming.hasName_of_definition hsize hpath hchild huntitled hdefinition
    · rw [hproperties] at hitemPath
      exact Naming.hasName_of_keyword hsize hmapPath hitemPath huntitled hkeys.1 (.inl rfl)
        hmapName

namespace KeyedDefinitions

/-- A list of objects under a key that is spelled like the keyword of definitions. -/
def item : View :=
  ⟨bareObject [("type", bareString "object")], "#/properties/definitions/items"⟩

def list : View :=
  ⟨bareObject [("type", bareString "array"), ("items", item.node)], "#/properties/definitions"⟩

def map : View :=
  ⟨bareObject [("definitions", list.node)], "#/properties"⟩

def sample : Setting :=
  ⟨bareObject [("title", bareString "Box"), ("type", bareString "object"),
    ("properties", map.node)], "", {}⟩

def entry : Schema.Entry :=
  ⟨⟨"definitions", "definitions", .start⟩, list⟩

/-- The list is named after the object, but its items are not named after the list. -/
theorem names_of_keyedDefinitions :
    DistinctKeys sample.document ∧ (View.root sample.document).properties? = some map ∧
      entry ∈ map.entries ∧ entry.view.items? = some (.one item) ∧
      titleLabel? list.node = none ∧ titleLabel? item.node = none ∧
      sample.naming.HasName (View.root sample.document) "Box" ∧
      sample.naming.HasName list "Box_definitions" ∧
      ¬ sample.naming.HasName item "Box_definitions_items" := by
  have hlist : sample.naming.infer list =
      .ok (some ⟨"Box_definitions", some entry.key.range.code⟩) := by decide +kernel
  have hitem : sample.naming.infer item = .ok (some ⟨"items", some entry.key.range.code⟩) := by
    decide +kernel
  refine ⟨by decide +kernel, rfl, List.mem_cons_self, rfl, rfl, rfl, ⟨_, rfl, rfl⟩,
    ⟨_, hlist, rfl⟩, ?_⟩
  rintro ⟨label, hlabel, hvalue⟩
  obtain rfl := Option.some.inj (Except.ok.inj (hitem.symm.trans hlabel))
  exact absurd hvalue (by decide)

/-- The items are named as if they were the definition of that key. -/
theorem names_keyedDefinitions_items :
    sample.naming.HasName list ("Box" ++ "_" ++ "definitions") ∧
      sample.naming.HasName item "items" := by
  have hparts := @names_of_property_parts sample (View.root sample.document) map entry "Box"
    (by decide +kernel) (by decide +kernel) (.root _) ⟨_, rfl, rfl⟩ (by decide) rfl
    List.mem_cons_self (by decide) rfl
  exact ⟨hparts.1, (hparts.2.2 item rfl rfl).2.1 (by decide)⟩

end KeyedDefinitions

end Schemata.Analysis
