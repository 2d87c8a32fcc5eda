import Schemata.Proofs.Marks
import Schemata.Proofs.PartNames
import Schemata.Proofs.Turns

/-!
# Spellings of pointers

A name is inferred from a value and the segments of its pointer. The pointers to a value
may spell the index of an item in several ways, and that is all the freedom there is. So if
one value becomes two entries, it has no title, and their pointers spell an index in two
ways. Where all references write indexes as pointers do, no value becomes two entries.
-/

namespace Schemata.Schema

open Json

/-- A segment is an index as pointers write it, or is read as that index. -/
def IsIndex (segment : Str) (index : Nat) : Prop :=
  segment = Str.ofChars (Nat.toDigits 10 index) ∨
    Text.isNumber segment = true ∧
      ∃ value, Text.readInteger segment.chars = .ok value ∧ value.toNat = index

/-- Two segments are the same, or they are spellings of one index. -/
def SameStep (first second : Str) : Prop :=
  first = second ∨ ∃ index, IsIndex first index ∧ IsIndex second index

/-- A segment is what is written, or a spelling of the index that is written. -/
def Respells (segment written : Str) : Prop :=
  segment = written ∨
    ∃ index, IsIndex segment index ∧ written = Str.ofChars (Nat.toDigits 10 index)

theorem Respells.sameStep {first second written : Str} (h : Respells first written)
    (hother : Respells second written) : SameStep first second := by
  rcases h with rfl | ⟨index, hfirst, hwritten⟩
  · rcases hother with rfl | ⟨index, hsecond, hwritten⟩
    · exact .inl rfl
    · exact .inr ⟨index, .inl hwritten, hsecond⟩
  · rcases hother with rfl | ⟨other, hsecond, hother⟩
    · exact .inr ⟨index, hfirst, .inl hwritten⟩
    · have hindex := congrArg (fun text => Nat.ofDigitChars 10 text.chars 0)
        (hwritten.symm.trans hother)
      simp only [Str.chars_ofChars, Nat.ofDigitChars_ten_toDigits] at hindex
      exact .inr ⟨index, hfirst, hindex ▸ hsecond⟩

theorem Respells.sameSteps {path other written : List Str}
    (h : List.Forall₂ Respells path written) (hother : List.Forall₂ Respells other written) :
    List.Forall₂ SameStep path other := by
  induction h generalizing other with
  | nil =>
      cases hother
      exact .nil
  | cons hfirst _ ih =>
      cases hother with
      | cons hsecond hrest => exact .cons (hfirst.sameStep hsecond) (ih hrest)

theorem isIndex_of_select {node part : Node} {segment : Str}
    (h : select node segment = .ok (some (.item part))) :
    ∃ index, node.items[index]? = some part ∧ IsIndex segment index := by
  cases node with
  | object | scalar => simp [select] at h
  | array range items =>
      have hnumber := isNumber_of_select_item h
      simp only [select, selectItem, hnumber, if_true] at h
      cases hvalue : Text.readInteger segment.chars with
      | error => simp [hvalue, Except.map] at h
      | ok value =>
          simp only [hvalue, Except.map, Except.ok.injEq, Option.map_eq_some_iff,
            Selection.item.injEq, exists_eq_right] at h
          exact ⟨value.toNat, h, .inr ⟨hnumber, value, hvalue, rfl⟩⟩

/-- What a segment selects is held under a segment that it respells. -/
theorem Selects.respells {node part : Node} {segment : Str} (h : Selects node segment part)
    (pointer : Pointer) :
    ∃ written partPointer, Holds ⟨node, pointer⟩ ⟨part, partPointer⟩ ∧
      partPointer.segments = pointer.segments ++ [written] ∧ Respells segment written := by
  cases h with
  | @read segment selection hselect =>
      cases selection with
      | item part =>
          obtain ⟨index, hitem, hindex⟩ := isIndex_of_select hselect
          exact ⟨_, pointer.item index, .item hitem, Pointer.segments_item pointer index,
            .inr ⟨index, hindex, rfl⟩⟩
      | member found =>
          obtain ⟨hfound, rfl⟩ := member_of_select hselect
          exact ⟨_, pointer.child found.key.name, .member hfound,
            Pointer.segments_child pointer found.key.name, .inl rfl⟩
  | @item index part hitem =>
      exact ⟨_, pointer.item index, .item hitem, Pointer.segments_item pointer index, .inl rfl⟩

/-- A path is a spelling of the pointer of some view. -/
theorem Leads.respells {node target : Node} {path : List Str} (h : Leads node path target)
    (pointer : Pointer) :
    ∃ written targetPointer, Below ⟨node, pointer⟩ ⟨target, targetPointer⟩ ∧
      targetPointer.segments = pointer.segments ++ written ∧
      List.Forall₂ Respells path written := by
  induction h generalizing pointer with
  | nil => exact ⟨[], pointer, .refl, (List.append_nil _).symm, .nil⟩
  | cons hselects _ ih =>
      obtain ⟨first, partPointer, hholds, hsegments, hfirst⟩ := hselects.respells pointer
      obtain ⟨rest, targetPointer, hbelow, htarget, hrest⟩ := ih partPointer
      refine ⟨first :: rest, targetPointer, hbelow.head hholds, ?_, .cons hfirst hrest⟩
      rw [htarget, hsegments, List.append_assoc, List.singleton_append]

section Views

variable {text : String} {document : Node} {view other : View}

/-- No value of a document that is read is in two places. -/
theorem Below.eq_of_node (hread : read text = .ok document)
    (hview : Below (View.root document) view)
    (hother : Below (View.root document) other) (h : view.node = other.node) : view = other :=
  List.inj_on_of_nodup_map ((firsts_sublist_ends document .root).nodup (nodup_ends hread))
    hview.mem_viewsBelow hother.mem_viewsBelow (congrArg (fun node => node.range.first) h)

/-- The pointers to one value take the same steps. -/
theorem Placed.sameSteps (hread : read text = .ok document) (hview : Placed document view)
    (hother : Placed document other) (h : view.node = other.node) :
    List.Forall₂ SameStep view.pointer.segments other.pointer.segments := by
  obtain ⟨path, hsegments, hpath⟩ := hview
  obtain ⟨otherPath, hothers, hotherPath⟩ := hother
  obtain ⟨written, pointer, hbelow, hpointer, hspelling⟩ := hpath.respells .root
  obtain ⟨otherWritten, otherPointer, hotherBelow, hotherPointer, hotherSpelling⟩ :=
    hotherPath.respells .root
  have hsame := hbelow.eq_of_node hread hotherBelow h
  obtain rfl : pointer = otherPointer := congrArg View.pointer hsame
  obtain rfl : written = otherWritten := List.append_cancel_left (hpointer.symm.trans hotherPointer)
  rw [hsegments, hothers]
  exact .cons (.inl rfl) (Respells.sameSteps hspelling hotherSpelling)

/-- The pointer of a view has the segments by which values are reached in a document, with
indexes as pointers write them. -/
def PlainlyWritten (document : Node) (view : View) : Prop :=
  ∃ twin, Below (View.root document) twin ∧ twin.node = view.node ∧
    twin.pointer.segments = view.pointer.segments

namespace PlainlyWritten

theorem root (document : Node) : PlainlyWritten document (View.root document) :=
  ⟨_, .refl, rfl, rfl⟩

theorem holds (h : PlainlyWritten document view) (hpart : Holds view other) :
    PlainlyWritten document other := by
  obtain ⟨⟨node, pointer⟩, hbelow, rfl, hsegments⟩ := h
  cases hpart with
  | @member found hfound =>
      refine ⟨⟨found.value, pointer.child found.key.name⟩, hbelow.tail (.member hfound), rfl, ?_⟩
      rw [Pointer.segments_child, Pointer.segments_child, ← hsegments]
  | @item part index hitem =>
      refine ⟨⟨part, pointer.item index⟩, hbelow.tail (.item hitem), rfl, ?_⟩
      rw [Pointer.segments_item, Pointer.segments_item, ← hsegments]

theorem below (h : PlainlyWritten document view) (hpart : Below view other) :
    PlainlyWritten document other := by
  induction hpart with
  | refl => exact h
  | tail _ hholds ih => exact ih.holds hholds

/-- There is one plain way to write the pointer to a value. -/
theorem segments_eq (hread : read text = .ok document) (hview : PlainlyWritten document view)
    (hother : PlainlyWritten document other) (h : view.node = other.node) :
    view.pointer.segments = other.pointer.segments := by
  obtain ⟨twin, hbelow, hnode, hsegments⟩ := hview
  obtain ⟨otherTwin, hotherBelow, hotherNode, hotherSegments⟩ := hother
  obtain rfl := hbelow.eq_of_node hread hotherBelow (hnode.trans (h.trans hotherNode.symm))
  exact hsegments.symm.trans hotherSegments

end PlainlyWritten

end Views

/-- A name is inferred from a value and the segments of its pointer. -/
theorem Naming.infer_congr {naming : Naming} {view other : View} (hnode : view.node = other.node)
    (hsegments : view.pointer.segments = other.pointer.segments) :
    naming.infer view = naming.infer other := by
  rw [infer, infer, ofPointer, ofPointer, hnode, hsegments]

theorem Naming.infer_titled {naming : Naming} {view : View} {title : Label}
    (h : titleLabel? view.node = some title) : naming.infer view = .ok (some title) := by
  rw [infer, h]

theorem Naming.HasName.infer_ne {naming : Naming} {view other : View} {name otherName : Str}
    (h : naming.HasName view name) (hother : naming.HasName other otherName)
    (hne : name ≠ otherName) : naming.infer view ≠ naming.infer other := by
  obtain ⟨label, hlabel, rfl⟩ := h
  obtain ⟨otherLabel, hotherLabel, rfl⟩ := hother
  rw [hlabel, hotherLabel]
  rintro ⟨⟩
  exact hne rfl

end Schemata.Schema

namespace Schemata

/-- The names of all entries, with the pointers to what they were made of. -/
def Service.named (service : Service) : List (Str × Pointer) :=
  service.types.map (fun type => (type.name.value, type.source)) ++
    service.enums.map (fun type => (type.name.value, type.source)) ++
      service.unions.map fun type => (type.name.value, type.source)

end Schemata

namespace Schemata.Analysis

open Schema Source

variable {setting : Setting} {view : View} {context : Context} {label : Label}

/-! ### References -/

/-- A conversion follows a reference to a schema: that of a schema that is met, or of a member
of an intersection that is. -/
def ReferredTo (setting : Setting) (target : View) : Prop :=
  ∃ view holder, Met setting view ∧
    (holder = view ∨ view.conversionShape = .ok .intersection ∧ holder ∈ view.allOf?.getD []) ∧
    RefersTo setting holder target

/-- Pointers are extended plainly, so they are written as the references are. -/
theorem plainlyWritten_of_met
    (hplain : ∀ target, ReferredTo setting target → PlainlyWritten setting.document target)
    (hview : Met setting view) : PlainlyWritten setting.document view := by
  induction hview with
  | refl => exact .root _
  | @tail view other hview hcall ih =>
      cases hcall with
      | definition hdefinition =>
          obtain ⟨entry, hentry, -, rfl⟩ := hdefinition
          exact ih.below (below_of_mem_definitionEntries hentry)
      | own hother =>
          cases hother with
          | target htarget => exact hplain other ⟨view, view, hview, .inl rfl, htarget⟩
          | item hitem => exact ih.holds hitem.holds
          | part hpart =>
              cases hpart with
              | property _ hentry => exact ih.below (below_of_mem_propertyEntries hentry)
              | member _ hmember => exact ih.below (View.below_of_mem_getD_children? hmember)
              | inherited hshape hpart hentry =>
                  obtain ⟨⟨member, hmember, hstands⟩, -⟩ := hpart
                  refine PlainlyWritten.below ?_ (below_of_mem_propertyEntries hentry)
                  rcases hstands with ⟨-, rfl⟩ | htarget
                  · exact ih.below (View.below_of_mem_getD_children? hmember)
                  · exact hplain _ ⟨view, member, hview, .inr ⟨hshape, hmember⟩, htarget⟩

/-! ### Entries -/

theorem Registry.map_fst_eq_names {α : Type} {registry : Registry α} {name : α → Str}
    {source : α → Pointer} (h : registry.All fun key value => key = name value) :
    (registry.values.map fun value => (name value, source value)).map Prod.fst =
      registry.names := by
  rw [Registry.values, Registry.names, List.map_map, List.map_map]
  exact List.map_congr_left fun entry hentry => (h entry.1 entry.2 hentry).symm

/-- No two entries have one name. -/
theorem Context.Consistent.nodup_named (h : context.Consistent) :
    ((context.outcome setting label).service.named.map Prod.fst).Nodup := by
  have hnames : (context.outcome setting label).service.named.map Prod.fst = context.names := by
    rw [Service.named, List.map_append, List.map_append]
    exact congrArg₂ (· ++ ·) (congrArg₂ (· ++ ·) (Registry.map_fst_eq_names h.typeNames)
      (Registry.map_fst_eq_names h.enumNames)) (Registry.map_fst_eq_names h.unionNames)
  exact hnames ▸ h.names

theorem Registry.has_of_mem_map {α : Type} {registry : Registry α} {name : α → Str}
    {source : α → Pointer} (h : registry.All fun key value => key = name value)
    {entry : Str × Pointer}
    (hentry : entry ∈ registry.values.map fun value => (name value, source value)) :
    registry.Has source entry.1 entry.2 := by
  obtain ⟨value, hvalue, rfl⟩ := List.mem_map.mp hentry
  obtain ⟨found, hfound, rfl⟩ := List.mem_map.mp hvalue
  exact ⟨found.2, h found.1 found.2 hfound ▸ hfound, rfl⟩

theorem Context.Consistent.hasEntry_of_mem_named (h : context.Consistent)
    {entry : Str × Pointer} (hentry : entry ∈ (context.outcome setting label).service.named) :
    ∃ kind, context.HasEntry kind entry.1 entry.2 := by
  rcases List.mem_append.mp hentry with hother | hunion
  · rcases List.mem_append.mp hother with htype | henum
    · exact ⟨.type, Registry.has_of_mem_map h.typeNames htype⟩
    · exact ⟨.enumeration, Registry.has_of_mem_map h.enumNames henum⟩
  · exact ⟨.union, Registry.has_of_mem_map h.unionNames hunion⟩

/-- An entry was made of a schema that is met, from which its name is inferred. -/
theorem exists_met_of_mem_named {converted : Converted}
    (hreturns : analyze setting = (.ok converted, context)) {entry : Str × Pointer}
    (hentry : entry ∈ (context.outcome setting label).service.named) :
    ∃ view, Met setting view ∧ view.pointer = entry.2 ∧
      setting.naming.HasName view entry.1 := by
  obtain ⟨kind, hkind⟩ := (analyze_consistent hreturns).hasEntry_of_mem_named hentry
  obtain ⟨-, view, hview, hpointer, _, name, -, -, hname, hvalue⟩ :=
    (analyze_unfolds hreturns).grounded kind _ _ hkind
  exact ⟨view, hview, hpointer, name, hname, hvalue⟩

/-- The value of an entry is that of a schema that is met at the same pointer. -/
theorem exists_met_of_resolve {converted : Converted}
    (hdistinct : DistinctKeys setting.document)
    (hreturns : analyze setting = (.ok converted, context)) {entry : Str × Pointer}
    (hentry : entry ∈ (context.outcome setting label).service.named)
    (hresolve : resolve setting.document entry.2 = .ok (some view)) :
    Met setting view ∧ view.pointer = entry.2 ∧ setting.naming.HasName view entry.1 := by
  obtain ⟨schema, hschema, hpointer, hname⟩ := exists_met_of_mem_named hreturns hentry
  obtain rfl : schema = view := (hschema.placed hdistinct (.root _)).eq_of_pointer
    (.of_resolve hresolve) (hpointer.trans (occurs_of_resolve hresolve).2.symm)
  exact ⟨hschema, hpointer, hname⟩

/-- Where one value became two entries, it has no title, and the pointers of the entries
differ in how they spell an index, and in nothing else. If every reference that is followed
spells indexes as pointers do, no value became two entries. Each entry was made of some value,
as long as a document has no more values than an index can count. -/
theorem entries_of_one_value {text path : String} {options : Options} {document : Json.Node}
    {outcome : Outcome} (hread : Json.read text = .ok document)
    (hdistinct : DistinctKeys document) (houtcome : convertText text path options = .ok outcome) :
    (outcome.service.named.Pairwise fun first second => ∀ view other,
      resolve document first.2 = .ok (some view) → resolve document second.2 = .ok (some other) →
      view.node = other.node → titleLabel? view.node = none ∧
        first.2.segments ≠ second.2.segments ∧
        List.Forall₂ SameStep first.2.segments second.2.segments) ∧
    ((∀ target, ReferredTo ⟨document, path, options⟩ target → PlainlyWritten document target) →
      outcome.service.named.Pairwise fun first second => ∀ view other,
        resolve document first.2 = .ok (some view) →
        resolve document second.2 = .ok (some other) → view.node ≠ other.node) ∧
    (document.size ≤ 10 ^ Text.digitLimit → ∀ entry ∈ outcome.service.named,
      ∃ view, resolve document entry.2 = .ok (some view)) := by
  obtain ⟨tree, converted, context, label, htree, hreturns, rfl⟩ := convertText_eq_ok houtcome
  obtain rfl : document = tree := Except.ok.inj (hread.symm.trans htree)
  have hnodup : ((context.outcome ⟨document, path, options⟩ label).service.named.map
      Prod.fst).Nodup := (analyze_consistent hreturns).nodup_named
  have hnames := List.pairwise_map.mp hnodup
  refine ⟨hnames.imp_of_mem ?_, fun hplain => hnames.imp_of_mem ?_, fun hsize entry hentry => ?_⟩
  · intro first second hfirst hsecond hdifferent view other hview hother hnode
    obtain ⟨hmet, hpointer, hname⟩ := exists_met_of_resolve hdistinct hreturns hfirst hview
    obtain ⟨hotherMet, hotherPointer, hotherName⟩ :=
      exists_met_of_resolve hdistinct hreturns hsecond hother
    have hinfer := hname.infer_ne hotherName hdifferent
    rw [← hpointer, ← hotherPointer]
    refine ⟨?_, fun hsegments => hinfer (Naming.infer_congr hnode hsegments), ?_⟩
    · by_contra htitled
      obtain ⟨found, hfound⟩ := Option.ne_none_iff_exists'.mp htitled
      exact hinfer ((Naming.infer_titled hfound).trans (Naming.infer_titled (hnode ▸ hfound)).symm)
    · exact (hmet.placed hdistinct (.root _)).sameSteps hread
        (hotherMet.placed hdistinct (.root _)) hnode
  · intro first second hfirst hsecond hdifferent view other hview hother hnode
    obtain ⟨hmet, -, hname⟩ := exists_met_of_resolve hdistinct hreturns hfirst hview
    obtain ⟨hotherMet, -, hotherName⟩ := exists_met_of_resolve hdistinct hreturns hsecond hother
    have hsegments := (plainlyWritten_of_met hplain hmet).segments_eq hread
      (plainlyWritten_of_met hplain hotherMet) hnode
    exact hname.infer_ne hotherName hdifferent (Naming.infer_congr hnode hsegments)
  · obtain ⟨view, hview, hpointer, -⟩ := exists_met_of_mem_named hreturns hentry
    obtain ⟨path, hsegments, hleads⟩ := hview.placed hdistinct (.root document)
    refine ⟨⟨view.node, entry.2⟩, ?_⟩
    rw [← hpointer]
    simp only [resolve, hsegments, if_true, hleads.follow_eq hsize]
    rfl

namespace PaddedIndex

/-- A union of an object schema and a reference to it. -/
def plain : String :=
  "\x7b\"oneOf\":[\x7b\"type\":\"object\"\x7d,\x7b\"$ref\":\"#/oneOf/0\"\x7d]\x7d"

/-- The same union, with an index of two digits. -/
def padded : String :=
  "\x7b\"oneOf\":[\x7b\"type\":\"object\"\x7d,\x7b\"$ref\":\"#/oneOf/00\"\x7d]\x7d"

def member : View :=
  ⟨.object (.inFirstLine 10 27) [⟨⟨"type", "\"type\"", .inFirstLine 11 17⟩,
    .scalar (.inFirstLine 18 26) (.string "object") "\"object\""⟩], "#/oneOf/0"⟩

def link (index : String) : View :=
  ⟨.object (.inFirstLine 28 (47 + index.length)) [⟨⟨"$ref", "\"$ref\"", .inFirstLine 29 35⟩,
    .scalar (.inFirstLine 36 (46 + index.length)) (.string ("#/oneOf/" ++ index : String))
      ("\"#/oneOf/" ++ index ++ "\"")⟩], "#/oneOf/1"⟩

def sample (index : String) : Setting where
  document :=
    .object (.inFirstLine 0 (49 + index.length)) [⟨⟨"oneOf", "\"oneOf\"", .inFirstLine 1 8⟩,
      .array (.inFirstLine 9 (48 + index.length)) [member.node, (link index).node]⟩]
  sourcePath := ""
  options := {}

theorem read_plain : Json.read plain = .ok (sample "0").document := by
  cbv

theorem read_padded : Json.read padded = .ok (sample "00").document := by
  cbv

theorem met_cases {view : View} (h : Met (sample "0") view) :
    view = View.root (sample "0").document ∨ view = member ∨ view = link "0" := by
  have hcalled : calledFor (sample "0") (View.root (sample "0").document) = [member, link "0"] ∧
      calledFor (sample "0") member = [] ∧ calledFor (sample "0") (link "0") = [member] :=
    ⟨rfl, rfl, rfl⟩
  have hmem : view ∈ [View.root (sample "0").document, member, link "0"] :=
    h.mem_of_closed List.mem_cons_self (by simp [hcalled])
  simpa using hmem

/-- The only reference is written as pointers are. -/
theorem plainlyWritten_of_referredTo {target : View} (h : ReferredTo (sample "0") target) :
    PlainlyWritten (sample "0").document target := by
  obtain ⟨view, holder, hview, hholder, htarget⟩ := h
  have htargets : targets (sample "0") (View.root (sample "0").document) = [] ∧
      targets (sample "0") member = [] ∧ targets (sample "0") (link "0") = [member] :=
    ⟨rfl, rfl, rfl⟩
  have hcases := met_cases hview
  have hnone : view.allOf? = none := by
    rcases hcases with rfl | rfl | rfl
    all_goals rfl
  obtain rfl : holder = view := hholder.resolve_right fun hmember => by simp [hnone] at hmember
  rw [← mem_targets_iff] at htarget
  rcases hcases with rfl | rfl | rfl
  · simp [htargets] at htarget
  · simp [htargets] at htarget
  · obtain rfl : target = member := by simpa [htargets] using htarget
    have hlisted : (View.root (sample "0").document).children? "oneOf" =
        some [member, link "0"] := rfl
    exact (PlainlyWritten.root _).below (View.below_of_mem_children? hlisted List.mem_cons_self)

theorem exists_outcome {text index : String} {entries : List (Str × Pointer)}
    (hread : Json.read text = .ok (sample index).document)
    (hentries : ((outcome (sample index)).1.map fun found => found.service.named) = .ok entries) :
    ∃ outcome, convertText text "" = .ok outcome ∧ outcome.service.named = entries :=
  exists_convertText hread hentries

/-- Two references to one schema that are written alike add a single entry. -/
theorem entries_of_plain :
    ∃ outcome, convertText plain "" = .ok outcome ∧
      Json.read plain = .ok (sample "0").document ∧ DistinctKeys (sample "0").document ∧
      outcome.service.named =
        ([("root_0", "#/oneOf/0"), ("root", "#")] : List (Str × Pointer)) ∧
      (∀ target, ReferredTo (sample "0") target →
        PlainlyWritten (sample "0").document target) ∧
      outcome.service.named.Pairwise fun first second => ∀ view other,
        resolve (sample "0").document first.2 = .ok (some view) →
        resolve (sample "0").document second.2 = .ok (some other) → view.node ≠ other.node := by
  obtain ⟨outcome, houtcome, hentries⟩ :=
    @exists_outcome plain "0" [("root_0", "#/oneOf/0"), ("root", "#")] read_plain
      (by decide +kernel)
  have hdistinct : DistinctKeys (sample "0").document := by decide +kernel
  have hapart := entries_of_one_value read_plain hdistinct houtcome
  exact ⟨outcome, houtcome, read_plain, hdistinct, hentries,
    fun _ htarget => plainlyWritten_of_referredTo htarget,
    hapart.2.1 fun _ htarget => plainlyWritten_of_referredTo htarget⟩

/-- Two entries may be made of one value. -/
theorem not_entries_apart :
    ¬ ∀ (text path : String) (options : Options) (document : Json.Node) (outcome : Outcome),
      Json.read text = .ok document → DistinctKeys document →
      convertText text path options = .ok outcome →
      outcome.service.named.Pairwise fun first second => ∀ view other,
        resolve document first.2 = .ok (some view) →
        resolve document second.2 = .ok (some other) → view.node ≠ other.node := by
  intro hapart
  obtain ⟨outcome, houtcome, hentries⟩ :=
    @exists_outcome padded "00" [("root_0", "#/oneOf/0"), ("root_00", "#/oneOf/00"), ("root", "#")]
      read_padded (by decide +kernel)
  have hdistinct : DistinctKeys (sample "00").document := by decide +kernel
  have hpairwise := hapart padded "" {} _ outcome read_padded hdistinct houtcome
  rw [hentries] at hpairwise
  exact List.rel_of_pairwise_cons hpairwise List.mem_cons_self member
    ⟨member.node, "#/oneOf/00"⟩ rfl rfl rfl

end PaddedIndex

end Schemata.Analysis
