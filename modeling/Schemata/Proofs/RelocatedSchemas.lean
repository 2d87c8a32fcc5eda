import Schemata.Proofs.Relocation

/-!
# Schemas in another layout

What a schema says does not depend on its layout: whatever is read of a relocated document,
by keyword or by pointer, is the relocation of what is read of the document. Ranges move
along, all else stays the same.
-/

namespace Schemata

open Json Source Schema

section Parts

variable (move : Relocation)

def Json.Member.relocate (member : Member Node) : Member Node :=
  ⟨member.key.relocate move, member.value.relocate move⟩

def Schema.Selection.relocate : Selection → Selection
  | item node => .item (node.relocate move)
  | member found => .member (found.relocate move)

def Schema.View.relocate (view : View) : View :=
  ⟨view.node.relocate move, view.pointer⟩

def Schema.Entry.relocate (entry : Entry) : Entry :=
  ⟨entry.key.relocate move, entry.view.relocate move⟩

def Schema.OneOrMany.relocate : OneOrMany View → OneOrMany View
  | one view => .one (view.relocate move)
  | many views => .many (views.map (View.relocate move))

def Schema.Naming.relocate (naming : Naming) : Naming :=
  ⟨naming.document.relocate move, naming.rootName⟩

end Parts

variable {move : Relocation}

@[simp] theorem Source.Range.code_relocate (range : Range) :
    (range.relocate move).code = move.code range.code :=
  (move.code_range range).symm

/-! ### Nodes -/

namespace Json

@[simp] theorem Key.name_relocate (key : Key) : (key.relocate move).name = key.name :=
  rfl

@[simp] theorem Key.range_relocate (key : Key) :
    (key.relocate move).range = key.range.relocate move :=
  rfl

@[simp] theorem Key.label_relocate (key : Key) :
    (key.relocate move).label = key.label.relocate move.code := by
  simp [label, relocate, Label.relocate]

@[simp] theorem Member.key_relocate (member : Member Node) :
    (member.relocate move).key = member.key.relocate move :=
  rfl

@[simp] theorem Member.value_relocate (member : Member Node) :
    (member.relocate move).value = member.value.relocate move :=
  rfl

theorem relocateMembers_eq_map (members : List (Member Node)) :
    relocateMembers move members = members.map (Member.relocate move) := by
  induction members with
  | nil => rfl
  | cons member rest ih => rw [relocateMembers, ih]; rfl

theorem relocateItems_eq_map (items : List Node) :
    relocateItems move items = items.map (Node.relocate move) := by
  induction items with
  | nil => rfl
  | cons item rest ih => rw [relocateItems, ih]; rfl

namespace Node

@[simp] theorem range_relocate (node : Node) :
    (node.relocate move).range = node.range.relocate move := by
  cases node with
  | object | array | scalar => rw [relocate]; rfl

@[simp] theorem members_relocate (node : Node) :
    (node.relocate move).members = node.members.map (Member.relocate move) := by
  cases node with
  | object => rw [relocate]; exact relocateMembers_eq_map _
  | array | scalar => rw [relocate]; rfl

@[simp] theorem scalar?_relocate (node : Node) : (node.relocate move).scalar? = node.scalar? := by
  cases node with
  | object | array | scalar => rw [relocate]; rfl

@[simp] theorem array?_relocate (node : Node) :
    (node.relocate move).array? = node.array?.map (List.map (relocate move)) := by
  cases node with
  | array => rw [relocate]; exact congrArg some (relocateItems_eq_map _)
  | object | scalar => rw [relocate]; rfl

@[simp] theorem member?_relocate (node : Node) (name : Str) :
    (node.relocate move).member? name = (node.member? name).map (Member.relocate move) := by
  rw [member?, members_relocate, List.find?_map]
  rfl

end Node

@[simp] theorem Member.range_relocate (member : Member Node) :
    (member.relocate move).range = member.range.relocate move := by
  simp [range, relocate, Key.relocate, Range.relocate]

mutual

@[simp] theorem Node.size_relocate (node : Node) : (node.relocate move).size = node.size := by
  match node with
  | .object _ members => simp [Node.relocate, Node.size, membersSize_relocate members]
  | .array _ items => simp [Node.relocate, Node.size, itemsSize_relocate items]
  | .scalar _ _ _ => simp [Node.relocate, Node.size]

theorem membersSize_relocate (members : List (Member Node)) :
    membersSize (relocateMembers move members) = membersSize members := by
  match members with
  | [] => rfl
  | ⟨_, value⟩ :: rest =>
      simp [relocateMembers, membersSize, Node.size_relocate value, membersSize_relocate rest]

theorem itemsSize_relocate (items : List Node) :
    itemsSize (relocateItems move items) = itemsSize items := by
  match items with
  | [] => rfl
  | item :: rest =>
      simp [relocateItems, itemsSize, Node.size_relocate item, itemsSize_relocate rest]

end

end Json

/-! ### Views -/

namespace Schema

namespace View

@[simp] theorem node_relocate (view : View) : (view.relocate move).node = view.node.relocate move :=
  rfl

@[simp] theorem pointer_relocate (view : View) : (view.relocate move).pointer = view.pointer :=
  rfl

@[simp] theorem root_relocate (document : Node) :
    root (document.relocate move) = (root document).relocate move :=
  rfl

@[simp] theorem code_relocate (view : View) : (view.relocate move).code = move.code view.code := by
  simp [code]

@[simp] theorem child?_relocate (view : View) (key : Str) :
    (view.relocate move).child? key = (view.child? key).map (relocate move) := by
  simp [child?, relocate, Function.comp_def]

@[simp] theorem children?_relocate (view : View) (key : Str) :
    (view.relocate move).children? key = (view.children? key).map (List.map (relocate move)) := by
  simp only [children?, node_relocate, Node.member?_relocate]
  cases view.node.member? key with
  | none => rfl
  | some member =>
      simp only [Option.map_some, Option.bind_eq_bind, Option.bind_some, Member.value_relocate,
        Node.array?_relocate]
      cases member.value.array? with
      | none => rfl
      | some items => exact congrArg some (List.ext_getElem? fun index => by
          simp [relocate, Function.comp_def])

/-- Items that are missing are missing in every layout. -/
theorem getD_children?_relocate (view : View) (key : Str) :
    ((view.relocate move).children? key).getD [] =
      ((view.children? key).getD []).map (relocate move) := by
  rw [children?_relocate]
  cases view.children? key with
  | none | some => rfl

@[simp] theorem entries_relocate (view : View) :
    (view.relocate move).entries = view.entries.map (Entry.relocate move) := by
  simp [entries, Entry.relocate, relocate, Function.comp_def]

@[simp] theorem memberCode?_relocate (view : View) (key : Str) :
    (view.relocate move).memberCode? key = (view.memberCode? key).map move.code := by
  simp [memberCode?, Function.comp_def]

@[simp] theorem scalar?_relocate (view : View) : (view.relocate move).scalar? = view.scalar? := by
  simp [scalar?]

@[simp] theorem scalar_relocate (view : View) : (view.relocate move).scalar = view.scalar := by
  simp [scalar]

@[simp] theorem string?_relocate (view : View) : (view.relocate move).string? = view.string? := by
  simp [string?]

@[simp] theorem reference?_relocate (view : View) :
    (view.relocate move).reference? = view.reference?.map (relocate move) :=
  view.child?_relocate "$ref"

@[simp] theorem definitions_relocate (view : View) :
    (view.relocate move).definitions = view.definitions.map (relocate move) := by
  simp only [definitions, child?_relocate]
  exact List.map_filterMap.symm

@[simp] theorem oneOrMany?_relocate (view : View) (key : Str) :
    (view.relocate move).oneOrMany? key =
      (view.oneOrMany? key).map (OneOrMany.relocate move) := by
  simp only [oneOrMany?, children?_relocate, child?_relocate]
  cases view.children? key with
  | some views => rfl
  | none => simp [Function.comp_def, OneOrMany.relocate]

@[simp] theorem hasType_relocate (view : View) (name : Str) :
    (view.relocate move).hasType name = view.hasType name := by
  simp only [hasType, type?, oneOrMany?_relocate]
  cases view.oneOrMany? "type" with
  | none => rfl
  | some found => cases found with
    | one type => simp [OneOrMany.relocate]
    | many types => rfl

@[simp] theorem hasNumericType_relocate (view : View) :
    (view.relocate move).hasNumericType = view.hasNumericType := by
  simp [hasNumericType]

@[simp] theorem paragraphs_relocate (view : View) :
    (view.relocate move).paragraphs = relocateParagraphs move.code view.paragraphs := by
  simp only [paragraphs, description?, child?_relocate, relocateParagraphs]
  cases view.child? "description" with
  | none => rfl
  | some description =>
      simp only [Option.map_some, Option.bind_some, paragraphs?, string?_relocate, code_relocate]
      cases description.string? with
      | none => rfl
      | some text =>
          simp only [Option.bind_some]
          split <;> simp [Label.relocate, Function.comp_def]

@[simp] theorem constantOf?_relocate (view : View) :
    (view.relocate move).constantOf? = view.constantOf?.map (Constant.relocate move.code) := by
  simp only [constantOf?, scalar?_relocate, code_relocate]
  cases view.scalar? with
  | none => rfl
  | some value => cases value with
    | null | bool | number | string => rfl

end View

@[simp] theorem Entry.key_relocate (entry : Entry) :
    (entry.relocate move).key = entry.key.relocate move :=
  rfl

@[simp] theorem Entry.view_relocate (entry : Entry) :
    (entry.relocate move).view = entry.view.relocate move :=
  rfl

@[simp] theorem Entry.code_relocate (entry : Entry) :
    (entry.relocate move).code = move.code entry.code := by
  simp only [code, key_relocate, view_relocate, Key.range_relocate, View.node_relocate,
    Node.range_relocate]
  exact Range.code_relocate ⟨entry.key.range.first, entry.view.node.range.last⟩

/-! ### Shapes -/

namespace View

@[simp] theorem shapeOfType_relocate (view : View) :
    (view.relocate move).shapeOfType = view.shapeOfType := by
  simp [shapeOfType]

@[simp] theorem shape_relocate (view : View) : (view.relocate move).shape = view.shape := by
  simp only [shape, reference?_relocate, allOf?, anyOf?, oneOf?, enum?, type?,
    children?_relocate, oneOrMany?_relocate, shapeOfType_relocate, Option.isSome_map]
  cases view.oneOrMany? "type" with
  | none => rfl
  | some found => cases found with
    | one | many => rfl

@[simp] theorem isStringEnum_relocate (view : View) :
    (view.relocate move).isStringEnum = view.isStringEnum := by
  simp [isStringEnum, type?]

@[simp] theorem conversionShape_relocate (view : View) :
    (view.relocate move).conversionShape = view.conversionShape := by
  simp [conversionShape]

end View

end Schema

/-! ### Lookup -/

/-- What holds of each of two steps holds of both together. -/
theorem bind_map_comm {α β γ δ : Type} {result : Except Failure α} {other : Except Failure β}
    {next : α → Except Failure γ} {otherNext : β → Except Failure δ} {change : α → β}
    {lastChange : γ → δ} (h : other = result.map change)
    (hnext : ∀ value, otherNext (change value) = (next value).map lastChange) :
    other >>= otherNext = (result >>= next).map lastChange := by
  subst h
  cases result with
  | error failure => rfl
  | ok value => exact hnext value

namespace Schema

@[simp] theorem Selection.node_relocate (selection : Selection) :
    (selection.relocate move).node = selection.node.relocate move := by
  cases selection with
  | item | member => rfl

theorem selectItem_relocate (items : List Node) (segment : Str) :
    selectItem (items.map (Node.relocate move)) segment =
      (selectItem items segment).map (Option.map (Node.relocate move)) := by
  unfold selectItem
  split
  · cases Text.readInteger segment.chars with
    | ok index => simp [Except.map]
    | error fault => rfl
  · rfl

theorem select_relocate (node : Node) (segment : Str) :
    select (node.relocate move) segment =
      (select node segment).map (Option.map (Selection.relocate move)) := by
  cases node with
  | object range members =>
      have hmember : ((Node.object range members).relocate move).member? segment = _ :=
        Node.member?_relocate _ segment
      rw [Node.relocate] at hmember ⊢
      simp [select, hmember, Except.map, Selection.relocate, Function.comp_def]
  | array range items =>
      rw [Node.relocate, relocateItems_eq_map, select, selectItem_relocate, select]
      cases selectItem items segment with
      | error failure => rfl
      | ok found => simp [Except.map, Selection.relocate, Function.comp_def]
  | scalar => rw [Node.relocate]; rfl

theorem follow_relocate (node : Node) (path : List Str) :
    follow (node.relocate move) path =
      (follow node path).map (Option.map (Node.relocate move)) := by
  induction path generalizing node with
  | nil => rfl
  | cons segment rest ih =>
      rw [follow, follow]
      apply bind_map_comm (select_relocate node segment)
      intro found
      cases found with
      | none => rfl
      | some selection =>
          have hrest := ih selection.node
          rw [← Selection.node_relocate] at hrest
          exact hrest

theorem lastKey_relocate (node : Node) (last : Option Key) (path : List Str) :
    lastKey (node.relocate move) (last.map (Key.relocate move)) path =
      (lastKey node last path).map (Option.map (Key.relocate move)) := by
  induction path generalizing node last with
  | nil => rfl
  | cons segment rest ih =>
      rw [lastKey, lastKey]
      apply bind_map_comm (select_relocate node segment)
      intro found
      cases found with
      | none => rfl
      | some selection => cases selection with
        | item item => exact ih item last
        | member found => exact ih found.value (some found.key)

theorem resolve_relocate (document : Node) (pointer : Pointer) :
    resolve (document.relocate move) pointer =
      (resolve document pointer).map (Option.map (View.relocate move)) := by
  unfold resolve
  split
  · rfl
  · split
    · rw [follow_relocate]
      cases follow document _ with
      | error failure => rfl
      | ok found => simp [Except.map, View.relocate, Function.comp_def]
    · rfl

theorem resolveSegments_relocate (document : Node) (segments : List Str) :
    resolveSegments (document.relocate move) segments =
      (resolveSegments document segments).map (Option.map (View.relocate move)) := by
  unfold resolveSegments
  cases Pointer.ofSegments? segments with
  | none => rfl
  | some pointer => exact resolve_relocate document pointer

theorem ancestor_relocate (document : Node) (pointer : Pointer) (depth : Int) :
    ancestor (document.relocate move) pointer depth =
      (ancestor document pointer depth).map (Option.map (View.relocate move)) := by
  unfold ancestor
  dsimp only
  split
  · rfl
  · exact resolveSegments_relocate document _

theorem requires_relocate (owner : Option View) (key : Str) :
    ((owner.map (View.relocate move)).bind View.required?).any (requires · key) =
      (owner.bind View.required?).any (requires · key) := by
  cases owner with
  | none => rfl
  | some owner =>
      simp only [Option.map_some, Option.bind_some, View.required?, View.children?_relocate]
      cases owner.children? "required" with
      | none => rfl
      | some required => simp [requires, Function.comp_def]

@[simp] theorem isRequired_relocate (document : Node) (pointer : Pointer) :
    isRequired (document.relocate move) pointer = isRequired document pointer := by
  unfold isRequired
  split
  · split
    · rw [ancestor_relocate]
      cases ancestor document pointer 2 with
      | error failure => rfl
      | ok owner => exact congrArg Except.ok (requires_relocate owner _)
    · rfl
  · rfl

/-! ### Naming -/

@[simp] theorem titleLabel?_relocate (node : Node) :
    titleLabel? (node.relocate move) = (titleLabel? node).map (Label.relocate move.code) := by
  simp only [titleLabel?, Node.member?_relocate]
  cases node.member? "title" with
  | none => rfl
  | some title =>
      simp only [Option.map_some, Option.bind_eq_bind, Option.bind_some, Member.value_relocate,
        Node.scalar?_relocate]
      cases title.value.scalar?.bind Scalar.string? with
      | none => rfl
      | some text =>
          simp only [Option.bind_some]
          split <;> simp [Label.relocate]

namespace Naming

theorem joined_relocate (owner : Option Label) (last : Str) :
    joined (owner.map (Label.relocate move.code)) last = joined owner last := by
  simp [joined, Label.relocate, Function.comp_def]

theorem partLabel_relocate (owner : Option Label) (key : Option Key) (last : Str) :
    partLabel (owner.map (Label.relocate move.code)) (key.map (Key.relocate move)) last =
      (partLabel owner key last).relocate move.code := by
  cases key with
  | none => simp [partLabel, joined_relocate, Label.relocate]
  | some key =>
      simp only [partLabel, joined_relocate, Label.relocate, Option.map_some, Option.filter_some]
      by_cases hname : key.name = last <;> simp [hname]

theorem ownerLabel_relocate {naming : Naming} {path : List Str}
    {pathLabel otherLabel : Except Failure (Option Label)}
    (h : otherLabel = pathLabel.map (Option.map (Label.relocate move.code))) :
    (naming.relocate move).ownerLabel path otherLabel =
      (naming.ownerLabel path pathLabel).map (Option.map (Label.relocate move.code)) := by
  unfold ownerLabel
  apply bind_map_comm (follow_relocate naming.document path.reverse)
  intro found
  cases found with
  | none => rfl
  | some owner =>
      simp only [Option.map_some, titleLabel?_relocate]
      cases titleLabel? owner with
      | none => exact h
      | some title => rfl

theorem lastKey_none_relocate (naming : Naming) (path : List Str) :
    lastKey (naming.relocate move).document none path =
      (lastKey naming.document none path).map (Option.map (Key.relocate move)) :=
  lastKey_relocate naming.document none path

theorem labelAt_relocate (naming : Naming) (path : List Str) (last : Str)
    (owner : Option Label) :
    (do
      let key ← lastKey (naming.relocate move).document none path
      return some (partLabel (owner.map (Label.relocate move.code)) key last)) =
    (do
      let key ← lastKey naming.document none path
      return some (partLabel owner key last) : Except Failure (Option Label)).map
        (Option.map (Label.relocate move.code)) := by
  apply bind_map_comm (lastKey_none_relocate naming path)
  intro key
  rw [partLabel_relocate]
  rfl

theorem ofPath_relocate (naming : Naming) : ∀ path : List Str,
    (naming.relocate move).ofPath path =
      (naming.ofPath path).map (Option.map (Label.relocate move.code))
  | [] => rfl
  | [last] => by
      rw [ofPath, ofPath]
      split
      · exact bind_map_comm (ownerLabel_relocate rfl) (labelAt_relocate naming [last] last)
      · exact labelAt_relocate naming [last] last none
  | last :: keyword :: outer => by
      rw [ofPath, ofPath]
      split
      · apply bind_map_comm (lastKey_none_relocate naming _)
        intro key
        cases key with
        | none => rfl
        | some key => rw [Option.map_some, Option.map_some, Key.label_relocate]; rfl
      · dsimp only
        split
        · exact bind_map_comm (ownerLabel_relocate (ofPath_relocate naming (keyword :: outer)))
            (labelAt_relocate naming _ last)
        · exact bind_map_comm (ownerLabel_relocate (ofPath_relocate naming outer))
            (labelAt_relocate naming _ last)

theorem ofSegments_relocate (naming : Naming) (segments : List Str) :
    (naming.relocate move).ofSegments segments =
      (naming.ofSegments segments).map (Option.map (Label.relocate move.code)) := by
  unfold ofSegments
  apply bind_map_comm (resolveSegments_relocate naming.document segments)
  intro found
  cases found with
  | none => rfl
  | some owner =>
      simp only [Option.map_some, View.node_relocate, titleLabel?_relocate]
      cases titleLabel? owner.node with
      | none => exact ofPath_relocate naming _
      | some title => rfl

theorem ofForeignPath_relocate (naming : Naming) (first : Str) (path : List Str) :
    (naming.relocate move).ofForeignPath first path =
      (naming.ofForeignPath first path).map (Option.map (Label.relocate move.code)) := by
  have hlabel : ∀ (last : Str) (owner : Option Label),
      (pure (some (partLabel (owner.map (Label.relocate move.code)) none last)) :
        Except Failure (Option Label)) =
      (pure (some (partLabel owner none last)) : Except Failure (Option Label)).map
        (Option.map (Label.relocate move.code)) := by
    intro last owner
    rw [← Option.map_none, partLabel_relocate]
    rfl
  match path with
  | [] => rfl
  | [last] =>
      rw [ofForeignPath, ofForeignPath]
      split
      · exact bind_map_comm (ofSegments_relocate naming [first]) (hlabel last)
      · exact hlabel last none
  | last :: keyword :: outer =>
      rw [ofForeignPath, ofForeignPath]
      split
      · rfl
      · exact bind_map_comm (ofSegments_relocate naming _) (hlabel last)

theorem infer_relocate (naming : Naming) (view : View) :
    (naming.relocate move).infer (view.relocate move) =
      (naming.infer view).map (Option.map (Label.relocate move.code)) := by
  simp only [infer, View.node_relocate, titleLabel?_relocate]
  cases titleLabel? view.node with
  | some title => rfl
  | none =>
      simp only [Option.map_none, View.pointer_relocate, ofPointer]
      split
      · rfl
      · split
        · exact ofPath_relocate naming _
        · exact ofForeignPath_relocate naming _ _

end Naming

/-! ### Rules -/

namespace View

@[simp] theorem scalarUnder?_relocate (view : View) (key : Str) :
    (view.relocate move).scalarUnder? key = view.scalarUnder? key := by
  rw [scalarUnder?, child?_relocate, scalarUnder?]
  cases view.child? key with
  | none => rfl
  | some found => exact found.scalar?_relocate

@[simp] theorem numberUnder?_relocate (view : View) (key : Str) :
    (view.relocate move).numberUnder? key = view.numberUnder? key := by
  simp [numberUnder?]

@[simp] theorem textUnder?_relocate (view : View) (key : Str) :
    (view.relocate move).textUnder? key = view.textUnder? key := by
  simp [textUnder?]

@[simp] theorem ruleUnder_relocate (view : View) (key : Str) (constraint : Constraint) :
    (view.relocate move).ruleUnder key constraint =
      (view.ruleUnder key constraint).relocate move.code := by
  simp [ruleUnder, Rule.relocate]

theorem numberRule?_relocate (view : View) (key : Str) (constraint : Number → Constraint) :
    (view.relocate move).numberRule? key constraint =
      (view.numberRule? key constraint).map (Rule.relocate move.code) := by
  simp [numberRule?, Function.comp_def]

theorem textRule?_relocate (view : View) (key : Str) (constraint : Str → Constraint) :
    (view.relocate move).textRule? key constraint =
      (view.textRule? key constraint).map (Rule.relocate move.code) := by
  simp [textRule?, Function.comp_def]

theorem enumRule?_relocate (view : View) :
    (view.relocate move).enumRule? = view.enumRule?.map (Rule.relocate move.code) := by
  simp only [enumRule?, enum?, children?_relocate]
  cases view.children? "enum" with
  | none => rfl
  | some members =>
      simp only [Option.map_some, List.filterMap_map, Function.comp_def, string?_relocate]
      split <;> simp

theorem boundRule?_relocate (view : View) (key exclusiveKey : Str)
    (tighter : Number → Number → Bool) (strict lax : Number → Constraint) :
    (view.relocate move).boundRule? key exclusiveKey tighter strict lax =
      (view.boundRule? key exclusiveKey tighter strict lax).map (Rule.relocate move.code) := by
  simp only [boundRule?, numberUnder?_relocate, scalarUnder?_relocate, ruleUnder_relocate]
  cases ((view.scalarUnder? exclusiveKey).bind Scalar.number?).filter fun number =>
      (view.numberUnder? key).all (tighter number) with
  | some number => rfl
  | none => simp [Function.comp_def]

@[simp] theorem hasFamily_relocate (view : View) (family : Family) :
    (view.relocate move).hasFamily family = view.hasFamily family := by
  cases family with
  | strings | numbers | arrays | objects => simp [hasFamily]

end View

namespace Facet

theorem read?_relocate (view : View) (facet : Facet) :
    read? (view.relocate move) facet = (read? view facet).map (Rule.relocate move.code) := by
  cases facet with
  | maxLength | minLength | multipleOf | minItems | maxItems | minProperties | maxProperties =>
      exact view.numberRule?_relocate _ _
  | pattern | format => exact view.textRule?_relocate _ _
  | enumeration => exact view.enumRule?_relocate
  | lowerBound | upperBound => exact view.boundRule?_relocate _ _ _ _ _
  | uniqueItems =>
      simp only [read?, View.scalarUnder?_relocate]
      split <;> simp
  | additionalProperties => rfl

theorem rule?_relocate (facet : Facet) (view : View) :
    facet.rule? (view.relocate move) =
      (facet.rule? view).map (Option.map (Rule.relocate move.code)) := by
  unfold rule?
  split
  · rfl
  · rw [View.hasFamily_relocate]
    cases view.hasFamily facet.family with
    | error failure => rfl
    | ok applies => cases applies with
      | true => exact congrArg Except.ok (read?_relocate view facet)
      | false => rfl

theorem rules_relocate (view : View) (facets : List Facet) :
    rules (view.relocate move) facets =
      (rules view facets).map (List.map (Rule.relocate move.code)) := by
  induction facets with
  | nil => rfl
  | cons facet rest ih =>
      rw [rules, rules]
      apply bind_map_comm (facet.rule?_relocate view)
      intro rule
      apply bind_map_comm ih
      intro others
      cases rule with
      | none | some => rfl

end Facet

namespace View

theorem valueRules_relocate (view : View) :
    (view.relocate move).valueRules =
      view.valueRules.map (List.map (Rule.relocate move.code)) :=
  Facet.rules_relocate view _

theorem objectRules_relocate (view : View) :
    (view.relocate move).objectRules =
      view.objectRules.map (List.map (Rule.relocate move.code)) :=
  Facet.rules_relocate view _

end View

end Schema

end Schemata
