import Mathlib.Logic.Equiv.Fintype
import Schemata.Analysis.Convert

/-!
# Relocation

The same document can be written in different layouts, which differ in nothing but the
positions of its parts. A relocation takes the positions of one layout to those of another,
and the written ranges along. It keeps apart what it finds apart: different ranges do not
become the same.
-/

namespace Schemata.Text

theorem isDigit_of_mem_toDigits {n : Nat} {c : Char} (hc : c ∈ Nat.toDigits 10 n) :
    c.isDigit = true :=
  Nat.isDigit_of_mem_toDigits (by decide) (by decide) hc

theorem integer_injective : Function.Injective integer := by
  have hdigits : Function.Injective (Nat.toDigits 10) :=
    Function.LeftInverse.injective (g := fun digits => Nat.ofDigitChars 10 digits 0)
      fun _ => Nat.ofDigitChars_ten_toDigits
  have hsign : ∀ {n : Nat} {rest : List Char}, Nat.toDigits 10 n ≠ '-' :: rest := by
    intro n rest heq
    have hminus : '-' ∈ Nat.toDigits 10 n := heq ▸ List.mem_cons_self
    exact absurd (isDigit_of_mem_toDigits hminus) (by decide)
  intro first second heq
  cases first with
  | ofNat n =>
      cases second with
      | ofNat m => rw [hdigits heq]
      | negSucc m => exact absurd heq hsign
  | negSucc n =>
      cases second with
      | ofNat m => exact absurd heq.symm hsign
      | negSucc m =>
          have htail := hdigits (List.cons.inj heq).2
          rw [Nat.succ.inj htail]

theorem semicolon_notMem_integer (n : Int) : ';' ∉ integer n := by
  have hdigits : ∀ n : Nat, ';' ∉ Nat.toDigits 10 n :=
    fun n hmem => absurd (isDigit_of_mem_toDigits hmem) (by decide)
  cases n with
  | ofNat n => exact hdigits n
  | negSucc n =>
      intro hmem
      rcases List.mem_cons.mp hmem with heq | hmem
      · exact absurd heq (by decide)
      · exact hdigits _ hmem

end Schemata.Text

namespace Schemata.Source

/-- The fields of a written location are what stands between its semicolons. -/
theorem Location.splitOn_code (location : Location) :
    location.code.toList.splitOn ';' = location.fields.map Text.integer := by
  rw [code, String.toList_ofList, List.splitOn_intercalate]
  · intro field hfield
    obtain ⟨n, -, rfl⟩ := List.mem_map.mp hfield
    exact Text.semicolon_notMem_integer n
  · simp [fields]

/-- A written location says what the location is. -/
theorem Location.code_injective : Function.Injective Location.code := by
  intro location other heq
  have hfields : location.fields = other.fields := by
    apply Text.integer_injective.list_map
    rw [← splitOn_code, ← splitOn_code, heq]
  have hfound := congrArg Location.ofFields? hfields
  simpa using hfound

theorem Range.code_injective : Function.Injective Range.code := by
  intro range other heq
  exact congrArg Location.range (Location.code_injective heq)

end Schemata.Source

namespace Schemata

open Source

/-- How positions and written ranges of one layout are those of another. -/
structure Relocation where
  position : Position → Position
  code : LocationCode → LocationCode
  injective : Function.Injective code
  code_range : ∀ range : Range,
    code range.code = Range.code ⟨position range.first, position range.last⟩

namespace Relocation

/-- The relocation that leaves everything in its place. -/
def stay : Relocation :=
  ⟨id, id, Function.injective_id, fun _ => rfl⟩

/-- A permutation of positions moves ranges. -/
def permuteRange (permutation : Equiv.Perm Position) : Equiv.Perm Range where
  toFun range := ⟨permutation range.first, permutation range.last⟩
  invFun range := ⟨permutation.symm range.first, permutation.symm range.last⟩
  left_inv range := by simp
  right_inv range := by simp

/-- Every permutation of positions is that of a relocation. Texts that write no range stay. -/
theorem exists_of_perm (permutation : Equiv.Perm Position) :
    ∃ move : Relocation, move.position = permutation := by
  classical
  let written := Equiv.ofInjective Range.code Range.code_injective
  let code := (permuteRange permutation).extendDomain written
  refine ⟨⟨permutation, code, code.injective, fun range => ?_⟩, rfl⟩
  exact Equiv.Perm.extendDomain_apply_image (permuteRange permutation) written range

end Relocation

/-! ### Documents -/

def Source.Range.relocate (move : Relocation) (range : Range) : Range :=
  ⟨move.position range.first, move.position range.last⟩

namespace Json

/-- A key in another layout. How it is written there is left open. -/
def Key.relocate (move : Relocation) (key : Key) : Key :=
  ⟨key.name, "", key.range.relocate move⟩

mutual

/-- A value in another layout. How its scalars are written there is left open. -/
def Node.relocate (move : Relocation) : Node → Node
  | .object range members => .object (range.relocate move) (relocateMembers move members)
  | .array range items => .array (range.relocate move) (relocateItems move items)
  | .scalar range value _ => .scalar (range.relocate move) value ""

def relocateMembers (move : Relocation) : List (Member Node) → List (Member Node)
  | [] => []
  | ⟨key, value⟩ :: rest =>
      ⟨key.relocate move, value.relocate move⟩ :: relocateMembers move rest

def relocateItems (move : Relocation) : List Node → List Node
  | [] => []
  | item :: rest => item.relocate move :: relocateItems move rest

end

end Json

/-! ### Results -/

section Results

variable (change : LocationCode → LocationCode)

def Label.relocate (label : Label) : Label :=
  ⟨label.value, label.loc.map change⟩

@[simp] theorem Label.value_relocate (label : Label) :
    (label.relocate change).value = label.value :=
  rfl

def Constant.relocate (constant : Constant) : Constant :=
  ⟨constant.value, constant.loc.map change⟩

def Rule.relocate (rule : Rule) : Rule :=
  ⟨rule.constraint, rule.loc.map change⟩

def Content.relocate : Content → Content
  | primitive type loc constant =>
      .primitive type (loc.map change) (constant.map (Constant.relocate change))
  | named name => .named (name.relocate change)

def ValueType.relocate (type : ValueType) : ValueType :=
  ⟨type.isArray, type.isOptional, type.rules.map (Rule.relocate change),
    type.content.relocate change⟩

/-- Paragraphs of a description. -/
def relocateParagraphs (paragraphs : Option (List Label)) : Option (List Label) :=
  paragraphs.map (List.map (Label.relocate change))

def Property.relocate (property : Property) : Property :=
  ⟨property.name.relocate change, relocateParagraphs change property.description,
    property.type.relocate change, property.loc.map change⟩

def ObjectType.relocate (type : ObjectType) : ObjectType :=
  ⟨type.name.relocate change, relocateParagraphs change type.description,
    type.properties.map (Property.relocate change), type.rules.map (Rule.relocate change),
    type.loc.map change, type.source⟩

def EnumType.relocate (type : EnumType) : EnumType :=
  ⟨type.name.relocate change, relocateParagraphs change type.description,
    type.members.map (Label.relocate change), type.loc.map change, type.source⟩

def UnionType.relocate (type : UnionType) : UnionType :=
  ⟨type.name.relocate change, type.kind, relocateParagraphs change type.description,
    type.members.map (ValueType.relocate change), type.discriminator.map (Label.relocate change),
    type.loc.map change, type.source⟩

def Violation.relocate (violation : Violation) : Violation :=
  { violation with range := violation.range.map change }

def Service.relocate (service : Service) : Service :=
  { service with
    title := service.title.relocate change
    loc := service.loc.map change
    types := service.types.map (ObjectType.relocate change)
    enums := service.enums.map (EnumType.relocate change)
    unions := service.unions.map (UnionType.relocate change) }

/-- An outcome with changed ranges. -/
def Outcome.relocate (outcome : Outcome) : Outcome :=
  ⟨outcome.service.relocate change, outcome.violations.map (Violation.relocate change)⟩

end Results

/-- An outcome without its ranges: where there was one, a blank is left. -/
def Outcome.unlocated (outcome : Outcome) : Outcome :=
  outcome.relocate fun _ => ""

section Twice

variable (change further : LocationCode → LocationCode)

@[simp] theorem Label.relocate_relocate (label : Label) :
    (label.relocate change).relocate further = label.relocate (further ∘ change) := by
  simp [relocate]

@[simp] theorem Constant.relocate_relocate (constant : Constant) :
    (constant.relocate change).relocate further = constant.relocate (further ∘ change) := by
  simp [relocate]

@[simp] theorem Rule.relocate_relocate (rule : Rule) :
    (rule.relocate change).relocate further = rule.relocate (further ∘ change) := by
  simp [relocate]

@[simp] theorem Content.relocate_relocate (content : Content) :
    (content.relocate change).relocate further = content.relocate (further ∘ change) := by
  cases content with
  | primitive => simp [relocate, Function.comp_def]
  | named => simp [relocate]

@[simp] theorem ValueType.relocate_relocate (type : ValueType) :
    (type.relocate change).relocate further = type.relocate (further ∘ change) := by
  simp [relocate, Function.comp_def]

@[simp] theorem relocateParagraphs_twice (paragraphs : Option (List Label)) :
    relocateParagraphs further (relocateParagraphs change paragraphs) =
      relocateParagraphs (further ∘ change) paragraphs := by
  simp [relocateParagraphs, Function.comp_def]

@[simp] theorem Property.relocate_relocate (property : Property) :
    (property.relocate change).relocate further = property.relocate (further ∘ change) := by
  simp [relocate]

@[simp] theorem ObjectType.relocate_relocate (type : ObjectType) :
    (type.relocate change).relocate further = type.relocate (further ∘ change) := by
  simp [relocate, Function.comp_def]

@[simp] theorem EnumType.relocate_relocate (type : EnumType) :
    (type.relocate change).relocate further = type.relocate (further ∘ change) := by
  simp [relocate, Function.comp_def]

@[simp] theorem UnionType.relocate_relocate (type : UnionType) :
    (type.relocate change).relocate further = type.relocate (further ∘ change) := by
  simp [relocate, Function.comp_def]

@[simp] theorem Violation.relocate_relocate (violation : Violation) :
    (violation.relocate change).relocate further = violation.relocate (further ∘ change) := by
  simp [relocate]

theorem Outcome.relocate_relocate (outcome : Outcome) :
    (outcome.relocate change).relocate further = outcome.relocate (further ∘ change) := by
  simp [relocate, Service.relocate, Function.comp_def]

/-- A changed range leaves the same blank. -/
theorem Outcome.unlocated_relocate (outcome : Outcome) :
    (outcome.relocate change).unlocated = outcome.unlocated :=
  outcome.relocate_relocate change _

end Twice

end Schemata
