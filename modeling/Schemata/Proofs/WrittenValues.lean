import Schemata.Json.Value
import Schemata.Proofs.DecimalTexts
import Schemata.Proofs.Parsing
import Schemata.Proofs.Surrogates

/-!
# Values as they are written

A written value is a JSON text of that value, whatever the depth of its lines. Strings are written
in ASCII characters that stand for the characters of the string, those above U+FFFF as pairs of
surrogates, so no string is to hold such a pair. Numbers are to be finite and to have texts that
are read as them.
-/

namespace Schemata.Json

open Grammar Source

/-! ### Strings -/

theorem hexDigit?_digitChar : ∀ digit < 16, Text.hexDigit? (Nat.digitChar digit) = some digit := by
  decide

/-- A digit more of a number that is filled with zeros. -/
theorem hex_succ {width n : Nat} (hwidth : 0 < width) :
    Text.hex (width + 1) n = Text.hex width (n / 16) ++ [Nat.digitChar (n % 16)] := by
  by_cases hn : n < 16
  · have hzero : n / 16 = 0 := Nat.div_eq_of_lt hn
    obtain ⟨width, rfl⟩ := Nat.exists_eq_succ_of_ne_zero hwidth.ne'
    rw [Text.hex, Text.hex, hzero, Nat.toDigits_of_lt_base hn, Nat.mod_eq_of_lt hn]
    simp [List.leftpad, List.replicate_succ', Nat.toDigits_of_lt_base]
  · have hdigits : Nat.toDigits 16 n = Nat.toDigits 16 (n / 16) ++ [Nat.digitChar (n % 16)] := by
      rw [Nat.toDigits_eq_if (by decide), if_neg hn]
    rw [Text.hex, Text.hex, hdigits]
    simp [List.leftpad]

theorem hex_four {unit : Nat} (h : unit < 0x10000) :
    Text.hex 4 unit = [Nat.digitChar (unit / 16 / 16 / 16), Nat.digitChar (unit / 16 / 16 % 16),
      Nat.digitChar (unit / 16 % 16), Nat.digitChar (unit % 16)] := by
  have hfirst : Text.hex 1 (unit / 16 / 16 / 16) = [Nat.digitChar (unit / 16 / 16 / 16)] := by
    rw [Text.hex, Nat.toDigits_of_lt_base (by omega)]
    rfl
  rw [hex_succ (by decide), hex_succ (by decide), hex_succ (by decide), hfirst]
  rfl

/-- A unit that is written by its number is a character or a surrogate. -/
theorem units_numberedEscape {unit : Nat} {text : List Char} {units : Str}
    (h : unit < 0x10000) (htext : Units text units) :
    Units (numberedEscape unit ++ text) (.ofNat unit :: units) := by
  have hdigit (n : Nat) : Text.hexDigit? (Nat.digitChar (n % 16)) = some (n % 16) :=
    hexDigit?_digitChar _ (Nat.mod_lt n (by decide))
  have hfirst := hexDigit?_digitChar (unit / 16 / 16 / 16) (by omega)
  rw [numberedEscape, hex_four h]
  refine .numbered ?_ htext
  simp only [Text.hexQuad?, hdigit, hfirst, Option.bind_eq_bind, Option.bind_some]
  exact congrArg some (by omega)

theorem ofNat_toNat (c : Char) : CodePoint.ofNat c.toNat = .char c := by
  have hvalid : c.toNat < 0xD800 ∨ 0xDFFF < c.toNat ∧ c.toNat < 0x110000 := c.valid
  rw [CodePoint.ofNat, dif_neg (by omega), Char.ofNat_toNat]

theorem ofNat_surrogate (index : Fin 0x800) :
    CodePoint.ofNat (0xD800 + index) = .surrogate index := by
  have hbounds : 0xD800 ≤ 0xD800 + index.val ∧ 0xD800 + index.val < 0xE000 := by omega
  rw [CodePoint.ofNat, dif_pos hbounds]
  exact congrArg CodePoint.surrogate (Fin.ext (Nat.add_sub_cancel_left ..))

theorem units_surrogate {text : List Char} {units : Str} (index : Fin 0x800)
    (htext : Units text units) :
    Units (numberedEscape (0xD800 + index) ++ text) (.surrogate index :: units) := by
  have hunits : Units _ (.ofNat (0xD800 + index) :: units) :=
    units_numberedEscape (by omega) htext
  rwa [ofNat_surrogate] at hunits

/-- A character above U+FFFF is written as two surrogates, which join to it. -/
theorem characters_pair {body : List Char} {units text : Str} {c : Char}
    (hgreat : 0x10000 ≤ c.toNat) (hunits : Units body units) (hjoined : Joined units text) :
    Characters (numberedEscape (0xD800 + (c.toNat - 0x10000) / 0x400) ++
      numberedEscape (0xDC00 + (c.toNat - 0x10000) % 0x400) ++ body) (.char c :: text) := by
  have hbound : c.toNat < 0x110000 := by
    have hvalid : c.toNat < 0xD800 ∨ 0xDFFF < c.toNat ∧ c.toNat < 0x110000 := c.valid
    omega
  let high : Fin 0x800 := ⟨(c.toNat - 0x10000) / 0x400, by omega⟩
  let low : Fin 0x800 := ⟨0x400 + (c.toNat - 0x10000) % 0x400, by omega⟩
  have hhigh : high.val < 0x400 := by
    simp only [high]
    omega
  have hlow : 0x400 ≤ low.val := Nat.le_add_right _ _
  have hpair : 0x10000 + high.val * 0x400 + (low.val - 0x400) = c.toNat := by
    simp only [high, low]
    omega
  have hjoin := Joined.pair hhigh hlow hjoined
  rw [hpair, Char.ofNat_toNat] at hjoin
  have hwritten := units_surrogate high (units_surrogate low hunits)
  rw [← List.append_assoc] at hwritten
  have hnumber : 0xDC00 + (c.toNat - 0x10000) % 0x400 = 0xD800 + low.val := by
    simp only [low]
    omega
  rw [hnumber]
  exact ⟨_, hwritten, hjoin⟩

/-- A character in front of a text is written as units that join to it. -/
theorem characters_escapeChar {body : List Char} {text : Str} (c : Char)
    (h : Characters body text) : Characters (escapeChar c ++ body) (.char c :: text) := by
  obtain ⟨units, hunits, hjoined⟩ := h
  have hnamed {letter : Char} (hletter : namedEscape? letter = some c) :
      Characters (['\\', letter] ++ body) (.char c :: text) :=
    ⟨_, .named hletter hunits, .char hjoined⟩
  unfold escapeChar
  split
  next hquote =>
    simp only [Bool.or_eq_true, decide_eq_true_eq] at hquote
    rcases hquote with rfl | rfl
    · exact hnamed rfl
    · exact hnamed rfl
  next hquote =>
    simp only [Bool.or_eq_true, decide_eq_true_eq, not_or] at hquote
    split
    next hc => exact hnamed (hc ▸ rfl)
    split
    next hc => exact hnamed (hc ▸ rfl)
    split
    next hc => exact hnamed (hc ▸ rfl)
    split
    next hc => exact hnamed (hc ▸ rfl)
    split
    next hc => exact hnamed (hc ▸ rfl)
    split
    next hplain =>
      simp only [Bool.and_eq_true, decide_eq_true_eq] at hplain
      exact ⟨_, .plain hplain.1 hquote.1 hquote.2 hunits, .char hjoined⟩
    split
    next hsmall =>
      exact ⟨_, units_numberedEscape hsmall hunits, ofNat_toNat c ▸ .char hjoined⟩
    next hgreat => exact characters_pair (Nat.le_of_not_lt hgreat) hunits hjoined

/-- The first unit of a string stays its first code point, unless it makes a character with the
next one. -/
theorem Grammar.Joined.head? {units text : Str} (h : Joined units text) :
    ∀ next ∈ units.head?, next ∈ text.head? ∨ ∀ c, pairOf? c next = none := by
  cases h with
  | nil => simp
  | char | unpaired => simp
  | @pair high low units text hhigh =>
      rintro next ⟨⟩
      refine .inr fun c => ?_
      cases c with
      | char => rfl
      | surrogate => exact if_neg fun hpair => Nat.not_le.mpr hhigh hpair.2

/-- A surrogate is written by its number. It makes no character with what follows. -/
theorem characters_surrogate {body : List Char} {text : Str} {index : Fin 0x800}
    (hfree : Str.PairFree (.surrogate index :: text)) (h : Characters body text) :
    Characters (numberedEscape (0xD800 + index) ++ body) (.surrogate index :: text) := by
  obtain ⟨units, hunits, hjoined⟩ := h
  refine ⟨_, units_surrogate index hunits, hjoined.alone fun next hnext => ?_⟩
  rcases hjoined.head? next hnext with hhead | hnone
  · exact (Str.pairFree_cons.mp hfree).1 next hhead
  · exact hnone _

theorem characters_escape {text : Str} (h : text.PairFree) :
    Characters (text.flatMap escapeCodePoint) text := by
  induction text with
  | nil => exact ⟨[], .nil, .nil⟩
  | cons c text ih =>
      have hrest := ih (Str.pairFree_cons.mp h).2
      rw [List.flatMap_cons]
      cases c with
      | char c => exact characters_escapeChar c hrest
      | surrogate index => exact characters_surrogate h hrest

/-! ### Parts without parts -/

mutual

/-- The parts of a value that have no parts, in order. The name of a member is one of them. -/
def Value.leaves : Value → List Value
  | .scalar value => [.scalar value]
  | .nan => [.nan]
  | .array items => itemLeaves items
  | .object members => memberLeaves members

def itemLeaves : List Value → List Value
  | [] => []
  | item :: rest => item.leaves ++ itemLeaves rest

def memberLeaves : List (Str × Value) → List Value
  | [] => []
  | (name, value) :: rest => .string name :: value.leaves ++ memberLeaves rest

end

/-- All parts of a value that have no parts are as given. -/
def Value.Every (given : Value → Prop) (value : Value) : Prop :=
  ∀ leaf ∈ value.leaves, given leaf

/-- All parts of some values that have no parts are as given. -/
def EveryItem (given : Value → Prop) (items : List Value) : Prop :=
  ∀ leaf ∈ itemLeaves items, given leaf

/-- The names of some members and all parts of their values are as given. -/
def EveryMember (given : Value → Prop) (members : List (Str × Value)) : Prop :=
  ∀ leaf ∈ memberLeaves members, given leaf

section Every

variable {given : Value → Prop} {value : Value}

@[simp] theorem every_scalar {value : Scalar} :
    (Value.scalar value).Every given ↔ given (.scalar value) :=
  List.forall_mem_singleton

@[simp] theorem every_nan : Value.nan.Every given ↔ given .nan :=
  List.forall_mem_singleton

@[simp] theorem everyItem_nil : EveryItem given [] :=
  List.forall_mem_nil _

@[simp] theorem everyItem_cons {rest : List Value} :
    EveryItem given (value :: rest) ↔ value.Every given ∧ EveryItem given rest :=
  List.forall_mem_append

@[simp] theorem everyMember_nil : EveryMember given [] :=
  List.forall_mem_nil _

@[simp] theorem everyMember_cons {name : Str} {rest : List (Str × Value)} :
    EveryMember given ((name, value) :: rest) ↔
      given (.string name) ∧ value.Every given ∧ EveryMember given rest := by
  simp only [EveryMember, memberLeaves, List.cons_append, List.forall_mem_cons,
    List.forall_mem_append]
  rfl

theorem everyItem_iff {items : List Value} :
    EveryItem given items ↔ ∀ item ∈ items, item.Every given := by
  induction items with
  | nil => simp
  | cons item items ih => simp [ih]

theorem everyMember_iff {members : List (Str × Value)} :
    EveryMember given members ↔
      ∀ member ∈ members, given (.string member.1) ∧ member.2.Every given := by
  induction members with
  | nil => simp
  | cons member members ih =>
      obtain ⟨name, value⟩ := member
      rw [everyMember_cons, ih, List.forall_mem_cons, and_assoc]

@[simp] theorem every_array {items : List Value} :
    (Value.array items).Every given ↔ ∀ item ∈ items, item.Every given :=
  everyItem_iff

@[simp] theorem every_object {members : List (Str × Value)} :
    (Value.object members).Every given ↔
      ∀ member ∈ members, given (.string member.1) ∧ member.2.Every given :=
  everyMember_iff

end Every

/-- A part without parts that can be read: a number has some text, and no string holds a pair of
surrogates. -/
def Value.Readable (limit : Nat) : Value → Prop
  | .scalar (.number number) => HasText limit number
  | .scalar (.string text) => text.PairFree
  | _ => True

/-- All parts of a value can be read. -/
def Value.AllReadable (limit : Nat) (value : Value) : Prop :=
  value.Every (Value.Readable limit)

section AllReadable

variable {limit : Nat}

@[simp] theorem allReadable_string {text : Str} :
    (Value.string text).AllReadable limit ↔ text.PairFree :=
  every_scalar

@[simp] theorem allReadable_bool (value : Bool) : (Value.bool value).AllReadable limit :=
  every_scalar.mpr trivial

@[simp] theorem allReadable_number {number : Number} :
    (Value.number number).AllReadable limit ↔ HasText limit number :=
  every_scalar

theorem allReadable_array {items : List Value} :
    (Value.array items).AllReadable limit ↔ ∀ item ∈ items, item.AllReadable limit :=
  every_array

theorem allReadable_object {members : List (Str × Value)} :
    (Value.object members).AllReadable limit ↔
      ∀ member ∈ members, member.1.PairFree ∧ member.2.AllReadable limit :=
  every_object

end AllReadable

/-- Whether a part without parts is neither an infinite number nor the value that is no number. -/
def Value.isFinite : Value → Bool
  | .nan | .scalar (.number (.float (.infinite _))) => false
  | _ => true

/-! ### Values -/

/-- A piece of text is written for a value, wherever it starts. -/
def WritesValue (limit : Nat) (text : List Char) (value : Value) : Prop :=
  ∀ position, ∃ node, Written limit position text (.value node) ∧ node.value = value

/-- A piece of text is written for the items that follow the first one of their array. -/
def WritesItems (limit : Nat) (text : List Char) (items : List Value) : Prop :=
  ∀ position, ∃ nodes, Written limit position text (.items nodes) ∧ itemValues nodes = items

def WritesMember (limit : Nat) (text : List Char) (name : Str) (value : Value) : Prop :=
  ∀ position, ∃ member : Member Node, Written limit position text (.member member) ∧
    (member.key.name, member.value.value) = (name, value)

/-- A piece of text is written for the members that follow the first one of their object. -/
def WritesMembers (limit : Nat) (text : List Char) (members : List (Str × Value)) : Prop :=
  ∀ position, ∃ nodes, Written limit position text (.members nodes) ∧
    memberValues nodes = members

section Writes

variable {limit : Nat} {text rest blank : List Char} {name : Str} {value : Value}
  {items : List Value} {members : List (Str × Value)}

theorem writes_scalar {value : Scalar} (h : IsScalar limit text value) :
    WritesValue limit text (.scalar value) := fun _ =>
  ⟨_, .scalar h, rfl⟩

theorem writes_emptyArray : WritesValue limit ['[', ']'] (.array []) := fun _ =>
  ⟨_, .emptyArray blank_nil, rfl⟩

theorem writes_array (hblank : Blank blank) (hfirst : WritesValue limit text value)
    (hrest : WritesItems limit rest items) :
    WritesValue limit ('[' :: blank ++ text ++ rest) (.array (value :: items)) := by
  intro position
  obtain ⟨first, hwritten, rfl⟩ := hfirst (position.past ('[' :: blank))
  obtain ⟨others, hothers, rfl⟩ := hrest (position.past ('[' :: blank ++ text))
  exact ⟨_, .array hblank hwritten hothers, rfl⟩

theorem writes_nextItem (hblank : Blank blank) (hnext : WritesValue limit text value)
    (hrest : WritesItems limit rest items) :
    WritesItems limit (',' :: blank ++ text ++ rest) (value :: items) := by
  intro position
  obtain ⟨next, hwritten, rfl⟩ := hnext (position.past (',' :: blank))
  obtain ⟨others, hothers, rfl⟩ := hrest (position.past (',' :: blank ++ text))
  exact ⟨next :: others, .nextItem blank_nil hblank hwritten hothers, rfl⟩

theorem writes_member (hname : name.PairFree) (hvalue : WritesValue limit text value) :
    WritesMember limit (escape name ++ ':' :: ' ' :: text) name value := by
  intro position
  have hafter : Blank [' '] := by simp [Blank]
  obtain ⟨node, hnode, rfl⟩ := hvalue (position.past (escape name ++ [] ++ ':' :: [' ']))
  have hmember := Written.member (characters_escape hname) blank_nil hafter hnode
  refine ⟨⟨keyAt position (name.flatMap escapeCodePoint) name, node⟩, ?_, rfl⟩
  simpa [escape, inQuotes] using hmember

theorem writes_emptyObject : WritesValue limit ['\x7b', '\x7d'] (.object []) := fun _ =>
  ⟨_, .emptyObject blank_nil, rfl⟩

theorem writes_object (hblank : Blank blank) (hfirst : WritesMember limit text name value)
    (hrest : WritesMembers limit rest members) :
    WritesValue limit ('\x7b' :: blank ++ text ++ rest) (.object ((name, value) :: members)) := by
  intro position
  obtain ⟨first, hwritten, hmember⟩ := hfirst (position.past ('\x7b' :: blank))
  obtain ⟨others, hothers, rfl⟩ := hrest (position.past ('\x7b' :: blank ++ text))
  refine ⟨_, .object hblank hwritten hothers, ?_⟩
  rw [← hmember]
  rfl

theorem writes_nextMember (hblank : Blank blank) (hnext : WritesMember limit text name value)
    (hrest : WritesMembers limit rest members) :
    WritesMembers limit (',' :: blank ++ text ++ rest) ((name, value) :: members) := by
  intro position
  obtain ⟨next, hwritten, hmember⟩ := hnext (position.past (',' :: blank))
  obtain ⟨others, hothers, rfl⟩ := hrest (position.past (',' :: blank ++ text))
  refine ⟨next :: others, .nextMember blank_nil hblank hwritten hothers, ?_⟩
  rw [← hmember]
  rfl

end Writes

theorem blank_newline (depth : Nat) : Blank (newline depth).toList := by
  intro c hc
  simp only [newline, String.toList_append, String.toList_ofList, List.mem_append,
    List.mem_replicate] at hc
  rcases hc with hline | ⟨-, rfl⟩
  · exact .inr (.inr (.inl (List.mem_singleton.mp hline)))
  · exact .inl rfl

section Values

variable {limit : Nat}

/-- A scalar that can be read is read from its text, if it is finite. -/
theorem isScalar_write {value : Scalar} (hlimit : 0 < limit)
    (h : (Value.scalar value).Readable limit) (hfinite : (Value.scalar value).isFinite = true) :
    IsScalar limit value.write.toList value := by
  cases value with
  | null => exact .null
  | bool value =>
      cases value with
      | false => exact .false
      | true => exact .true
  | number number =>
      refine .number (isNumber_textWith h hlimit ?_ _)
      rintro negative rfl
      cases hfinite
  | string text =>
      have hstring : IsScalar limit (inQuotes (text.flatMap escapeCodePoint)) (.string text) :=
        .string (characters_escape h)
      simpa [Scalar.write, escape, inQuotes] using hstring

/-- A part of a value that is written as it can be read. -/
abbrev Value.Spelt (limit : Nat) (leaf : Value) : Prop :=
  leaf.Readable limit ∧ leaf.isFinite = true

mutual

/-- A value is written as a text of the grammar for it, at any depth. -/
theorem writes_value (value : Value) (hlimit : 0 < limit) (h : value.Every (Value.Spelt limit))
    (depth : Nat) : WritesValue limit (value.writeAt depth).toList value := by
  match value with
  | .scalar value =>
      obtain ⟨hreadable, hfinite⟩ := every_scalar.mp h
      exact writes_scalar (isScalar_write hlimit hreadable hfinite)
  | .nan => exact absurd (every_nan.mp h).2 Bool.false_ne_true
  | .array [] => simpa [Value.writeAt] using writes_emptyArray
  | .array (first :: rest) =>
      obtain ⟨hvalue, hothers⟩ := everyItem_cons.mp h
      have hfirst := writes_value first hlimit hvalue (depth + 1)
      have hrest := writes_items rest hlimit hothers depth
      simpa [Value.writeAt] using writes_array (blank_newline (depth + 1)) hfirst hrest
  | .object [] => simpa [Value.writeAt] using writes_emptyObject
  | .object ((name, first) :: rest) =>
      obtain ⟨⟨hname, -⟩, hvalue, hothers⟩ := everyMember_cons.mp h
      have hfirst := writes_value first hlimit hvalue (depth + 1)
      have hrest := writes_members rest hlimit hothers depth
      simpa [Value.writeAt, Scalar.write] using
        writes_object (blank_newline (depth + 1)) (writes_member hname hfirst) hrest

theorem writes_items (items : List Value) (hlimit : 0 < limit)
    (h : EveryItem (Value.Spelt limit) items) (depth : Nat) :
    WritesItems limit
      ((writeItems (depth + 1) items).toList ++ (newline depth).toList ++ [']']) items := by
  match items with
  | [] => exact fun _ => ⟨[], .lastItem (blank_newline depth), rfl⟩
  | item :: rest =>
      obtain ⟨hvalue, hothers⟩ := everyItem_cons.mp h
      have hitem := writes_value item hlimit hvalue (depth + 1)
      have hrest := writes_items rest hlimit hothers depth
      simpa [writeItems] using writes_nextItem (blank_newline (depth + 1)) hitem hrest

theorem writes_members (members : List (Str × Value)) (hlimit : 0 < limit)
    (h : EveryMember (Value.Spelt limit) members) (depth : Nat) :
    WritesMembers limit
      ((writeMembers (depth + 1) members).toList ++ (newline depth).toList ++ ['\x7d'])
      members := by
  match members with
  | [] => exact fun _ => ⟨[], .lastMember (blank_newline depth), rfl⟩
  | (name, value) :: rest =>
      obtain ⟨⟨hname, -⟩, hvalue, hothers⟩ := everyMember_cons.mp h
      have hwritten := writes_value value hlimit hvalue (depth + 1)
      have hrest := writes_members rest hlimit hothers depth
      simpa [writeMembers, Scalar.write] using
        writes_nextMember (blank_newline (depth + 1)) (writes_member hname hwritten) hrest

end

end Values

/-- A written value is read as a document of that value. -/
theorem read_write {value : Value} (h : value.Every (Value.Spelt Text.digitLimit)) :
    ∃ root, read (value.write ++ "\n") = .ok root ∧ root.value = value := by
  obtain ⟨root, hroot, hvalue⟩ := writes_value value (by decide) h 0 Position.start
  have hafter : Blank ['\n'] := by simp [Blank]
  refine ⟨root, read_of_isText ⟨[], _, _, ?_, blank_nil, hafter, hroot⟩, hvalue⟩
  rw [String.toList_append]
  rfl

end Schemata.Json
