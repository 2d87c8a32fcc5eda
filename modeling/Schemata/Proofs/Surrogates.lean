import Mathlib.Data.List.Chain
import Schemata.Proofs.PointerTexts
import Schemata.Proofs.Positions

/-!
# Pairs of surrogates

No string that is read holds a pair of surrogates, as each pair makes a character. Cutting a
string makes no pair, nor does putting strings together if a character comes between them. So
what is made from the strings of a document in these ways holds no pair either, and comes back
the same when it is written with escapes and read again.
-/

namespace Schemata

open Json

/-- No two neighbours in a string are a pair of surrogates. -/
def Str.PairFree (text : Str) : Prop :=
  text.IsChain fun c next => pairOf? c next = none

namespace Str

variable {c : CodePoint} {text more : Str}

@[simp] theorem pairFree_nil : PairFree [] :=
  .nil

theorem pairFree_cons :
    PairFree (c :: text) ↔ (∀ next ∈ text.head?, pairOf? c next = none) ∧ text.PairFree := by
  cases text with
  | nil => simp [PairFree]
  | cons next rest => simp [PairFree]

@[simp] theorem pairFree_char_cons {c : Char} : PairFree (.char c :: text) ↔ text.PairFree := by
  rw [pairFree_cons]
  exact and_iff_right fun _ _ => pairOf?_of_isChar (.inl rfl)

theorem pairFree_append : PairFree (text ++ more) ↔ text.PairFree ∧ more.PairFree ∧
    ∀ c ∈ text.getLast?, ∀ next ∈ more.head?, pairOf? c next = none :=
  List.isChain_append

@[simp] theorem pairFree_append_char_cons {c : Char} :
    PairFree (text ++ .char c :: more) ↔ text.PairFree ∧ more.PairFree := by
  rw [pairFree_append, pairFree_char_cons]
  refine and_congr_right fun _ => and_iff_left ?_
  rintro last - _ ⟨⟩
  exact pairOf?_of_isChar (.inr rfl)

@[simp] theorem pairFree_ofChars (text : List Char) : (ofChars text).PairFree := by
  induction text with
  | nil => exact pairFree_nil
  | cons c rest ih => exact pairFree_char_cons.mpr ih

@[simp] theorem pairFree_ofString (text : String) : (ofString text).PairFree :=
  pairFree_ofChars text.toList

theorem pairFree_ofChars_append {text : List Char} :
    PairFree (ofChars text ++ more) ↔ more.PairFree := by
  induction text with
  | nil => rfl
  | cons c rest ih => rwa [ofChars_cons, List.cons_append, pairFree_char_cons]

@[simp] theorem pairFree_ofString_append {text : String} :
    PairFree (ofString text ++ more) ↔ more.PairFree :=
  pairFree_ofChars_append

@[simp] theorem pairFree_append_ofString {text : Str} {more : String} :
    PairFree (text ++ ofString more) ↔ text.PairFree := by
  rw [ofString]
  cases more.toList with
  | nil => rw [ofChars_nil, List.append_nil]
  | cons c rest => simp

/-- A piece of writing comes between two strings. -/
theorem pairFree_append_ofString_append {between : String} (h : between ≠ "") :
    PairFree (text ++ (ofString between ++ more)) ↔ text.PairFree ∧ more.PairFree := by
  rw [ofString]
  cases hchars : between.toList with
  | nil => exact absurd (String.toList_eq_nil_iff.mp hchars) h
  | cons c rest =>
      rw [ofChars_cons, List.cons_append, pairFree_append_char_cons, pairFree_ofChars_append]

theorem PairFree.of_isInfix (h : text.PairFree) (hmore : more <:+: text) : more.PairFree := by
  obtain ⟨before, after, rfl⟩ := hmore
  exact (pairFree_append.mp (pairFree_append.mp h).1).2.1

/-- Strings with a character between any two. -/
theorem pairFree_intercalate {c : Char} {parts : List Str} :
    PairFree ([.char c].intercalate parts) ↔ ∀ part ∈ parts, part.PairFree := by
  induction parts with
  | nil => simp
  | cons part rest ih =>
      by_cases hrest : rest = []
      · simp [hrest]
      · rw [List.intercalate_cons_of_ne_nil hrest, List.append_assoc, List.singleton_append,
          pairFree_append_char_cons, ih, List.forall_mem_cons]

/-- A string may go on in another way, if it does so with a character. -/
theorem PairFree.cons_of_head (h : PairFree (c :: text)) (hmore : more.PairFree)
    (hhead : ∀ next ∈ more.head?, next.isChar = true ∨ next ∈ text.head?) :
    PairFree (c :: more) := by
  refine pairFree_cons.mpr ⟨fun next hnext => ?_, hmore⟩
  rcases hhead next hnext with hchar | hsame
  · exact pairOf?_of_isChar (.inr hchar)
  · exact (pairFree_cons.mp h).1 next hsame

end Str

/-! ### Strings that are read -/

theorem Json.Grammar.Joined.pairFree {units text : Str} (h : Joined units text) :
    text.PairFree ∧ ∀ next ∈ text.head?, next.isChar = true ∨ next ∈ units.head? := by
  induction h with
  | nil => simp
  | char _ ih | pair _ _ _ ih =>
      refine ⟨Str.pairFree_char_cons.mpr ih.1, ?_⟩
      simp [CodePoint.isChar, CodePoint.char?]
  | @unpaired unit units text halone _ ih =>
      refine ⟨Str.pairFree_cons.mpr ⟨fun next hnext => ?_, ih.1⟩, by simp⟩
      rcases ih.2 next hnext with hchar | hsame
      · exact pairOf?_of_isChar (.inr hchar)
      · cases next with
        | char => rfl
        | surrogate low =>
            rw [pairOf?, if_neg]
            exact fun hpair => Nat.not_lt.mpr hpair.2 (halone hpair.1 low hsame)

theorem Json.pairFree_joinPairs (units : Str) : (joinPairs units).PairFree :=
  (joined_joinPairs units).pairFree.1

theorem Json.Grammar.Characters.pairFree {body : List Char} {text : Str}
    (h : Characters body text) : text.PairFree := by
  obtain ⟨units, -, hjoined⟩ := h
  exact hjoined.pairFree.1

/-- No string of a document holds a pair, and no key does. -/
structure Json.Node.PairFree (document : Node) : Prop where
  text {node : Node} {value : Scalar} (hnode : Schema.Occurs document node)
    (hvalue : node.scalar? = some value) : value.text.PairFree
  key {node : Node} {found : Member Node} (hnode : Schema.Occurs document node)
    (hfound : found ∈ node.members) : found.key.name.PairFree

theorem Json.pairFree_of_read {text : String} {document : Node} (hread : read text = .ok document) :
    document.PairFree := by
  have hdocument := spells_of_read hread
  constructor
  · intro node value hnode hvalue
    obtain ⟨_, _, _, -, hwritten⟩ := hdocument.occurs hnode
    cases hwritten with
    | scalar hscalar =>
        obtain rfl := Option.some.inj hvalue
        cases hscalar with
        | string hbody => exact hbody.pairFree
        | null | true | false | number => exact Str.pairFree_ofString _
    | emptyArray | array | emptyObject | object => cases hvalue
  · intro node found hnode hfound
    cases node with
    | object range members =>
        obtain ⟨_, _, _, -, hwritten⟩ := (hdocument.occurs hnode).members hfound
        cases hwritten with
        | member hbody => exact hbody.pairFree
    | array | scalar => exact absurd hfound List.not_mem_nil

theorem Json.Node.PairFree.string {document node : Node} {text : Str} (h : document.PairFree)
    (hnode : Schema.Occurs document node) (htext : node.scalar?.bind Scalar.string? = some text) :
    text.PairFree := by
  obtain ⟨value, hvalue, hstring⟩ := Option.bind_eq_some_iff.mp htext
  have hfree := h.text hnode hvalue
  cases value with
  | string text =>
      obtain rfl := Option.some.inj hstring
      exact hfree
  | null | bool | number => cases hstring

/-! ### Pointers -/

namespace Pointer

variable {text : Str}

theorem head?_escape (key : Str) :
    ∀ c ∈ (escape key).head?, c.isChar = true ∨ c ∈ key.head? := by
  cases key with
  | nil => simp [escape]
  | cons c rest =>
      rw [escape, List.flatMap_cons, escapeCodePoint]
      split
      · simp [CodePoint.isChar, CodePoint.char?]
      · split <;> simp [CodePoint.isChar, CodePoint.char?]

theorem pairFree_escape (h : text.PairFree) : (escape text).PairFree := by
  induction text with
  | nil => exact Str.pairFree_nil
  | cons c rest ih =>
      have hrest := ih (Str.pairFree_cons.mp h).2
      rw [escape, List.flatMap_cons, ← escape, escapeCodePoint]
      split
      · simpa using hrest
      · split
        · simpa using hrest
        · exact h.cons_of_head hrest (head?_escape rest)

theorem head?_unescape (text : Str) :
    ∀ c ∈ (unescape text).head?, c.isChar = true ∨ c ∈ text.head? := by
  fun_cases unescape text with
  | case1 => simp
  | case2 | case3 => simp [CodePoint.isChar, CodePoint.char?]
  | case4 => simp

theorem pairFree_unescape (h : text.PairFree) : (unescape text).PairFree := by
  fun_induction unescape text with
  | case1 => exact Str.pairFree_nil
  | case2 rest ih | case3 rest ih => exact Str.pairFree_char_cons.mpr (ih (by simpa using h))
  | case4 c rest _ _ ih =>
      exact h.cons_of_head (ih (Str.pairFree_cons.mp h).2) (head?_unescape rest)

variable {pointer : Pointer} {key : Str}

theorem pairFree_child (h : pointer.PairFree) (hkey : key.PairFree) :
    (pointer.child key).PairFree :=
  Str.pairFree_append_char_cons.mpr ⟨h, pairFree_escape hkey⟩

theorem pairFree_item (h : pointer.PairFree) (index : Nat) : (pointer.item index).PairFree :=
  pairFree_child h (Str.pairFree_ofChars _)

theorem pairFree_segments (h : pointer.PairFree) :
    ∀ segment ∈ pointer.segments, segment.PairFree := by
  rw [← intercalate_parts pointer, Str.pairFree_intercalate] at h
  intro segment hsegment
  obtain ⟨part, hpart, rfl⟩ := List.mem_map.mp hsegment
  exact pairFree_unescape (h part hpart)

theorem pairFree_join {keys : List Str} (h : pointer.PairFree)
    (hkeys : ∀ key ∈ keys, key.PairFree) : (pointer.join keys).PairFree := by
  induction keys generalizing pointer with
  | nil => exact h
  | cons key rest ih =>
      obtain ⟨hkey, hrest⟩ := List.forall_mem_cons.mp hkeys
      exact ih (pairFree_child h hkey) hrest

end Pointer

/-! ### Paragraphs -/

theorem Text.Spaced.isInfix {text : Str} {found : List Str} (h : Spaced text found) :
    ∀ paragraph ∈ found, paragraph <:+: text := by
  induction h with
  | blank => exact List.forall_mem_nil _
  | @paragraph lead first rest others _ _ _ _ ih =>
      refine List.forall_mem_cons.mpr ⟨⟨lead, rest, List.append_assoc ..⟩, fun other hother => ?_⟩
      refine (ih other hother).trans (List.IsSuffix.isInfix ?_)
      rw [← List.append_assoc]
      exact List.suffix_append _ _

theorem Text.pairFree_paragraphs {text : Str} (h : text.PairFree) :
    ∀ paragraph ∈ paragraphs text, paragraph.PairFree := fun paragraph hparagraph =>
  h.of_isInfix ((spaced_paragraphs text).isInfix paragraph hparagraph)

/-! ### Schemas that a conversion may meet -/

open Schema

theorem Schema.Holds.pairFree {document : Node} {view part : View} (h : Holds view part)
    (hdocument : document.PairFree) (hview : Occurs document view.node)
    (hpointer : view.pointer.PairFree) : part.pointer.PairFree := by
  cases h with
  | member hfound => exact Pointer.pairFree_child hpointer (hdocument.key hview hfound)
  | item => exact Pointer.pairFree_item hpointer _

/-- A schema is met with a string of the document as its pointer, or below such a one. -/
theorem Analysis.Reachable.pairFree {document : Node} {view : View}
    (hview : Reachable document view) (hdocument : document.PairFree) :
    view.pointer.PairFree := by
  obtain ⟨base, hbase, hbelow⟩ := hview
  have hreachable : Reachable document base := ⟨base, hbase, .refl⟩
  induction hbelow with
  | refl =>
      rcases List.mem_cons.mp hbase with rfl | htarget
      · exact Str.pairFree_ofString _
      · obtain ⟨pointer, hpointer, htarget⟩ := List.mem_filterMap.mp htarget
        obtain ⟨other, hother, htext⟩ := exists_of_mem_strings hpointer
        rw [(occurs_of_resolve (target?_eq_some_iff.mp htarget)).2]
        exact hdocument.string hother htext
  | tail hmiddle hpart ih =>
      exact hpart.pairFree hdocument (hreachable.below hmiddle).occurs ih

/-! ### Names -/

namespace Schema

/-- No string that names are inferred from holds a pair. -/
structure Naming.PairFree (naming : Naming) : Prop where
  document : naming.document.PairFree
  rootName : naming.rootName.PairFree

theorem pairFree_joined {owner : Option Label} {last : Str}
    (howner : ∀ label ∈ owner, label.value.PairFree) (hlast : last.PairFree) :
    (Naming.joined owner last).PairFree := by
  rw [Naming.joined, Str.pairFree_intercalate]
  intro part hpart
  have hparts := (List.mem_filter.mp hpart).1
  simp only [List.mem_cons, List.not_mem_nil, or_false] at hparts
  rcases hparts with rfl | rfl
  · cases owner with
    | none => exact Str.pairFree_nil
    | some label => exact howner label rfl
  · exact hlast

section Names

variable {naming : Naming} {label : Label} (hnaming : naming.PairFree)

include hnaming

theorem pairFree_titleLabel? {node : Node} (hnode : Occurs naming.document node)
    (h : titleLabel? node = some label) : label.value.PairFree := by
  simp only [titleLabel?, Option.bind_eq_bind, Option.bind_eq_some_iff] at h
  obtain ⟨found, hfound, text, htext, h⟩ := h
  have hstring := hnaming.document.string (hnode.member (member?_eq_some hfound).1)
    (Option.bind_eq_some_iff.mpr htext)
  split at h
  · cases h
  · obtain rfl := Option.some.inj h
    exact hstring

theorem pairFree_ownerLabel {path : List Str} {pathLabel : Except Failure (Option Label)}
    (hpath : ∀ {label}, pathLabel = .ok (some label) → label.value.PairFree)
    (h : naming.ownerLabel path pathLabel = .ok (some label)) : label.value.PairFree := by
  obtain ⟨owner?, howner, h⟩ := bind_eq_ok.mp h
  cases owner? with
  | none => cases h
  | some owner =>
      dsimp only at h
      split at h
      next title htitle =>
        obtain rfl := Option.some.inj (Except.ok.inj h)
        exact pairFree_titleLabel? hnaming (occurs_of_follow (.root _) howner) htitle
      next => exact hpath h

omit hnaming in
/-- The name of a part is made from the name of its owner, if it has one, and its segment. -/
theorem pairFree_partLabel {owner? : Except Failure (Option Label)} {owner : Option Label}
    {key : Option Key} {last : Str} (hfound : owner? = .ok owner)
    (howner : ∀ {label}, owner? = .ok (some label) → label.value.PairFree)
    (hlast : last.PairFree) : (Naming.partLabel owner key last).value.PairFree := by
  refine pairFree_joined (fun label hlabel => howner ?_) hlast
  rw [hfound, hlabel]

/-- A name below the root is a key, or that of a part. -/
theorem pairFree_ofPath {path : List Str} {label : Label}
    (hpath : ∀ segment ∈ path, segment.PairFree)
    (h : naming.ofPath path = .ok (some label)) : label.value.PairFree := by
  match path with
  | [] =>
      obtain rfl := Option.some.inj (Except.ok.inj h)
      exact hnaming.rootName
  | [last] =>
      have hlast := hpath last List.mem_cons_self
      unfold Naming.ofPath at h
      dsimp only at h
      split at h
      all_goals
        obtain ⟨owner, hfound, h⟩ := bind_eq_ok.mp h
        obtain ⟨key, -, h⟩ := bind_eq_ok.mp h
        obtain rfl := Option.some.inj (Except.ok.inj h)
        refine pairFree_partLabel hfound (fun howner => ?_) hlast
      · refine pairFree_ownerLabel hnaming (fun hroot => ?_) howner
        obtain rfl := Option.some.inj (Except.ok.inj hroot)
        exact hnaming.rootName
      · cases howner
  | last :: keyword :: outer =>
      obtain ⟨hlast, hkeyword⟩ := List.forall_mem_cons.mp hpath
      have houter := (List.forall_mem_cons.mp hkeyword).2
      unfold Naming.ofPath at h
      split at h
      · obtain ⟨key, hkey, h⟩ := bind_eq_ok.mp h
        obtain ⟨found, rfl, rfl⟩ := Option.map_eq_some_iff.mp (Except.ok.inj h)
        rcases member_of_lastKey (.root naming.document) hkey with hnone | ⟨_, member, hmember⟩
        · cases hnone
        · obtain ⟨hnode, hfound, rfl⟩ := hmember
          exact hnaming.document.key hnode hfound
      · dsimp only at h
        split at h
        all_goals
          obtain ⟨owner, hfound, h⟩ := bind_eq_ok.mp h
          obtain ⟨key, -, h⟩ := bind_eq_ok.mp h
          obtain rfl := Option.some.inj (Except.ok.inj h)
          refine pairFree_partLabel hfound (fun howner => ?_) hlast
        · exact pairFree_ownerLabel hnaming (fun hlabel => pairFree_ofPath hkeyword hlabel) howner
        · exact pairFree_ownerLabel hnaming (fun hlabel => pairFree_ofPath houter hlabel) howner
termination_by path.length

theorem pairFree_ofSegments {segments : List Str}
    (hsegments : ∀ segment ∈ segments, segment.PairFree)
    (h : naming.ofSegments segments = .ok (some label)) : label.value.PairFree := by
  obtain ⟨owner?, howner, h⟩ := bind_eq_ok.mp h
  unfold resolveSegments at howner
  cases segments with
  | nil => cases howner
  | cons first rest =>
      obtain ⟨hfirst, hrest⟩ := List.forall_mem_cons.mp hsegments
      cases owner? with
      | none => cases h
      | some owner =>
          obtain ⟨hoccurs, hpointer⟩ := occurs_of_resolve howner
          have hfree : owner.pointer.PairFree := hpointer ▸ Pointer.pairFree_join hfirst hrest
          dsimp only at h
          split at h
          next title htitle =>
            obtain rfl := Option.some.inj (Except.ok.inj h)
            exact pairFree_titleLabel? hnaming hoccurs htitle
          next =>
            refine pairFree_ofPath hnaming (fun segment hsegment => ?_) h
            exact Pointer.pairFree_segments hfree segment
              (List.mem_of_mem_drop (List.mem_reverse.mp hsegment))

theorem pairFree_ofForeignPath {first : Str} {path : List Str} (hfirst : first.PairFree)
    (hpath : ∀ segment ∈ path, segment.PairFree)
    (h : naming.ofForeignPath first path = .ok (some label)) : label.value.PairFree := by
  match path with
  | [] => cases h
  | [last] =>
      have hlast := hpath last List.mem_cons_self
      rw [Naming.ofForeignPath] at h
      dsimp only at h
      split at h
      all_goals
        obtain ⟨owner, hfound, h⟩ := bind_eq_ok.mp h
        obtain rfl := Option.some.inj (Except.ok.inj h)
        refine pairFree_partLabel hfound (fun howner => ?_) hlast
      · exact pairFree_ofSegments hnaming (List.forall_mem_singleton.mpr hfirst) howner
      · cases howner
  | last :: keyword :: outer =>
      obtain ⟨hlast, hkeyword⟩ := List.forall_mem_cons.mp hpath
      have houter := (List.forall_mem_cons.mp hkeyword).2
      rw [Naming.ofForeignPath] at h
      split at h
      · cases h
      · obtain ⟨owner, hfound, h⟩ := bind_eq_ok.mp h
        obtain rfl := Option.some.inj (Except.ok.inj h)
        refine pairFree_partLabel hfound (fun howner => ?_) hlast
        refine pairFree_ofSegments hnaming (List.forall_mem_cons.mpr ⟨hfirst, ?_⟩) howner
        intro segment hsegment
        rw [List.mem_reverse] at hsegment
        split at hsegment
        · exact hkeyword segment hsegment
        · exact houter segment hsegment

theorem pairFree_infer {view : View} (hview : Analysis.Reachable naming.document view)
    (h : naming.infer view = .ok (some label)) : label.value.PairFree := by
  unfold Naming.infer at h
  split at h
  next title htitle =>
    obtain rfl := Option.some.inj (Except.ok.inj h)
    exact pairFree_titleLabel? hnaming hview.occurs htitle
  next =>
    have hsegments := Pointer.pairFree_segments (hview.pairFree hnaming.document)
    unfold Naming.ofPointer at h
    split at h
    · cases h
    next first path hparts =>
      rw [hparts] at hsegments
      obtain ⟨hfirst, hpath⟩ := List.forall_mem_cons.mp hsegments
      have hreverse : ∀ segment ∈ path.reverse, segment.PairFree :=
        fun segment hsegment => hpath segment (List.mem_reverse.mp hsegment)
      split at h
      · exact pairFree_ofPath hnaming hreverse h
      · exact pairFree_ofForeignPath hnaming hfirst hreverse h

end Names

end Schema

end Schemata
