import Schemata.Proofs.Faults
import Schemata.Proofs.Paragraphs

/-!
# Texts of pointers

Every list of keys is the list of segments of the pointer that is joined from it. The other way
round, a pointer is joined again from its segments, but a tilde that stands for itself comes back
as `~0`.
-/

namespace Schemata.Pointer

/-! ### Tildes that begin an escape -/

/-- Every tilde of a text begins an escape. -/
def WellEscaped (text : Str) : Prop :=
  ∀ before after, text = before ++ .char '~' :: after →
    after.head? = some (.char '0') ∨ after.head? = some (.char '1')

theorem wellEscaped_nil : WellEscaped [] := by
  intro before after h
  simp at h

theorem wellEscaped_cons {c : CodePoint} {rest : Str} :
    WellEscaped (c :: rest) ↔
      (c = .char '~' → rest.head? = some (.char '0') ∨ rest.head? = some (.char '1')) ∧
        WellEscaped rest := by
  constructor
  · intro h
    refine ⟨?_, fun before after heq => h (c :: before) after (by rw [heq, List.cons_append])⟩
    rintro rfl
    exact h [] rest rfl
  · rintro ⟨hfirst, hrest⟩ before after heq
    rcases before with - | ⟨d, before⟩
    · obtain ⟨rfl, rfl⟩ := List.cons.inj heq
      exact hfirst rfl
    · exact hrest before after (List.cons.inj heq).2

/-- Escaping restores a segment if each of its tildes begins an escape. -/
theorem escape_unescape_eq_iff {text : Str} (hslash : .char '/' ∉ text) :
    escape (unescape text) = text ↔ WellEscaped text := by
  induction text using unescape.induct with
  | case1 => simp [unescape, escape, wellEscaped_nil]
  | case2 rest ih =>
      have ih := ih fun hmem => hslash (by simp [hmem])
      rw [unescape, wellEscaped_cons, wellEscaped_cons, ← ih]
      simp [escape, escapeCodePoint]
  | case3 rest ih =>
      have ih := ih fun hmem => hslash (by simp [hmem])
      rw [unescape, wellEscaped_cons, wellEscaped_cons, ← ih]
      simp [escape, escapeCodePoint]
  | case4 c rest hzero hone ih =>
      have ih := ih fun hmem => hslash (by simp [hmem])
      have hc : c ≠ .char '/' := by
        rintro rfl
        exact hslash List.mem_cons_self
      rw [unescape.eq_4 _ _ hzero hone, wellEscaped_cons, ← ih, escape, List.flatMap_cons,
        ← escape]
      by_cases htilde : c = .char '~'
      · subst htilde
        constructor
        -- The tilde would come back as `~0`.
        · intro h
          exact absurd (List.cons.inj h).2.symm (hzero _ rfl)
        · rintro ⟨hhead, -⟩
          rcases hhead rfl with hhead | hhead
          · obtain ⟨_, rfl⟩ := List.head?_eq_some_iff.mp hhead
            exact absurd rfl (hzero _ rfl)
          · obtain ⟨_, rfl⟩ := List.head?_eq_some_iff.mp hhead
            exact absurd rfl (hone _ rfl)
      · simp [escapeCodePoint, htilde, hc]

/-! ### Segments joined again -/

theorem wellEscaped_append {before after : Str} :
    WellEscaped (before ++ .char '/' :: after) ↔ WellEscaped before ∧ WellEscaped after := by
  induction before with
  | nil => simp [wellEscaped_cons, wellEscaped_nil]
  | cons c rest ih =>
      have hhead :
          ((rest ++ .char '/' :: after).head? = some (.char '0') ∨
            (rest ++ .char '/' :: after).head? = some (.char '1')) ↔
            (rest.head? = some (.char '0') ∨ rest.head? = some (.char '1')) := by
        cases rest <;> simp
      rw [List.cons_append, wellEscaped_cons, wellEscaped_cons, ih, hhead, and_assoc]

theorem wellEscaped_intercalate (parts : List Str) :
    WellEscaped ([.char '/'].intercalate parts) ↔ ∀ part ∈ parts, WellEscaped part := by
  induction parts with
  | nil => simp [wellEscaped_nil]
  | cons part rest ih =>
      by_cases hrest : rest = []
      · simp [hrest]
      · rw [List.intercalate_cons_of_ne_nil hrest, List.append_assoc, List.singleton_append,
          wellEscaped_append, ih, List.forall_mem_cons]

theorem join_eq_intercalate (pointer : Pointer) (keys : List Str) :
    pointer.join keys =
      [.char '/'].intercalate (pointer :: keys.map fun key => escape key) := by
  induction keys generalizing pointer with
  | nil => simp [join]
  | cons key rest ih =>
      rw [join, List.foldl_cons, ← join, ih, child]
      cases rest <;> simp [List.intercalate]

/-- The segments of a pointer as they are written. -/
def parts (pointer : Pointer) : List Str :=
  pointer.splitOn (.char '/')

theorem intercalate_parts (pointer : Pointer) :
    [CodePoint.char '/'].intercalate pointer.parts = pointer :=
  List.intercalate_splitOn (CodePoint.char '/')

theorem slash_notMem_of_mem_parts {pointer : Pointer} {part : Str}
    (hpart : part ∈ pointer.parts) : CodePoint.char '/' ∉ part :=
  fun hslash => (Text.mem_of_mem_splitOn hpart hslash).2 rfl

section Joined

variable {pointer : Pointer} {keys : List Str} (hsegments : pointer.segments = root :: keys)

include hsegments

/-- Joining the segments of a pointer escapes anew each of them as it is written. -/
theorem join_segments :
    root.join keys =
      [.char '/'].intercalate (pointer.parts.map fun part => escape (unescape part)) := by
  obtain ⟨first, rest, hparts⟩ :=
    List.exists_cons_of_ne_nil (List.splitOn_ne_nil (.char '/') pointer)
  rw [segments, hparts, List.map_cons] at hsegments
  obtain ⟨hfirst, rfl⟩ := List.cons.inj hsegments
  have hescape : escape root = root := by decide
  rw [join_eq_intercalate, parts, hparts, List.map_cons, hfirst, hescape, List.map_map]
  rfl

theorem join_segments_eq_iff : root.join keys = pointer ↔ WellEscaped pointer := by
  have hne : pointer.parts ≠ [] := List.splitOn_ne_nil _ pointer
  have hescaped : ∀ part ∈ pointer.parts.map fun part => escape (unescape part),
      CodePoint.char '/' ∉ part := by
    intro part hpart
    obtain ⟨_, -, rfl⟩ := List.mem_map.mp hpart
    exact slash_notMem_escape _
  have hescapedAll : WellEscaped pointer ↔ ∀ part ∈ pointer.parts, WellEscaped part := by
    rw [← wellEscaped_intercalate, intercalate_parts]
  rw [join_segments hsegments, hescapedAll]
  constructor
  · intro h part hpart
    -- The joined text is split where the pointer is.
    have hsplit := congrArg (List.splitOn (.char '/')) h
    rw [List.splitOn_intercalate _ hescaped (by simpa using hne), ← parts] at hsplit
    rw [← escape_unescape_eq_iff (slash_notMem_of_mem_parts hpart)]
    exact List.map_inj_left.mp (hsplit.trans pointer.parts.map_id.symm) part hpart
  · intro h
    rw [List.map_congr_left (g := id), List.map_id, intercalate_parts]
    intro part hpart
    exact (escape_unescape_eq_iff (slash_notMem_of_mem_parts hpart)).mpr (h part hpart)

end Joined

theorem segments_join_root (keys : List Str) : (root.join keys).segments = root :: keys := by
  rw [Schema.segments_join, segments_root]
  rfl

/-- Segments and texts of pointers are inverse to each other. A pointer from the root that is
joined again from its segments has the same segments, and is the same text if each of its tildes
begins an escape. -/
theorem segments_inverse_join :
    (∀ keys : List Str, (root.join keys).segments = root :: keys) ∧
    (∀ pointer : Pointer, pointer.segments.head? = some root →
      ∃ rewritten, ofSegments? pointer.segments = some rewritten ∧
        rewritten.segments = pointer.segments ∧
        (rewritten = pointer ↔ WellEscaped pointer)) ∧
    Function.Injective root.join := by
  refine ⟨segments_join_root, fun pointer hfirst => ?_, fun keys others heq => ?_⟩
  · obtain ⟨keys, hsegments⟩ := List.head?_eq_some_iff.mp hfirst
    refine ⟨root.join keys, ?_, ?_, join_segments_eq_iff hsegments⟩
    · rw [hsegments, ofSegments?]
    · rw [hsegments, segments_join_root]
  · have hkeys := congrArg segments heq
    rw [segments_join_root, segments_join_root] at hkeys
    exact (List.cons.inj hkeys).2

namespace LooseTildes

/-- A pointer with tildes that stand for themselves, next to an escape that spells another. -/
def sample : Pointer :=
  "#/a~2~01/~"

/-- The loose tildes come back escaped, so the text is another one with the same segments. -/
theorem segments_inverse_join_looseTildes :
    sample.segments = (["#", "a~2~1", "~"] : List Str) ∧
    ofSegments? sample.segments = some ("#/a~02~01/~0" : Pointer) ∧
    ¬ WellEscaped sample ∧
    segments "#/a~02~01/~0" = sample.segments := by
  have hjoined : ofSegments? sample.segments = some ("#/a~02~01/~0" : Pointer) := by decide +kernel
  obtain ⟨rewritten, hrewritten, hsegments, hiff⟩ :=
    segments_inverse_join.2.1 sample (by decide +kernel)
  obtain rfl := Option.some.inj (hjoined.symm.trans hrewritten)
  exact ⟨by decide +kernel, hjoined, fun h => absurd (hiff.mpr h) (by decide), hsegments⟩

end LooseTildes

end Schemata.Pointer
