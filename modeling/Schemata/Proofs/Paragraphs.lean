import Mathlib.Data.List.DropRight
import Schemata.Text.Lines

/-!
# Paragraphs of a text

A text consists of its paragraphs, with blanks around them and a blank line between any two. So
nothing but blanks is lost by taking the paragraphs, and paragraphs that are put together with
blank lines between them are found again.
-/

namespace Schemata.Text

/-! ### Blanks at the ends -/

/-- A text of blanks, possibly empty. -/
def AllBlank (text : Str) : Prop :=
  ∀ c ∈ text, isSpace c = true

theorem all_isSpace_iff {text : Str} : text.all isSpace = true ↔ AllBlank text :=
  List.all_eq_true

theorem isSpace_lineFeed : isSpace (.char '\n') = true := by
  decide

theorem allBlank_nil : AllBlank [] :=
  fun _ hc => absurd hc List.not_mem_nil

theorem allBlank_lineFeed : AllBlank [.char '\n'] := by
  simpa [AllBlank] using isSpace_lineFeed

theorem AllBlank.append {text more : Str} (h : AllBlank text) (hmore : AllBlank more) :
    AllBlank (text ++ more) := by
  intro c hc
  rcases List.mem_append.mp hc with hleft | hright
  · exact h c hleft
  · exact hmore c hright

theorem AllBlank.cons_lineFeed {text : Str} (h : AllBlank text) : AllBlank (.char '\n' :: text) :=
  List.forall_mem_cons.mpr ⟨isSpace_lineFeed, h⟩

section Trim

variable {α : Type} (drop : α → Bool) (text : List α)

theorem trim_eq_rdropWhile : trim drop text = (text.dropWhile drop).rdropWhile drop :=
  rfl

theorem exists_trimmed : ∃ lead trail, text = lead ++ (trim drop text ++ trail) ∧
    (∀ c ∈ lead, drop c = true) ∧ ∀ c ∈ trail, drop c = true := by
  refine ⟨text.takeWhile drop, (text.dropWhile drop).rtakeWhile drop, ?_,
    fun _ => List.mem_takeWhile_imp, fun _ => List.mem_rtakeWhile_imp⟩
  rw [trim_eq_rdropWhile, List.rdropWhile_append_rtakeWhile, List.takeWhile_append_dropWhile]

variable {drop text}

theorem trim_eq_nil_iff : trim drop text = [] ↔ ∀ c ∈ text, drop c = true := by
  constructor
  · intro h
    obtain ⟨lead, trail, htext, hlead, htrail⟩ := exists_trimmed drop text
    rw [h, List.nil_append] at htext
    rw [htext]
    exact fun c hc => (List.mem_append.mp hc).elim (hlead c) (htrail c)
  · intro h
    rw [trim_eq_rdropWhile, List.dropWhile_eq_nil_iff.mpr h, List.rdropWhile_nil]

theorem drop_head?_trim {c : α} (h : (trim drop text).head? = some c) : drop c = false := by
  obtain ⟨rest, hrest⟩ := List.rdropWhile_prefix drop (text.dropWhile drop)
  have hhead : (text.dropWhile drop).head? = some c := by
    rw [← hrest, ← trim_eq_rdropWhile, List.head?_append, h, Option.some_or]
  have hnot := List.head?_dropWhile_not drop text
  rwa [hhead] at hnot

theorem drop_getLast?_trim {c : α} (h : (trim drop text).getLast? = some c) :
    drop c = false := by
  have hne : (text.dropWhile drop).rdropWhile drop ≠ [] := by
    intro hnil
    rw [trim_eq_rdropWhile, hnil] at h
    cases h
  have hlast := List.rdropWhile_last_not drop _ hne
  rw [trim_eq_rdropWhile, List.getLast?_eq_some_getLast hne] at h
  simpa [Option.some.inj h] using hlast

/-- A text that neither begins nor ends with what is dropped is left as it is. -/
theorem trim_of_ends (hhead : ∀ c, text.head? = some c → drop c = false)
    (hlast : ∀ c, text.getLast? = some c → drop c = false) : trim drop text = text := by
  have hfront : text.dropWhile drop = text := by
    cases text with
    | nil => rfl
    | cons c rest => exact List.dropWhile_cons_of_neg (by simp [hhead c rfl])
  rw [trim_eq_rdropWhile, hfront, List.rdropWhile_eq_self_iff]
  intro hne
  simp [hlast _ (List.getLast?_eq_some_getLast hne)]

end Trim

/-! ### Layouts -/

/-- Between two line feeds of a text there is nothing but blanks. -/
def HasBlankLine (text : Str) : Prop :=
  ∃ before gap after, AllBlank gap ∧ text = before ++ .char '\n' :: (gap ++ .char '\n' :: after)

/-- A paragraph is not empty, neither begins nor ends with a blank and holds no blank line. -/
structure IsParagraph (text : Str) : Prop where
  ne_nil : text ≠ []
  head : ∀ c, text.head? = some c → isSpace c = false
  last : ∀ c, text.getLast? = some c → isSpace c = false
  unbroken : ¬ HasBlankLine text

/-- A blank line comes before anything else in a text. -/
def BeginsWithBlankLine (text : Str) : Prop :=
  ∃ gap rest, AllBlank gap ∧ HasBlankLine gap ∧ text = gap ++ rest

/-- A text consists of paragraphs, with blanks around them and a blank line between any two. -/
inductive Spaced : Str → List Str → Prop
  | blank {text : Str} (hblank : AllBlank text) : Spaced text []
  | paragraph {lead paragraph rest : Str} {others : List Str}
      (hlead : AllBlank lead) (hparagraph : IsParagraph paragraph)
      (hbreak : others ≠ [] → BeginsWithBlankLine rest) (hrest : Spaced rest others) :
      Spaced (lead ++ (paragraph ++ rest)) (paragraph :: others)

namespace Spaced

variable {text lead : Str} {found : List Str}

theorem after_blanks (hlead : AllBlank lead) (h : Spaced text found) :
    Spaced (lead ++ text) found := by
  cases h with
  | blank hblank => exact .blank (hlead.append hblank)
  | paragraph hbefore hparagraph hbreak hrest =>
      rw [← List.append_assoc]
      exact .paragraph (hlead.append hbefore) hparagraph hbreak hrest

theorem isParagraph (h : Spaced text found) : ∀ paragraph ∈ found, IsParagraph paragraph := by
  induction h with
  | blank => exact fun _ hmem => absurd hmem List.not_mem_nil
  | paragraph _ hparagraph _ _ ih => exact List.forall_mem_cons.mpr ⟨hparagraph, ih⟩

/-- All that is not blank belongs to the paragraphs. -/
theorem filter_eq (h : Spaced text found) :
    found.flatten.filter (fun c => !isSpace c) = text.filter fun c => !isSpace c := by
  have hnone : ∀ blank, AllBlank blank → (blank.filter fun c => !isSpace c) = [] := by
    intro blank hblank
    rw [List.filter_eq_nil_iff]
    intro c hc
    simp [hblank c hc]
  induction h with
  | blank hblank => rw [hnone _ hblank, List.flatten_nil, List.filter_nil]
  | paragraph hlead _ _ _ ih =>
      rw [List.flatten_cons, List.filter_append, List.filter_append, List.filter_append,
        hnone _ hlead, List.nil_append, ih]

end Spaced

/-! ### Lines -/

/-- Lines as a text. -/
def joined (lines : List Str) : Str :=
  [.char '\n'].intercalate lines

/-- The paragraphs that lines fall into. -/
def ofLines (lines : List Str) : List Str :=
  ((lines.splitOnP (List.all · isSpace)).map fun block => trim isSpace (joined block)).filter
    fun paragraph => !paragraph.isEmpty

theorem paragraphs_eq (text : Str) : paragraphs text = ofLines (text.splitOn (.char '\n')) :=
  rfl

theorem joined_cons {line : Str} {lines : List Str} (hlines : lines ≠ []) :
    joined (line :: lines) = line ++ .char '\n' :: joined lines := by
  rw [joined, List.intercalate_cons_of_ne_nil hlines]
  simp [joined]

theorem joined_append {lines more : List Str} (hlines : lines ≠ []) (hmore : more ≠ []) :
    joined (lines ++ more) = joined lines ++ .char '\n' :: joined more := by
  induction lines with
  | nil => exact absurd rfl hlines
  | cons line rest ih =>
      by_cases hrest : rest = []
      · rw [hrest, List.cons_append, List.nil_append, joined_cons hmore]
        simp [joined]
      · have hall : rest ++ more ≠ [] := by simp [hmore]
        rw [List.cons_append, joined_cons hall, joined_cons hrest, ih hrest]
        simp

theorem mem_of_mem_splitOn {α : Type} [DecidableEq α] {text line : List α} {sep c : α}
    (hline : line ∈ text.splitOn sep) (hc : c ∈ line) : c ∈ text ∧ c ≠ sep := by
  induction text generalizing line with
  | nil =>
      obtain rfl : line = [] := by simpa [List.splitOn] using hline
      cases hc
  | cons first rest ih =>
      rw [List.splitOn_cons_eq_if_modifyHead] at hline
      split at hline
      · rcases List.mem_cons.mp hline with rfl | hlater
        · cases hc
        · exact (ih hlater hc).imp_left (List.mem_cons_of_mem _)
      next hfirst =>
        obtain ⟨line', lines, hsplit⟩ := List.exists_cons_of_ne_nil (List.splitOn_ne_nil sep rest)
        rw [hsplit] at hline ih
        rcases List.mem_cons.mp hline with rfl | hlater
        · rcases List.mem_cons.mp hc with rfl | hrest
          · exact ⟨List.mem_cons_self, by simpa using hfirst⟩
          · exact (ih List.mem_cons_self hrest).imp_left (List.mem_cons_of_mem _)
        · exact (ih (List.mem_cons_of_mem _ hlater) hc).imp_left (List.mem_cons_of_mem _)

section Lines

variable {lines more : List Str} {blank : Str}

/-- A blank line ends a paragraph. -/
theorem ofLines_append (hblank : AllBlank blank) :
    ofLines (lines ++ blank :: more) = ofLines lines ++ ofLines more := by
  have hsep : (fun line : Str => line.all isSpace) blank = true :=
    all_isSpace_iff.mpr hblank
  rw [ofLines, List.splitOnP_append_cons lines more hsep, List.map_append, List.filter_append]
  rfl

/-- Lines none of which is blank are one paragraph. -/
theorem ofLines_of_unbroken (hne : lines ≠ []) (h : ∀ line ∈ lines, ¬ AllBlank line) :
    ofLines lines = [trim isSpace (joined lines)] := by
  have hsplit : (lines.splitOnP fun line => line.all isSpace) = [lines] := by
    refine List.splitOnP_eq_singleton fun line hline => ?_
    rw [Bool.eq_false_iff, Ne, all_isSpace_iff]
    exact h line hline
  have hwritten : trim isSpace (joined lines) ≠ [] := by
    obtain ⟨line, rest, rfl⟩ := List.exists_cons_of_ne_nil hne
    intro hnil
    refine h line List.mem_cons_self fun c hc => trim_eq_nil_iff.mp hnil c ?_
    cases rest with
    | nil => simpa [joined] using hc
    | cons next rest =>
        rw [joined_cons (List.cons_ne_nil next rest)]
        exact List.mem_append_left _ hc
  simp [ofLines, hsplit, hwritten]

/-- In a text with a blank line one of the lines is blank. -/
theorem exists_blank_of_hasBlankLine (hne : lines ≠ []) (hlines : ∀ line ∈ lines, .char '\n' ∉ line)
    (h : HasBlankLine (joined lines)) : ∃ line ∈ lines, AllBlank line := by
  obtain ⟨before, gap, after, hgap, htext⟩ := h
  have hsplit : lines = before.splitOn (.char '\n') ++
      (gap.splitOn (.char '\n') ++ after.splitOn (.char '\n')) := by
    rw [← List.splitOn_append_cons_self, ← List.splitOn_append_cons_self, ← htext, joined,
      List.splitOn_intercalate _ hlines hne]
  obtain ⟨line, _, hline⟩ := List.exists_cons_of_ne_nil (List.splitOn_ne_nil (.char '\n') gap)
  have hmem : line ∈ gap.splitOn (.char '\n') := hline ▸ List.mem_cons_self
  refine ⟨line, ?_, fun c hc => hgap c (mem_of_mem_splitOn hmem hc).1⟩
  rw [hsplit]
  exact List.mem_append_right _ (List.mem_append_left _ hmem)

theorem isParagraph_trim (hne : lines ≠ []) (hlines : ∀ line ∈ lines, .char '\n' ∉ line)
    (h : ∀ line ∈ lines, ¬ AllBlank line) : IsParagraph (trim isSpace (joined lines)) where
  ne_nil hnil := by
    have hone := ofLines_of_unbroken hne h
    have hmem : [] ∈ ofLines lines := by rw [hone, hnil]; exact List.mem_cons_self
    simp [ofLines] at hmem
  head _ := drop_head?_trim
  last _ := drop_getLast?_trim
  unbroken := by
    rintro ⟨before, gap, after, hgap, htrim⟩
    obtain ⟨lead, trail, htext, -, -⟩ := exists_trimmed isSpace (joined lines)
    have hbroken : HasBlankLine (joined lines) :=
      ⟨lead ++ before, gap, after ++ trail, hgap, by rw [htext, htrim]; simp⟩
    obtain ⟨line, hline, hblank⟩ := exists_blank_of_hasBlankLine hne hlines hbroken
    exact h line hline hblank

/-- What comes after lines none of which is blank is spaced from the paragraph that they are. -/
theorem spaced_unbroken {rest : Str} {others : List Str} (hne : lines ≠ [])
    (hlines : ∀ line ∈ lines, .char '\n' ∉ line) (h : ∀ line ∈ lines, ¬ AllBlank line)
    (hrest : Spaced rest others)
    (hbreak : ∀ trail, AllBlank trail → others ≠ [] → BeginsWithBlankLine (trail ++ rest)) :
    Spaced (joined lines ++ rest) (trim isSpace (joined lines) :: others) := by
  obtain ⟨lead, trail, htext, hlead, htrail⟩ := exists_trimmed isSpace (joined lines)
  have hwhole : Spaced (lead ++ (trim isSpace (joined lines) ++ (trail ++ rest)))
      (trim isSpace (joined lines) :: others) :=
    .paragraph hlead (isParagraph_trim hne hlines h) (hbreak trail htrail)
      (hrest.after_blanks htrail)
  have hsame : joined lines ++ rest =
      lead ++ (trim isSpace (joined lines) ++ (trail ++ rest)) := by
    simpa using congrArg (· ++ rest) htext
  rwa [hsame]

end Lines

/-- Lines are paragraphs with blanks around them. The first blank line ends the first paragraph,
and what comes after it is cut in the same way. -/
theorem spaced_ofLines (lines : List Str) (hlines : ∀ line ∈ lines, .char '\n' ∉ line) :
    Spaced (joined lines) (ofLines lines) := by
  induction hlength : lines.length using Nat.strong_induction_on generalizing lines with
  | _ _ ih =>
  cases hfind : lines.find? fun line => line.all isSpace with
  | none =>
      have hunbroken : ∀ line ∈ lines, ¬ AllBlank line := fun line hline hblank =>
        List.find?_eq_none.mp hfind line hline (all_isSpace_iff.mpr hblank)
      by_cases hne : lines = []
      · rw [hne]
        exact .blank allBlank_nil
      · rw [ofLines_of_unbroken hne hunbroken]
        simpa using spaced_unbroken hne hlines hunbroken (.blank allBlank_nil)
          fun _ _ hothers => absurd rfl hothers
  | some blank =>
      obtain ⟨hblank, before, after, rfl, hbefore⟩ := List.find?_eq_some_iff_append.mp hfind
      have hblank := all_isSpace_iff.mp hblank
      have hafter := ih after.length (by simp at hlength; omega) after
        (fun line hline => hlines line (by simp [hline])) rfl
      have hrest : Spaced (joined (blank :: after)) (ofLines after) := by
        by_cases hnone : after = []
        · rw [hnone]
          exact .blank (by simpa [joined] using hblank)
        · rw [joined_cons hnone]
          exact (hafter.after_blanks allBlank_lineFeed).after_blanks hblank
      rw [ofLines_append hblank]
      by_cases hnone : before = []
      · rw [hnone]
        exact hrest
      have hunbroken : ∀ line ∈ before, ¬ AllBlank line := fun line hline hall => by
        simpa [all_isSpace_iff.mpr hall] using hbefore line hline
      rw [joined_append hnone (List.cons_ne_nil blank after), ofLines_of_unbroken hnone hunbroken]
      refine spaced_unbroken hnone (fun line hline => hlines line (by simp [hline])) hunbroken
        (hrest.after_blanks allBlank_lineFeed) fun trail htrail hothers => ?_
      -- More paragraphs come from more lines, after the line that is blank.
      have hmore : after ≠ [] := by
        rintro rfl
        exact hothers rfl
      refine ⟨trail ++ .char '\n' :: (blank ++ [.char '\n']), joined after, ?_, ?_, ?_⟩
      · exact htrail.append (hblank.append allBlank_lineFeed).cons_lineFeed
      · exact ⟨trail, blank, [], hblank, rfl⟩
      · rw [joined_cons hmore]
        simp

theorem spaced_paragraphs (text : Str) : Spaced text (paragraphs text) := by
  have hlines : ∀ line ∈ text.splitOn (.char '\n'), .char '\n' ∉ line :=
    fun line hline hc => (mem_of_mem_splitOn hline hc).2 rfl
  have hspaced := spaced_ofLines (text.splitOn (.char '\n')) hlines
  rwa [joined, List.intercalate_splitOn] at hspaced

/-! ### Paragraphs put together -/

namespace IsParagraph

variable {text lead trail : Str}

theorem lead_eq_nil (h : IsParagraph (lead ++ text)) (hlead : AllBlank lead) : lead = [] := by
  cases lead with
  | nil => rfl
  | cons c rest => exact absurd ((hlead c List.mem_cons_self).symm.trans (h.head c rfl)) nofun

theorem trail_eq_nil (h : IsParagraph (text ++ trail)) (htrail : AllBlank trail) : trail = [] := by
  by_contra hne
  have hlast : (text ++ trail).getLast? = some (trail.getLast hne) := by
    rw [List.getLast?_append, List.getLast?_eq_some_getLast hne, Option.some_or]
  exact absurd ((htrail _ (List.getLast_mem hne)).symm.trans (h.last _ hlast)) nofun

/-- No line of a paragraph is blank. -/
theorem not_allBlank {line : Str} (h : IsParagraph text)
    (hline : line ∈ text.splitOn (.char '\n')) : ¬ AllBlank line := by
  intro hblank
  obtain ⟨before, after, hsplit⟩ := List.append_of_mem hline
  have htext : text = joined (before ++ line :: after) := by
    rw [← hsplit, joined, List.intercalate_splitOn]
  by_cases hbefore : before = []
  · by_cases hafter : after = []
    · have hsame : text = line ++ [] := by simpa [hbefore, hafter, joined] using htext
      have hnil := (hsame ▸ h).lead_eq_nil hblank
      exact h.ne_nil (by rw [hsame, hnil, List.append_nil])
    · have hsame : text = (line ++ [.char '\n']) ++ joined after := by
        simpa [hbefore, joined_cons hafter] using htext
      exact List.concat_ne_nil _ _ ((hsame ▸ h).lead_eq_nil (hblank.append allBlank_lineFeed))
  · rw [joined_append hbefore (List.cons_ne_nil line after)] at htext
    by_cases hafter : after = []
    · have hsame : text = joined before ++ .char '\n' :: line := by
        simpa [hafter, joined] using htext
      exact List.cons_ne_nil _ _ ((hsame ▸ h).trail_eq_nil hblank.cons_lineFeed)
    · rw [joined_cons hafter] at htext
      exact h.unbroken ⟨joined before, line, joined after, hblank, htext⟩

theorem paragraphs_eq_singleton (h : IsParagraph text) :
    paragraphs text = [text] := by
  have hone := ofLines_of_unbroken (List.splitOn_ne_nil (.char '\n') text) fun _ => h.not_allBlank
  rw [paragraphs_eq, hone, joined, List.intercalate_splitOn, trim_of_ends h.head h.last]

end IsParagraph

/-- Paragraphs with blank lines between them are the paragraphs of the whole. -/
theorem paragraphs_intercalate {found : List Str}
    (h : ∀ paragraph ∈ found, IsParagraph paragraph) :
    paragraphs ([.char '\n', .char '\n'].intercalate found) = found := by
  induction found with
  | nil => rfl
  | cons first rest ih =>
      obtain ⟨hfirst, hrest⟩ := List.forall_mem_cons.mp h
      by_cases hnone : rest = []
      · rw [hnone, List.intercalate_singleton, hfirst.paragraphs_eq_singleton]
      · have hsplit (more : Str) : (first ++ ([.char '\n', .char '\n'] : Str) ++ more).splitOn
            (.char '\n') = first.splitOn (.char '\n') ++ [] :: more.splitOn (.char '\n') := by
          rw [List.append_assoc, List.cons_append, List.splitOn_append_cons_self,
            List.singleton_append, ← List.nil_append (.char '\n' :: more),
            List.splitOn_append_cons_self]
          rfl
        rw [List.intercalate_cons_of_ne_nil hnone, paragraphs_eq, hsplit,
          ofLines_append allBlank_nil, ← paragraphs_eq, ← paragraphs_eq,
          hfirst.paragraphs_eq_singleton, ih hrest]
        rfl

/-- The paragraphs of a text are not empty, neither begin nor end with a blank and hold no blank
line. All that is not blank belongs to them, in order; a blank line stands between any two of
them in the text, and between no others. Put together with blank lines between them, they are
found again. -/
theorem paragraphs_of_text (text : Str) :
    (∀ paragraph ∈ paragraphs text, IsParagraph paragraph) ∧
      (paragraphs text).flatten.filter (fun c => !isSpace c) =
        text.filter (fun c => !isSpace c) ∧
      Spaced text (paragraphs text) ∧
      paragraphs ([.char '\n', .char '\n'].intercalate (paragraphs text)) = paragraphs text := by
  have hspaced := spaced_paragraphs text
  exact ⟨hspaced.isParagraph, hspaced.filter_eq, hspaced,
    paragraphs_intercalate hspaced.isParagraph⟩

end Schemata.Text
