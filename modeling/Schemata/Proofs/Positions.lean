import Mathlib.Data.List.Induction
import Schemata.Proofs.Parsing
import Schemata.Proofs.Places

/-!
# Positions in a text

A position is exact if its line and its column can be counted in the text: one line more
than the line feeds before the position, and one column more than the characters since the
last of them. All positions of a tree and the position of a fault are exact, and the raw
forms of keys and scalars are the text of their ranges.
-/

namespace Schemata.Json

open Grammar Source Schema

/-- The line of an offset starts just after the last line feed before it, or with the text. -/
structure LineStart (text : List Char) (offset start : Nat) : Prop where
  le : start ≤ offset
  after_newline : start = 0 ∨ text[start - 1]? = some '\n'
  same_line : ∀ index, start ≤ index → index < offset → text[index]? ≠ some '\n'

/-- A position is what can be counted at its offset in the text. -/
def Exact (text : List Char) (position : Position) : Prop :=
  ∃ offset start : Nat, offset ≤ text.length ∧ LineStart text offset start ∧
    position = ⟨1 + (text.take offset).count '\n', offset - start + 1, offset⟩

def ExactRange (text : List Char) (range : Range) : Prop :=
  Exact text range.first ∧ Exact text range.last

/-- The text from the first offset of a range up to its last one. -/
def slice (text : List Char) (range : Range) : List Char :=
  (text.drop range.first.offset.toNat).take (range.last.offset - range.first.offset).toNat

/-- The ranges of a value and of its members are exact, and what is kept as written is the
text of its range. -/
structure Located (text : List Char) (node : Node) : Prop where
  range : ExactRange text node.range
  raw : ∀ range value raw, node = .scalar range value raw → raw.toList = slice text range
  member : ∀ found ∈ node.members, ExactRange text found.range
  key : ∀ found ∈ node.members, ExactRange text found.key.range
  keyRaw : ∀ found ∈ node.members, found.key.raw.toList = slice text found.key.range

/-! ### Counting -/

theorem LineStart.append {text : List Char} {start : Nat} (h : LineStart text text.length start)
    (more : List Char) : LineStart (text ++ more) text.length start where
  le := h.le
  after_newline := by
    rcases h.after_newline with hzero | hnewline
    · exact .inl hzero
    · have hbound := (List.getElem?_eq_some_iff.mp hnewline).1
      rw [List.getElem?_append_left hbound]
      exact .inr hnewline
  same_line index hstart hindex := by
    rw [List.getElem?_append_left hindex]
    exact h.same_line index hstart hindex

theorem LineStart.newline (text : List Char) :
    LineStart (text ++ ['\n']) (text ++ ['\n']).length (text.length + 1) where
  le := by simp
  after_newline := by simp
  same_line index hstart hindex := by
    rw [List.length_append, List.length_singleton] at hindex
    omega

theorem LineStart.other {text : List Char} {c : Char} {start : Nat}
    (h : LineStart text text.length start) (hc : c ≠ '\n') :
    LineStart (text ++ [c]) (text ++ [c]).length start where
  le := by
    have := h.le
    rw [List.length_append]
    omega
  after_newline := (h.append [c]).after_newline
  same_line index hstart hindex := by
    by_cases hlast : index = text.length
    · simpa [hlast] using hc
    · refine (h.append [c]).same_line index hstart ?_
      rw [List.length_append, List.length_singleton] at hindex
      omega

/-- Counting characters one by one gives what can be counted at once. -/
theorem past_start (text : List Char) :
    ∃ start, LineStart text text.length start ∧
      Position.start.past text =
        ⟨1 + text.count '\n', text.length - start + 1, text.length⟩ := by
  induction text using List.reverseRecOn with
  | nil => exact ⟨0, ⟨le_rfl, .inl rfl, nofun⟩, rfl⟩
  | append_singleton text c ih =>
      obtain ⟨start, hstart, hpast⟩ := ih
      rw [Position.past_append, hpast]
      by_cases hc : c = '\n'
      · subst hc
        refine ⟨text.length + 1, .newline text, ?_⟩
        simp [Position.after, add_assoc]
      · refine ⟨start, hstart.other hc, ?_⟩
        simp [Position.after, hc]
        omega

theorem exact_past (text more : List Char) :
    Exact (text ++ more) (Position.start.past text) := by
  obtain ⟨start, hstart, hpast⟩ := past_start text
  refine ⟨text.length, start, ?_, hstart.append more, ?_⟩
  · simp
  · rw [hpast, List.take_left]

/-- The numbers of a position do not exceed the length of the text by more than one. -/
theorem Exact.natAbs_le {text : List Char} {position : Position} (h : Exact text position) :
    position.line.natAbs ≤ text.length + 1 ∧ position.column.natAbs ≤ text.length + 1 ∧
      position.offset.natAbs ≤ text.length + 1 := by
  obtain ⟨offset, start, hoffset, hstart, rfl⟩ := h
  have hcount : (text.take offset).count '\n' ≤ offset :=
    List.count_le_length.trans (List.length_take_le offset text)
  have hle := hstart.le
  dsimp only
  omega

theorem offset_past (position : Position) (text : List Char) :
    (position.past text).offset = position.offset + text.length := by
  induction text generalizing position with
  | nil => simp
  | cons c rest ih =>
      have hafter : (position.after c).offset = position.offset + 1 := by
        unfold Position.after
        split <;> rfl
      rw [Position.past_cons, ih, hafter, List.length_cons]
      omega

section Pieces

variable (before body after : List Char)

theorem exactRange_piece :
    ExactRange (before ++ body ++ after)
      ⟨Position.start.past before, (Position.start.past before).past body⟩ := by
  refine ⟨?_, ?_⟩
  · rw [List.append_assoc]
    exact exact_past before (body ++ after)
  · rw [← Position.past_append]
    exact exact_past (before ++ body) after

theorem slice_piece :
    slice (before ++ body ++ after)
      ⟨Position.start.past before, (Position.start.past before).past body⟩ = body := by
  simp [slice, offset_past, Position.start]

end Pieces

/-! ### Trees -/

/-- A phrase is written somewhere in a text. -/
def Spells (text : List Char) (phrase : Phrase) : Prop :=
  ∃ before body after, text = before ++ body ++ after ∧
    Written Text.digitLimit (Position.start.past before) body phrase

namespace Spells

variable {text : List Char}

theorem item {nodes : List Node} (h : Spells text (.items nodes)) {node : Node}
    (hnode : node ∈ nodes) : Spells text (.value node) := by
  induction nodes with
  | nil => exact absurd hnode List.not_mem_nil
  | cons first others ih =>
      obtain ⟨start, _, tail, rfl, hwritten⟩ := h
      cases hwritten with
      | @nextItem _ before after body rest _ _ _ _ hfirst hothers =>
          rw [← Position.past_append] at hfirst hothers
          rcases List.mem_cons.mp hnode with rfl | hnode
          · exact ⟨_, body, rest ++ tail, by simp, hfirst⟩
          · exact ih ⟨_, rest, tail, by simp, hothers⟩ hnode

theorem found {members : List (Member Node)} (h : Spells text (.members members))
    {member : Member Node} (hmember : member ∈ members) : Spells text (.member member) := by
  induction members with
  | nil => exact absurd hmember List.not_mem_nil
  | cons first others ih =>
      obtain ⟨start, _, tail, rfl, hwritten⟩ := h
      cases hwritten with
      | @nextMember _ before after body rest _ _ _ _ hfirst hothers =>
          rw [← Position.past_append] at hfirst hothers
          rcases List.mem_cons.mp hmember with rfl | hmember
          · exact ⟨_, body, rest ++ tail, by simp, hfirst⟩
          · exact ih ⟨_, rest, tail, by simp, hothers⟩ hmember

theorem items {range : Range} {nodes : List Node} (h : Spells text (.value (.array range nodes)))
    {node : Node} (hnode : node ∈ nodes) : Spells text (.value node) := by
  obtain ⟨start, _, tail, rfl, hwritten⟩ := h
  cases hwritten with
  | emptyArray => exact absurd hnode List.not_mem_nil
  | @array _ blank body rest _ _ _ hfirst hothers =>
      rw [← Position.past_append] at hfirst hothers
      rcases List.mem_cons.mp hnode with rfl | hnode
      · exact ⟨_, body, rest ++ tail, by simp, hfirst⟩
      · exact item ⟨_, rest, tail, by simp, hothers⟩ hnode

theorem members {range : Range} {members : List (Member Node)}
    (h : Spells text (.value (.object range members))) {member : Member Node}
    (hmember : member ∈ members) : Spells text (.member member) := by
  obtain ⟨start, _, tail, rfl, hwritten⟩ := h
  cases hwritten with
  | emptyObject => exact absurd hmember List.not_mem_nil
  | @object _ blank body rest _ _ _ hfirst hothers =>
      rw [← Position.past_append] at hfirst hothers
      rcases List.mem_cons.mp hmember with rfl | hmember
      · exact ⟨_, body, rest ++ tail, by simp, hfirst⟩
      · exact found ⟨_, rest, tail, by simp, hothers⟩ hmember

theorem value {member : Member Node} (h : Spells text (.member member)) :
    Spells text (.value member.value) := by
  obtain ⟨start, _, tail, rfl, hwritten⟩ := h
  cases hwritten with
  | @member _ _ _ _ _ body _ _ _ _ hvalue =>
      rw [← Position.past_append] at hvalue
      exact ⟨_, body, tail, by simp, hvalue⟩

theorem holds {view part : View} (h : Spells text (.value view.node)) (hpart : Holds view part) :
    Spells text (.value part.node) := by
  obtain ⟨node, pointer⟩ := view
  cases hpart with
  | member hfound =>
      cases node with
      | object range members => exact (h.members hfound).value
      | array | scalar => exact absurd hfound List.not_mem_nil
  | item hitem =>
      cases node with
      | array range items => exact h.items (List.mem_of_getElem? hitem)
      | object | scalar => simp [Node.items] at hitem

theorem occurs {root node : Node} (h : Spells text (.value root)) (hnode : Occurs root node) :
    Spells text (.value node) := by
  obtain ⟨pointer, hbelow⟩ := hnode
  have hall : ∀ {view : View}, Below (View.root root) view → Spells text (.value view.node) := by
    intro view hview
    induction hview with
    | refl => exact h
    | tail _ hpart ih => exact ih.holds hpart
  exact hall hbelow

end Spells

theorem Grammar.Written.range_eq {limit : Nat} {position : Position} {text : List Char}
    {node : Node} (h : Written limit position text (.value node)) :
    node.range = ⟨position, position.past text⟩ := by
  cases h <;> rfl

theorem Spells.range {text : List Char} {node : Node} (h : Spells text (.value node)) :
    ExactRange text node.range := by
  obtain ⟨before, body, after, rfl, hwritten⟩ := h
  rw [hwritten.range_eq]
  exact exactRange_piece before body after

theorem Spells.key {text : List Char} {member : Member Node} (h : Spells text (.member member)) :
    ExactRange text member.key.range ∧ member.key.raw.toList = slice text member.key.range := by
  obtain ⟨start, _, tail, rfl, hwritten⟩ := h
  cases hwritten with
  | @member _ body characters before after rest value _ _ _ _ =>
      have htext : start ++ (inQuotes body ++ before ++ ':' :: after ++ rest) ++ tail =
          start ++ inQuotes body ++ (before ++ ':' :: after ++ rest ++ tail) := by
        simp
      rw [htext]
      refine ⟨exactRange_piece .., ?_⟩
      simp only [Grammar.keyAt, slice_piece, String.toList_ofList]

theorem Spells.located {text : List Char} {node : Node} (h : Spells text (.value node)) :
    Located text node where
  range := h.range
  raw range value raw hnode := by
    subst hnode
    obtain ⟨before, body, after, rfl, hwritten⟩ := h
    cases hwritten with
    | scalar => simp only [slice_piece, String.toList_ofList]
  member found hfound := by
    cases node with
    | object range members =>
        have hmember := h.members hfound
        exact ⟨hmember.key.1.1, hmember.value.range.2⟩
    | array | scalar => exact absurd hfound List.not_mem_nil
  key found hfound := by
    cases node with
    | object range members => exact (h.members hfound).key.1
    | array | scalar => exact absurd hfound List.not_mem_nil
  keyRaw found hfound := by
    cases node with
    | object range members => exact (h.members hfound).key.2
    | array | scalar => exact absurd hfound List.not_mem_nil

/-! ### Faults -/

theorem stringOf_fault {token : Token} {fault : Fault} {position : Position}
    (h : State.stringOf token = .error (.malformed fault position)) :
    position = token.range.first := by
  unfold State.stringOf at h
  cases hunescape : unescape (token.text.drop 1).dropLast with
  | ok => rw [hunescape] at h; cases h
  | error => rw [hunescape] at h; cases h; rfl

theorem startValue_fault {token : Token} {outer : List Pending} {fault : Fault}
    {position : Position} (h : State.startValue token outer = .error (.malformed fault position)) :
    position = token.range.first := by
  unfold State.startValue at h
  dsimp only at h
  split at h
  · cases hstring : State.stringOf token with
    | ok => rw [hstring] at h; cases h
    | error => rw [hstring] at h; cases h; exact stringOf_fault hstring
  · split at h <;> cases h
  · cases h
  · split at h
    · cases h
    · split at h
      · cases h
      · cases h
        rfl

theorem startMember_fault {first : Position} {members : List (Member Node)}
    {outer : List Pending} {token : Token} {fault : Fault} {position : Position}
    (h : State.startMember first members outer token = .error (.malformed fault position)) :
    position = token.range.first := by
  unfold State.startMember at h
  split at h
  · cases hstring : State.stringOf token with
    | ok => rw [hstring] at h; cases h
    | error => rw [hstring] at h; cases h; exact stringOf_fault hstring
  · cases h
    rfl

/-- A token that is refused is refused at its start. -/
theorem step_fault {state : State} {token : Token} {fault : Fault} {position : Position}
    (h : state.step token = .error (.malformed fault position)) :
    position = token.range.first := by
  cases state with
  | nextValue => exact startValue_fault h
  | firstItem =>
      rw [State.step] at h
      split at h
      · cases h
      · exact startValue_fault h
  | firstKey =>
      rw [State.step] at h
      split at h
      · cases h
      · exact startMember_fault h
  | nextKey => exact startMember_fault h
  | nextColon =>
      rw [State.step] at h
      split at h
      · cases h
      · cases h
        rfl
  | afterItem | afterMember =>
      rw [State.step] at h
      split at h
      · cases h
      · split at h
        · cases h
        · cases h
          rfl
  | done =>
      cases h
      rfl

theorem Lexed.exact_first {before text : List Char} {tokens : List Token}
    (h : Lexed (Position.start.past before) text tokens) {token : Token} (htoken : token ∈ tokens) :
    Exact (before ++ text) token.range.first := by
  induction tokens generalizing before text with
  | nil => exact absurd htoken List.not_mem_nil
  | cons first tokens ih =>
      obtain ⟨blank, rest, rfl, -, -, hrange, hrest⟩ := h.of_cons
      rw [← Position.past_append] at hrest
      rcases List.mem_cons.mp htoken with rfl | htoken
      · rw [hrange, ← Position.past_append]
        have hexact := exact_past (before ++ blank) (token.text ++ rest)
        simpa only [List.append_assoc] using hexact
      · simpa only [List.append_assoc] using ih hrest htoken

/-- Reading stops at the first token that is refused. -/
theorem foldlM_step_eq_error_iff {state : State} {tokens : List Token} {error : ReadError} :
    tokens.foldlM State.step state = .error error ↔
      ∃ before token after last, tokens = before ++ token :: after ∧
        before.foldlM State.step state = .ok last ∧ last.step token = .error error := by
  induction tokens generalizing state with
  | nil => simp [pure, Except.pure]
  | cons token tokens ih =>
      rw [List.foldlM_cons, bind_eq_error]
      constructor
      · rintro (hstep | ⟨next, hstep, hrest⟩)
        · exact ⟨[], token, tokens, state, rfl, rfl, hstep⟩
        · obtain ⟨before, other, after, last, rfl, hbefore, hlast⟩ := ih.mp hrest
          refine ⟨token :: before, other, after, last, rfl, ?_, hlast⟩
          rw [List.foldlM_cons, hstep]
          exact hbefore
      · rintro ⟨before, other, after, last, htokens, hbefore, hlast⟩
        cases before with
        | nil =>
            obtain ⟨rfl, rfl⟩ := List.cons.inj htokens
            obtain rfl := Except.ok.inj hbefore
            exact .inl hlast
        | cons first before =>
            obtain ⟨rfl, rfl⟩ := List.cons.inj htokens
            rw [List.foldlM_cons] at hbefore
            obtain ⟨next, hstep, hbefore⟩ := bind_eq_ok.mp hbefore
            exact .inr ⟨next, hstep, ih.mpr ⟨before, other, after, last, rfl, hbefore, hlast⟩⟩

theorem tokens_fault {text : List Char} {fault : Fault} {position : Position}
    (h : tokens text = .error (.malformed fault position)) : Exact text position := by
  rw [tokens] at h
  split at h
  · cases h
  next lexemes c rest hscan =>
    cases h
    have happend := scan_append text
    rw [hscan] at happend
    have hexact := exact_past (lexemes.flatMap Lexeme.text) (c :: rest)
    rwa [happend] at hexact

theorem finish_fault {state : State} {last position : Position} {fault : Fault}
    (h : state.finish last = .error (.malformed fault position)) : position = last := by
  cases state with
  | done => cases h
  | _ => cases h; rfl

/-- A text is refused at an exact position. -/
theorem exact_of_fault {text : String} {fault : Fault} {position : Position}
    (h : read text = .error (.malformed fault position)) : Exact text.toList position := by
  rcases bind_eq_error.mp h with hscan | ⟨found, hfound, h⟩
  · exact tokens_fault hscan
  rcases bind_eq_error.mp h with hfold | ⟨state, -, hfinish⟩
  · obtain ⟨before, token, after, last, rfl, -, hstep⟩ := foldlM_step_eq_error_iff.mp hfold
    rw [step_fault hstep]
    have hlexed : Lexed (Position.start.past []) text.toList (before ++ token :: after) :=
      lexed_of_tokens hfound
    exact hlexed.exact_first (List.mem_append_right before List.mem_cons_self)
  · rw [finish_fault hfinish]
    simpa using exact_past text.toList []

theorem spells_of_read {text : String} {root : Node} (h : read text = .ok root) :
    Spells text.toList (.value root) := by
  obtain ⟨before, body, after, htext, -, -, hwritten⟩ := isText_of_read h
  exact ⟨before, body, after, htext, hwritten⟩

/-- All positions that reading a text gives are exact: those of every value, key and member of
its tree, and the one at which the text is refused. Keys and scalars are kept as written. -/
theorem read_positions (text : String) :
    (∀ root, read text = .ok root → ∀ node, Occurs root node → Located text.toList node) ∧
    (∀ fault position, read text = .error (.malformed fault position) →
      Exact text.toList position) := by
  refine ⟨fun root hread node hnode => ?_, fun fault position => exact_of_fault⟩
  exact ((spells_of_read hread).occurs hnode).located

theorem positions_after_newline :
    Located "[\n true]".toList (.scalar ⟨⟨2, 2, 3⟩, ⟨2, 6, 7⟩⟩ (.bool true) "true") ∧
      Exact "[\n true,".toList ⟨2, 7, 8⟩ := by
  refine ⟨(read_positions _).1 (.array ⟨⟨1, 1, 0⟩, ⟨2, 7, 8⟩⟩
    [.scalar ⟨⟨2, 2, 3⟩, ⟨2, 6, 7⟩⟩ (.bool true) "true"]) ?_ _ ?_,
    (read_positions _).2 .endOfInput _ ?_⟩
  · cbv
  · exact ⟨_, .single (@Holds.item _ _ 0 rfl)⟩
  · cbv

end Schemata.Json
